import OpCatalog.Catalog.Basic
import OpCatalog.Discovery.FirstOfEach
import OpCatalog.Discovery.Settings

/-!
# Arrangement of the operations found

Overrides, orders and the removal of operations whose name is taken, in this order.
Both sorts are stable, so sorting never changes which of several operations of one
name comes first.
-/
namespace OpCatalog

namespace Settings

def sortArguments (args : List Argument) : List Argument :=
  args.mergeSort fun a b => decide (a.priority.toInt ≤ b.priority.toInt)

def sortOperations (ops : List Operation) : List Operation :=
  ops.mergeSort fun a b => decide (a.name ≤ b.name)

/-- An operation with its category and the order of its arguments as the settings
ask for. -/
def arrangeOperation (s : Settings) (op : Operation) : Operation :=
  { op with
    category := (s.overrides.lookup op.name).getD op.category
    arguments :=
      match s.argumentOrder with
      | .discovery => op.arguments
      | .priority => sortArguments op.arguments }

def arrange (s : Settings) (ops : List Operation) : List Operation :=
  let ops := ops.map s.arrangeOperation
  firstOfEach Operation.name []
    (match s.operationOrder with
      | .registration => ops
      | .name => sortOperations ops)

end Settings

end OpCatalog
