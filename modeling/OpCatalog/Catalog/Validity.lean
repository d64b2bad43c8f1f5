import OpCatalog.Catalog.Basic

/-!
# Validity of a catalogue

`Catalog.check` passes over a catalogue once, operations before enumerated types,
and reports the first violation that it meets.
-/
namespace OpCatalog

inductive Violation where
  | duplicateOperation (name : String)
  | duplicateArgument (operation argument : String)
  | emptyCategory (operation : String)
  | strayBounds (operation argument : String) (kind : Kind)
  | enumNameMismatch (operation argument : String)
  | sentinelMember (enumType nick : String)
  deriving DecidableEq, Repr

namespace Violation

def message : Violation → String
  | .duplicateOperation name => "Duplicate operation name: " ++ name
  | .duplicateArgument operation argument =>
    "Duplicate argument " ++ argument ++ " in operation " ++ operation
  | .emptyCategory operation => "Operation " ++ operation ++ " has an empty category"
  | .strayBounds operation argument kind =>
    "Argument " ++ argument ++ " of " ++ operation ++ " is " ++ kind.name ++
      " but carries numeric bounds"
  | .enumNameMismatch operation argument =>
    "Argument " ++ argument ++ " of " ++ operation ++ " has an inconsistent enum type name"
  | .sentinelMember enumType nick =>
    "Enum " ++ enumType ++ " contains the sentinel value " ++ nick

end Violation

namespace Catalog

/-- Checks the arguments of an operation, after arguments with the names `seen`. -/
def checkArguments (operation : String) : List String → List Argument → Except Violation Unit
  | _, [] => .ok ()
  | seen, a :: as =>
    if seen.contains a.name then .error (.duplicateArgument operation a.name)
    else if !a.kind.isNumeric && !a.bounds.isZero then
      .error (.strayBounds operation a.name a.kind)
    else if a.kind.namesEnum != a.hasEnumName then .error (.enumNameMismatch operation a.name)
    else checkArguments operation (a.name :: seen) as

/-- Checks operations, after operations with the names `seen`. -/
def checkOperations : List String → List Operation → Except Violation Unit
  | _, [] => .ok ()
  | seen, op :: ops =>
    if seen.contains op.name then .error (.duplicateOperation op.name)
    else if op.category.isEmpty then .error (.emptyCategory op.name)
    else
      match checkArguments op.name [] op.arguments with
      | .error v => .error v
      | .ok () => checkOperations (op.name :: seen) ops

def checkEnums (sentinel : String) : List EnumType → Except Violation Unit
  | [] => .ok ()
  | e :: es =>
    match e.byNick? sentinel with
    | some m => .error (.sentinelMember e.name m.nick)
    | none => checkEnums sentinel es

/-- Names are unique, categories not empty, bounds zero for kinds that are not
numeric, enum names given exactly where the kind asks for one, and no enumerated
type lists the `sentinel`. -/
def check (c : Catalog) (sentinel : String) : Except Violation Unit :=
  match checkOperations [] c.operations with
  | .error v => .error v
  | .ok () => checkEnums sentinel c.enums

end Catalog

end OpCatalog
