import OpCatalog.Catalog.Basic
import OpCatalog.Double.Nearest
import OpCatalog.Registry.Basic

/-!
# Classification of parameters

A parameter becomes an argument: its kind comes from the traits of its value
type, its flags are mapped one by one, and numeric kinds keep default and bounds.
-/
namespace OpCatalog

namespace ParamFlags

/-- The flags that have a counterpart, and the counterpart of each. -/
def counterparts : List (ParamFlag × ArgumentFlags) :=
  [(.input, .input), (.output, .output), (.required, .required), (.modify, .modify)]

def toArgumentFlags (flags : ParamFlags) : ArgumentFlags :=
  counterparts.foldl
    (fun out (given, carried) => if flags.contains given.flag then out ∪ carried else out) .none

end ParamFlags

namespace ParamValue

/-- Default and bounds for an argument of a kind: none unless the kind is numeric,
and a default alone for booleans and enumerations. -/
def bounds (kind : Kind) (value : ParamValue) : Bounds :=
  if kind.isNumeric then
    match value with
    | .double default minimum maximum => ⟨default, minimum, maximum⟩
    | .int default minimum maximum =>
      ⟨.ofInt default.toInt, .ofInt minimum.toInt, .ofInt maximum.toInt⟩
    | .uint default minimum maximum =>
      ⟨.ofInt default.toNat, .ofInt minimum.toNat, .ofInt maximum.toNat⟩
    | .boolean default => { default := if default then .one else .zero }
    | .enum default => { default := .ofInt default.toInt }
    | .other => .zero
  else .zero

end ParamValue

namespace Registry

variable {σ : Type}

/-- The kind of a type; `unknown` if the registry cannot describe it. -/
def kindOf (reg : Registry σ) (t : TypeHandle) : Kind :=
  match reg.traits? t with
  | some traits => traits.kind
  | none => .unknown

def classify (reg : Registry σ) (spec : ParamSpec) : Argument :=
  let kind := reg.kindOf spec.valueType
  { name := spec.name
    kind := kind
    flags := spec.flags.toArgumentFlags
    priority := spec.priority
    bounds := spec.value.bounds kind
    enumType := if kind.namesEnum then some ((reg.typeName? spec.valueType).getD "") else none }

end Registry

end OpCatalog
