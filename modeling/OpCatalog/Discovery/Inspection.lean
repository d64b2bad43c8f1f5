import OpCatalog.Discovery.Category
import OpCatalog.Discovery.Classification
import OpCatalog.Discovery.Settings

/-!
# Inspection of a type

A type is instantiated, its object asked for description and parameters, and the
object released again whatever the outcome.
-/
namespace OpCatalog

/-- The parameters that become arguments, after `found` of them with the names
`seen`: not deprecated, set at construction, and the first of their name. `none` if
there are more than `limit`. -/
def usableParameters? (limit : Option Nat) :
    List String → Nat → List ParamSpec → Option (List ParamSpec)
  | _, _, [] => some []
  | seen, found, spec :: specs =>
    if spec.isDeprecated || !spec.isConstruct || seen.contains spec.name then
      usableParameters? limit seen found specs
    else if limit.any (· ≤ found) then none
    else (usableParameters? limit (spec.name :: seen) (found + 1) specs).map (spec :: ·)

namespace Registry

variable {σ : Type}

/-- What a live object of the type `t` says about the operation `name`. -/
def describeOperation (reg : Registry σ) (rootNames : List String) (limit : Option Nat)
    (t : TypeHandle) (name : String) (object : InstanceHandle) (s : σ) : Except Failure Operation :=
  match usableParameters? limit [] 0 (reg.parameters object s) with
  | none => .error (.limitExceeded .arguments name (limit.getD 0))
  | some specs =>
    .ok
      { name := name
        description := (reg.description? object s).getD ""
        category := reg.category rootNames t name
        arguments := specs.map reg.classify }

/-- The operation that a type is, `none` if the type cannot be instantiated. -/
def inspect (reg : Registry σ) (rootNames : List String) (limit : Option Nat) (t : TypeHandle)
    (name : String) (s : σ) : Except Failure (Option Operation) × σ :=
  match reg.instantiate t s with
  | (none, s) => (.ok none, s)
  | (some object, s) =>
    ((reg.describeOperation rootNames limit t name object s).map some, reg.release object s)

end Registry

end OpCatalog
