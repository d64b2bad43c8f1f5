import OpCatalog.Discovery.Settings
import OpCatalog.Json.Record

/-!
# Settings as JSON

Settings as an object with the fields of a settings document. Every field may be
null or left out and no other member is allowed.
-/
namespace OpCatalog

namespace Limits

def ofJson? (j : Json) : Option Limits := do
  let fields := (← j.fields? fieldNames .refused).present
  let limit (r : Resource) := fields.defaulted r.limitName none fun v => v.count?.map some
  some ⟨← limit .operations, ← limit .arguments, ← limit .enumMembers⟩

end Limits

namespace Settings

def ordersOfJson? (j : Json) : Option (OperationOrder × ArgumentOrder) := do
  let fields := (← j.fields? ["operations", "arguments"] .refused).present
  let operations ←
    fields.defaulted "operations" .registration (Json.constant? OperationOrder.ofLabel?)
  let arguments ← fields.defaulted "arguments" .discovery (Json.constant? ArgumentOrder.ofLabel?)
  some (operations, arguments)

def overridesOfJson? (j : Json) : Option (List (String × String)) := do
  let fields := (← j.fields? ["overrides"] .refused).present
  let overrides ← fields.defaulted "overrides" [] Json.textTable?
  some (overrides.mergeSort fun a b => decide (a.1 ≤ b.1))

def ofJson? (j : Json) : Option Settings := do
  let standard : Settings := {}
  let fields := (← j.fields? fieldNames .refused).present
  let baseType ← fields.defaulted "base_type" standard.baseType Json.string?
  let rootTypes ← fields.defaulted "root_types" standard.rootTypes (Json.list? Json.string?)
  let sentinel ← fields.defaulted "sentinel_nick" standard.sentinel Json.string?
  let limits ← fields.defaulted "limits" {} Limits.ofJson?
  let (operationOrder, argumentOrder) ←
    fields.defaulted "ordering" (.registration, .discovery) ordersOfJson?
  let overrides ← fields.defaulted "categories" [] overridesOfJson?
  some ⟨baseType, rootTypes, sentinel, limits, operationOrder, argumentOrder, overrides⟩

end Settings

end OpCatalog
