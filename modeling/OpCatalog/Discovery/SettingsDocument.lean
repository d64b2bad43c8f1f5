import OpCatalog.Discovery.Settings
import OpCatalog.Toml.Document
import OpCatalog.Toml.Record

/-!
# Settings documents

Settings as a TOML document. Every key may be left out and no other key is
allowed.
-/
namespace OpCatalog

namespace Limits

def ofToml? (v : Toml) : Option Limits := do
  let fields ← v.fields? fieldNames
  let limit (r : Resource) := fields.defaulted r.limitName none fun v => v.count?.map some
  some ⟨← limit .operations, ← limit .arguments, ← limit .enumMembers⟩

end Limits

namespace Settings

def orders? (v : Toml) : Option (OperationOrder × ArgumentOrder) := do
  let fields ← v.fields? ["operations", "arguments"]
  let operations ←
    fields.defaulted "operations" .registration (Toml.constant? OperationOrder.ofLabel?)
  let arguments ← fields.defaulted "arguments" .discovery (Toml.constant? ArgumentOrder.ofLabel?)
  some (operations, arguments)

def overrides? (v : Toml) : Option (List (String × String)) := do
  let fields ← v.fields? ["overrides"]
  let overrides ← fields.defaulted "overrides" [] Toml.textTable?
  some (overrides.mergeSort fun a b => decide (a.1 ≤ b.1))

def ofToml? (v : Toml) : Option Settings := do
  let standard : Settings := {}
  let fields ← v.fields? fieldNames
  let baseType ← fields.defaulted "base_type" standard.baseType Toml.text?
  let rootTypes ← fields.defaulted "root_types" standard.rootTypes Toml.texts?
  let sentinel ← fields.defaulted "sentinel_nick" standard.sentinel Toml.text?
  let limits ← fields.defaulted "limits" {} Limits.ofToml?
  let (operationOrder, argumentOrder) ←
    fields.defaulted "ordering" (.registration, .discovery) orders?
  let overrides ← fields.defaulted "categories" [] overrides?
  some ⟨baseType, rootTypes, sentinel, limits, operationOrder, argumentOrder, overrides⟩

/-- Why a text gives no settings. -/
inductive ReadFault where
  /-- It is no settings document. -/
  | malformed
  | invalid (fault : Fault)
  deriving DecidableEq, Repr

/-- Reads a settings document and checks the settings. -/
def read (text : String) : Except ReadFault Settings :=
  match (Toml.parse? text).bind fun entries => ofToml? (.table entries) with
  | none => .error .malformed
  | some s =>
    match s.fault? with
    | some fault => .error (.invalid fault)
    | none => .ok s

end Settings

end OpCatalog
