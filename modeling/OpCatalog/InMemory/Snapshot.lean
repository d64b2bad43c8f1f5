import OpCatalog.InMemory.Encoding
import OpCatalog.InMemory.Host
import OpCatalog.Json.Reader
import OpCatalog.Json.Writer

/-!
# Snapshots

A list of type definitions in the order of registration, as it was taken from a
foreign type system. Loaded on top of the standard types it gives a host.
-/
namespace OpCatalog

structure Snapshot where
  types : List TypeDefinition := []
  deriving DecidableEq, Repr, Inhabited

namespace Snapshot

def fieldNames : List String := ["types"]

def toJson (s : Snapshot) : Json := .obj [("types", .arr (s.types.map TypeDefinition.toJson))]

def ofJsonBy? (r : Reading) (j : Json) : Option Snapshot := do
  let fields ← j.fields? fieldNames .refused
  let types ← fields.defaulted "types" [] (Json.list? (TypeDefinition.ofJson? (Json.doubleBy? r)))
  some ⟨types⟩

def parseBy? (r : Reading) (text : String) : Option Snapshot :=
  (Json.parse? text).bind (ofJsonBy? r)

def parse? : String → Option Snapshot := parseBy? .quick

def render (s : Snapshot) : String := s.toJson.pretty

/-- A host with the standard types and those of the snapshot. -/
def load (s : Snapshot) : Except Refusal Host :=
  match Host.standard.registerAll s.types with
  | (.error e, _) => .error e
  | (.ok _, h) => .ok h

end Snapshot

end OpCatalog
