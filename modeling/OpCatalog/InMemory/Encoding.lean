import OpCatalog.InMemory.Definition
import OpCatalog.Json.Record

/-!
# Type definitions as JSON

Definitions and their arguments refuse members that are no fields; members of an
enumeration and value specifications ignore them. A value specification is tagged
by `spec`, which may stand anywhere among its members, and for that the whole of
it is read before the tag is known: what it ignores must be plain and not too deep.
-/
namespace OpCatalog

open Json (Fields)

namespace ParamValue

/-- How deep a value specification may be. The limit is 127 for a whole snapshot,
and a specification stands inside the snapshot, its types, a type, its arguments
and an argument. -/
def depthLimit : Nat := 122

def toJson : ParamValue → Json
  | .double default minimum maximum =>
    .obj
      [("spec", .str "double"), ("default", .ofDouble default), ("minimum", .ofDouble minimum),
        ("maximum", .ofDouble maximum)]
  | .int default minimum maximum =>
    .obj
      [("spec", .str "int"), ("default", .ofInt default.toInt), ("minimum", .ofInt minimum.toInt),
        ("maximum", .ofInt maximum.toInt)]
  | .uint default minimum maximum =>
    .obj
      [("spec", .str "uint"), ("default", .ofInt default.toNat), ("minimum", .ofInt minimum.toNat),
        ("maximum", .ofInt maximum.toNat)]
  | .boolean default => .obj [("spec", .str "boolean"), ("default", .bool default)]
  | .enum default => .obj [("spec", .str "enum"), ("default", .ofInt default.toInt)]
  | .other => .obj [("spec", .str "other")]

/-- The default, minimum and maximum of a specification with bounds. -/
def bounded? (read : Json → Option α) (j : Json) : Option (α × α × α) := do
  let fields ← j.fields? ["default", "minimum", "maximum"] .ignored
  let default ← fields.required "default" read
  let minimum ← fields.required "minimum" read
  let maximum ← fields.required "maximum" read
  some (default, minimum, maximum)

/-- The default of a specification without bounds. -/
def unbounded? (read : Json → Option α) (j : Json) : Option α := do
  let fields ← j.fields? ["default"] .ignored
  fields.required "default" read

/-- The specification with the given tag and further members or elements. -/
def ofTagged? (real? : Json → Option Double) (tag : String) (rest : Json) : Option ParamValue :=
  match tag with
  | "double" => (bounded? real? rest).map fun (d, low, high) => .double d low high
  | "int" => (bounded? Json.int32? rest).map fun (d, low, high) => .int d low high
  | "uint" => (bounded? Json.uint32? rest).map fun (d, low, high) => .uint d low high
  | "boolean" => (unbounded? Json.bool? rest).map .boolean
  | "enum" => (unbounded? Json.int32? rest).map .enum
  | "other" => (rest.fields? [] .ignored).map fun _ => .other
  | _ => none

/-- Reads a specification; `real?` reads the numbers of a double one. -/
def ofJson? (real? : Json → Option Double) (j : Json) : Option ParamValue :=
  if j.isPlain real? && decide (j.depth ≤ depthLimit) then
    match j with
    | .obj members =>
      match members.filter (·.1 == "spec") with
      | [(_, .str tag)] => ofTagged? real? tag (.obj (members.filter (·.1 != "spec")))
      | _ => none
    | .arr (.str tag :: items) => ofTagged? real? tag (.arr items)
    | _ => none
  else none

end ParamValue

namespace RawMember

def fieldNames : List String := ["name", "nick", "value"]

def toJson (m : RawMember) : Json :=
  .obj
    [("name", (m.name.map .str).getD .null), ("nick", (m.nick.map .str).getD .null),
      ("value", .ofInt m.value.toInt)]

def ofJson? (j : Json) : Option RawMember := do
  let fields ← j.fields? fieldNames .ignored
  let name ← fields.defaulted "name" none (Json.nullable? Json.string?)
  let nick ← fields.defaulted "nick" none (Json.nullable? Json.string?)
  let value ← fields.required "value" Json.int32?
  some ⟨name, nick, value⟩

end RawMember

namespace ArgumentDefinition

def fieldNames : List String := ["name", "type", "flags", "priority", "value"]

def toJson (a : ArgumentDefinition) : Json :=
  .obj
    [("name", .str a.name), ("type", .str a.typeName),
      ("flags", .arr (a.flags.map fun f => .str f.label)), ("priority", .ofInt a.priority.toInt),
      ("value", a.value.toJson)]

def ofJson? (real? : Json → Option Double) (j : Json) : Option ArgumentDefinition := do
  let fields ← j.fields? fieldNames .refused
  let name ← fields.required "name" Json.string?
  let typeName ← fields.required "type" Json.string?
  let flags ← fields.defaulted "flags" [] (Json.list? (Json.constant? ParamFlag.ofLabel?))
  let priority ← fields.defaulted "priority" 0 Json.int32?
  let value ← fields.defaulted "value" .other (ParamValue.ofJson? real?)
  some ⟨name, typeName, flags, priority, value⟩

end ArgumentDefinition

namespace TypeDefinition

def fieldNames : List String :=
  ["name", "parent", "nickname", "fundamental", "abstract", "broken", "description", "arguments",
    "values"]

/-- The list, unless it is empty. -/
def listUnlessEmpty (toJson : α → Json) (items : List α) : Option Json :=
  if items.isEmpty then none else some (.arr (items.map toJson))

def toJson (d : TypeDefinition) : Json :=
  .ofFields
    [("name", some (.str d.name)),
      ("parent", d.parent.map .str),
      ("nickname", d.nickname.map .str),
      ("fundamental", d.fundamental.map fun f => .str f.label),
      ("abstract", some (.bool d.isAbstract)),
      ("broken", some (.bool d.isBroken)),
      ("description", d.description.map .str),
      ("arguments", listUnlessEmpty ArgumentDefinition.toJson d.arguments),
      ("values", listUnlessEmpty RawMember.toJson d.members)]

def ofJson? (real? : Json → Option Double) (j : Json) : Option TypeDefinition := do
  let fields ← j.fields? fieldNames .refused
  let name ← fields.required "name" Json.string?
  let parent ← fields.defaulted "parent" none (Json.nullable? Json.string?)
  let nickname ← fields.defaulted "nickname" none (Json.nullable? Json.string?)
  let fundamental ←
    fields.defaulted "fundamental" none (Json.nullable? (Json.constant? Fundamental.ofLabel?))
  let isAbstract ← fields.defaulted "abstract" false Json.bool?
  let isBroken ← fields.defaulted "broken" false Json.bool?
  let description ← fields.defaulted "description" none (Json.nullable? Json.string?)
  let arguments ← fields.defaulted "arguments" [] (Json.list? (ArgumentDefinition.ofJson? real?))
  let members ← fields.defaulted "values" [] (Json.list? RawMember.ofJson?)
  some ⟨name, parent, nickname, fundamental, isAbstract, isBroken, description, arguments, members⟩

end TypeDefinition

end OpCatalog
