import OpCatalog.Catalog.Basic
import OpCatalog.Json.Reader
import OpCatalog.Json.Record
import OpCatalog.Json.Writer

/-!
# Catalogues as JSON

Fields are written in the order of their declaration, and the enumerated type of
an argument only if there is one. Members that are no fields are ignored on
reading, and every field has a default except names, kinds, flags, priorities,
categories and values of enumeration members. Where doubles are read, the readers
take a `Reading`; those without one are the readers of the program.
-/
namespace OpCatalog

open Json (Fields)

namespace Argument

def fieldNames : List String :=
  ["name", "kind", "flags", "priority", "default", "min", "max", "enum_type_name"]

def toJson (a : Argument) : Json :=
  .ofFields
    [("name", some (.str a.name)),
      ("kind", some (.str a.kind.label)),
      ("flags", some (.ofInt a.flags.bits.toNat)),
      ("priority", some (.ofInt a.priority.toInt)),
      ("default", some (.ofDouble a.bounds.default)),
      ("min", some (.ofDouble a.bounds.min)),
      ("max", some (.ofDouble a.bounds.max)),
      ("enum_type_name", a.enumType.map .str)]

def ofJsonBy? (r : Reading) (j : Json) : Option Argument := do
  let fields ← j.fields? fieldNames .ignored
  let name ← fields.required "name" Json.string?
  let kind ← fields.required "kind" (Json.constant? Kind.ofLabel?)
  let flags ← fields.required "flags" Json.uint32?
  let priority ← fields.required "priority" Json.int32?
  let default ← fields.defaulted "default" .zero (Json.doubleBy? r)
  let min ← fields.defaulted "min" .zero (Json.doubleBy? r)
  let max ← fields.defaulted "max" .zero (Json.doubleBy? r)
  let enumType ← fields.defaulted "enum_type_name" none (Json.nullable? Json.string?)
  some ⟨name, kind, ⟨flags⟩, priority, ⟨default, min, max⟩, enumType⟩

def ofJson? : Json → Option Argument := ofJsonBy? .quick

end Argument

namespace Operation

def fieldNames : List String := ["name", "description", "category", "arguments"]

def toJson (op : Operation) : Json :=
  .obj
    [("name", .str op.name),
      ("description", .str op.description),
      ("category", .str op.category),
      ("arguments", .arr (op.arguments.map Argument.toJson))]

def ofJsonBy? (r : Reading) (j : Json) : Option Operation := do
  let fields ← j.fields? fieldNames .ignored
  let name ← fields.required "name" Json.string?
  let description ← fields.defaulted "description" "" Json.string?
  let category ← fields.required "category" Json.string?
  let arguments ← fields.defaulted "arguments" [] (Json.list? (Argument.ofJsonBy? r))
  some ⟨name, description, category, arguments⟩

end Operation

namespace EnumMember

def fieldNames : List String := ["name", "nick", "value"]

def toJson (m : EnumMember) : Json :=
  .obj [("name", .str m.name), ("nick", .str m.nick), ("value", .ofInt m.value.toInt)]

def ofJson? (j : Json) : Option EnumMember := do
  let fields ← j.fields? fieldNames .ignored
  let name ← fields.required "name" Json.string?
  let nick ← fields.required "nick" Json.string?
  let value ← fields.required "value" Json.int32?
  some ⟨name, nick, value⟩

end EnumMember

namespace EnumType

def fieldNames : List String := ["type_name", "values"]

def toJson (e : EnumType) : Json :=
  .obj [("type_name", .str e.name), ("values", .arr (e.members.map EnumMember.toJson))]

def ofJson? (j : Json) : Option EnumType := do
  let fields ← j.fields? fieldNames .ignored
  let name ← fields.required "type_name" Json.string?
  let members ← fields.defaulted "values" [] (Json.list? EnumMember.ofJson?)
  some ⟨name, members⟩

end EnumType

namespace Catalog

def fieldNames : List String := ["operations", "enums"]

def toJson (c : Catalog) : Json :=
  .obj
    [("operations", .arr (c.operations.map Operation.toJson)),
      ("enums", .arr (c.enums.map EnumType.toJson))]

def ofJsonBy? (r : Reading) (j : Json) : Option Catalog := do
  let fields ← j.fields? fieldNames .ignored
  let operations ← fields.defaulted "operations" [] (Json.list? (Operation.ofJsonBy? r))
  let enums ← fields.defaulted "enums" [] (Json.list? EnumType.ofJson?)
  some ⟨operations, enums⟩

def parseBy? (r : Reading) (text : String) : Option Catalog :=
  (Json.parse? text).bind (ofJsonBy? r)

def parse? : String → Option Catalog := parseBy? .quick

def render (layout : Json.Layout) (c : Catalog) : String := c.toJson.render layout

end Catalog

end OpCatalog
