/-!
# Argument kinds

The closed set of kinds that an argument of an operation is reduced to. The
position in `Kind.all` is the number of a kind, shared with whatever generates
code from a catalogue.
-/
namespace OpCatalog

inductive Kind where
  | unknown
  | image
  | double
  | int
  | bool
  | string
  | enum
  | flags
  | arrayDouble
  | arrayInt
  | arrayImage
  | blob
  | interpolate
  | source
  | target
  deriving DecidableEq, Repr, Inhabited

namespace Kind

def all : List Kind :=
  [.unknown, .image, .double, .int, .bool, .string, .enum, .flags, .arrayDouble, .arrayInt,
    .arrayImage, .blob, .interpolate, .source, .target]

def number (k : Kind) : Nat := all.idxOf k

/-- The name in a written catalogue. -/
def label : Kind → String
  | .unknown => "unknown"
  | .image => "image"
  | .double => "double"
  | .int => "int"
  | .bool => "bool"
  | .string => "string"
  | .enum => "enum"
  | .flags => "flags"
  | .arrayDouble => "array_double"
  | .arrayInt => "array_int"
  | .arrayImage => "array_image"
  | .blob => "blob"
  | .interpolate => "interpolate"
  | .source => "source"
  | .target => "target"

def ofLabel? (s : String) : Option Kind := all.find? (·.label == s)

@[simp] theorem ofLabel?_label (k : Kind) : ofLabel? k.label = some k := by
  cases k <;> decide

/-- The name in a listing, which differs from the label for arrays. -/
def name : Kind → String
  | .arrayDouble => "[]double"
  | .arrayInt => "[]int"
  | .arrayImage => "[]image"
  | k => k.label

/-- Default and bounds mean something for this kind. -/
def isNumeric : Kind → Bool
  | .double | .int | .bool | .enum => true
  | _ => false

/-- An argument of this kind names an enumerated type. -/
def namesEnum : Kind → Bool
  | .enum | .flags => true
  | _ => false

end Kind

end OpCatalog
