import OpCatalog.Catalog.Kind
import OpCatalog.Registry.Fundamental

/-!
# Traits of a type

What classification asks of the type of a parameter's values. Capabilities may
overlap, so they are listed in the order in which they are tried.
-/
namespace OpCatalog

inductive Capability where
  | image
  | interpolate
  | source
  | target
  | blob
  | arrayDouble
  | arrayInt
  | arrayImage
  deriving DecidableEq, Repr, Inhabited

namespace Capability

def all : List Capability :=
  [.image, .interpolate, .source, .target, .blob, .arrayDouble, .arrayInt, .arrayImage]

theorem mem_all (c : Capability) : c ∈ all := by cases c <;> decide

/-- The kind of an argument whose type has the capability. -/
def kind : Capability → Kind
  | .image => .image
  | .interpolate => .interpolate
  | .source => .source
  | .target => .target
  | .blob => .blob
  | .arrayDouble => .arrayDouble
  | .arrayInt => .arrayInt
  | .arrayImage => .arrayImage

/-- The registered type that has the capability and passes it on to its subtypes. -/
def typeName : Capability → String
  | .image => "VipsImage"
  | .interpolate => "VipsInterpolate"
  | .source => "VipsSource"
  | .target => "VipsTarget"
  | .blob => "VipsBlob"
  | .arrayDouble => "VipsArrayDouble"
  | .arrayInt => "VipsArrayInt"
  | .arrayImage => "VipsArrayImage"

end Capability

structure Traits where
  has : Capability → Bool
  fundamental : Fundamental
  isEnum : Bool := fundamental == .enum
  isFlags : Bool := fundamental == .flags

namespace Fundamental

/-- The kind of a type without capabilities that is neither enumeration nor flags. -/
def kind (f : Fundamental) : Kind :=
  if f.isFloating then .double
  else if f.isInteger then .int
  else match f with
    | .boolean => .bool
    | .string => .string
    | _ => .unknown

end Fundamental

namespace Traits

/-- The first capability decides, then the enumerations, then the fundamental type. -/
def kind (traits : Traits) : Kind :=
  match Capability.all.find? traits.has with
  | some c => c.kind
  | none =>
    if traits.isEnum then .enum
    else if traits.isFlags then .flags
    else traits.fundamental.kind

end Traits

end OpCatalog
