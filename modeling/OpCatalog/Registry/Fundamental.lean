/-!
# Fundamental types

The root of a type's lineage in the foreign type system.
-/
namespace OpCatalog

inductive Fundamental where
  | object
  | boxed
  | pointer
  | enum
  | flags
  | float
  | double
  | int
  | uint
  | long
  | ulong
  | int64
  | uint64
  | boolean
  | string
  | other
  deriving DecidableEq, Repr, Inhabited

namespace Fundamental

def all : List Fundamental :=
  [.object, .boxed, .pointer, .enum, .flags, .float, .double, .int, .uint, .long, .ulong, .int64,
    .uint64, .boolean, .string, .other]

def label : Fundamental → String
  | .object => "object"
  | .boxed => "boxed"
  | .pointer => "pointer"
  | .enum => "enum"
  | .flags => "flags"
  | .float => "float"
  | .double => "double"
  | .int => "int"
  | .uint => "u_int"
  | .long => "long"
  | .ulong => "u_long"
  | .int64 => "int64"
  | .uint64 => "u_int64"
  | .boolean => "boolean"
  | .string => "string"
  | .other => "other"

def ofLabel? (s : String) : Option Fundamental := all.find? (·.label == s)

@[simp] theorem ofLabel?_label (f : Fundamental) : ofLabel? f.label = some f := by
  cases f <;> decide

def isFloating : Fundamental → Bool
  | .float | .double => true
  | _ => false

def isInteger : Fundamental → Bool
  | .int | .uint | .long | .ulong | .int64 | .uint64 => true
  | _ => false

end Fundamental

end OpCatalog
