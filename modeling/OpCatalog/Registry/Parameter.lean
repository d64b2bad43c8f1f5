import OpCatalog.Double.Basic

/-!
# Parameters

A parameter of a foreign object as its library declares it: a name, the type of
its values, flags, and what is specified about the values themselves.
-/
namespace OpCatalog

/-- A registered type. -/
structure TypeHandle where
  raw : Nat
  deriving DecidableEq, Repr, Inhabited

namespace TypeHandle

def text (t : TypeHandle) : String := "TypeHandle(" ++ t.raw.repr ++ ")"

end TypeHandle

/-- A live transient object. -/
structure InstanceHandle where
  raw : UInt64
  deriving DecidableEq, Repr, Inhabited

structure ParamFlags where
  bits : UInt32
  deriving DecidableEq, Repr, Inhabited

namespace ParamFlags

def none : ParamFlags := ⟨0⟩

def contains (flags other : ParamFlags) : Bool := flags.bits &&& other.bits == other.bits

instance : Union ParamFlags := ⟨fun a b => ⟨a.bits ||| b.bits⟩⟩

@[simp] theorem bits_union (a b : ParamFlags) : (a ∪ b).bits = a.bits ||| b.bits := rfl

end ParamFlags

/-- A parameter flag by name. -/
inductive ParamFlag where
  /-- Must be set before the object is built. -/
  | required
  /-- Can be set while the object is constructed. -/
  | construct
  | setOnce
  | setAlways
  | input
  | output
  /-- Kept for compatibility only. -/
  | deprecated
  /-- Modified in place. -/
  | modify
  /-- Left out when operations are cached. -/
  | nonHashable
  deriving DecidableEq, Repr, Inhabited

namespace ParamFlag

def all : List ParamFlag :=
  [.required, .construct, .setOnce, .setAlways, .input, .output, .deprecated, .modify, .nonHashable]

def label : ParamFlag → String
  | .required => "required"
  | .construct => "construct"
  | .setOnce => "set_once"
  | .setAlways => "set_always"
  | .input => "input"
  | .output => "output"
  | .deprecated => "deprecated"
  | .modify => "modify"
  | .nonHashable => "non_hashable"

def ofLabel? (s : String) : Option ParamFlag := all.find? (·.label == s)

@[simp] theorem ofLabel?_label (f : ParamFlag) : ofLabel? f.label = some f := by
  cases f <;> decide

def flag : ParamFlag → ParamFlags
  | .required => ⟨1⟩
  | .construct => ⟨2⟩
  | .setOnce => ⟨4⟩
  | .setAlways => ⟨8⟩
  | .input => ⟨16⟩
  | .output => ⟨32⟩
  | .deprecated => ⟨64⟩
  | .modify => ⟨128⟩
  | .nonHashable => ⟨256⟩

end ParamFlag

/-- The union of the named flags. -/
def ParamFlags.ofNames (names : List ParamFlag) : ParamFlags :=
  names.foldl (fun flags name => flags ∪ name.flag) .none

/-- What is specified about the values of a parameter. -/
inductive ParamValue where
  | double (default minimum maximum : Double)
  | int (default minimum maximum : Int32)
  | uint (default minimum maximum : UInt32)
  | boolean (default : Bool)
  | enum (default : Int32)
  | other
  deriving DecidableEq, Repr, Inhabited

structure ParamSpec where
  name : String
  valueType : TypeHandle
  flags : ParamFlags
  priority : Int32
  value : ParamValue
  deriving DecidableEq, Repr, Inhabited

namespace ParamSpec

def isDeprecated (spec : ParamSpec) : Bool := spec.flags.contains ParamFlag.deprecated.flag

def isConstruct (spec : ParamSpec) : Bool := spec.flags.contains ParamFlag.construct.flag

end ParamSpec

/-- A member of a foreign enumeration, whose strings may be missing. -/
structure RawMember where
  name : Option String
  nick : Option String
  value : Int32
  deriving DecidableEq, Repr, Inhabited

end OpCatalog
