/-!
# Argument flags

Direction and requirement of an argument as a set of bits. Bits without a name
are kept, except by `ofBits`.
-/
namespace OpCatalog

structure ArgumentFlags where
  bits : UInt32
  deriving DecidableEq, Repr, Inhabited

namespace ArgumentFlags

def none : ArgumentFlags := ⟨0⟩
def input : ArgumentFlags := ⟨1⟩
def output : ArgumentFlags := ⟨2⟩
def required : ArgumentFlags := ⟨4⟩
def modify : ArgumentFlags := ⟨8⟩

/-- Drops the bits without a name. -/
def ofBits (bits : UInt32) : ArgumentFlags := ⟨bits &&& 15⟩

def contains (flags other : ArgumentFlags) : Bool := flags.bits &&& other.bits == other.bits

def isEmpty (flags : ArgumentFlags) : Bool := flags.bits == 0

instance : Union ArgumentFlags := ⟨fun a b => ⟨a.bits ||| b.bits⟩⟩

@[simp] theorem bits_union (a b : ArgumentFlags) : (a ∪ b).bits = a.bits ||| b.bits := rfl

def named : List (ArgumentFlags × String) :=
  [(input, "input"), (output, "output"), (required, "required"), (modify, "modify")]

def text (flags : ArgumentFlags) : String :=
  match named.filter (flags.contains ·.1) with
  | [] => "none"
  | present => "|".intercalate (present.map (·.2))

end ArgumentFlags

end OpCatalog
