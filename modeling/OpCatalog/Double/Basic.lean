/-!
# Double-precision numbers

A double is its sixty-four bits, so that negative zero and the payloads of NaN
are values like any other and equality is decidable. The lower sixty-three bits,
read as a number, are the magnitude: it grows with the absolute value, and
everything from `infinity` on is not finite.
-/
namespace OpCatalog

structure Double where
  bits : UInt64
  deriving DecidableEq, Repr, Inhabited

namespace Double

/-- The weight of the bit above the magnitude. -/
def signBit : Nat := 0x8000000000000000

/-- The weight of the lowest exponent bit, which is also the leading bit of the
significand of a normal number. -/
def leadingBit : Nat := 0x10000000000000

/-- The magnitude of the two infinities; NaN lies above it. -/
def infinity : Nat := 0x7ff0000000000000

/-- The magnitude of the NaN that is written by name. -/
def quietNaN : Nat := 0x7ff8000000000000

def isNegative (x : Double) : Bool := decide (signBit ≤ x.bits.toNat)

def magnitude (x : Double) : Nat := x.bits.toNat % signBit

def ofMagnitude (negative : Bool) (magnitude : Nat) : Double :=
  ⟨UInt64.ofNat (if negative then signBit + magnitude else magnitude)⟩

def isFinite (x : Double) : Bool := decide (x.magnitude < infinity)

def isNaN (x : Double) : Bool := decide (infinity < x.magnitude)

/-- Holds of both zeros. -/
def isZero (x : Double) : Bool := x.magnitude == 0

def zero : Double := ⟨0⟩

def one : Double := ⟨0x3ff0000000000000⟩

/-- The pair `(m, e)` with `m * 2 ^ e` the absolute value of a finite double of
this magnitude. -/
def significand (magnitude : Nat) : Nat × Int :=
  let exponent : Nat := magnitude / leadingBit
  if exponent = 0 then (magnitude, -1074)
  else (leadingBit + magnitude % leadingBit, (exponent : Int) - 1075)

theorem toNat_bits_ofMagnitude {negative : Bool} {m : Nat} (h : m < signBit) :
    (ofMagnitude negative m).bits.toNat = if negative then signBit + m else m := by
  simp only [signBit] at *
  cases negative <;>
    simp only [ofMagnitude, signBit, UInt64.toNat_ofNat', if_true, if_false, Bool.false_eq_true] <;>
    omega

theorem magnitude_ofMagnitude {negative : Bool} {m : Nat} (h : m < signBit) :
    (ofMagnitude negative m).magnitude = m := by
  rw [magnitude, toNat_bits_ofMagnitude h]
  simp only [signBit] at *
  split <;> omega

theorem isNegative_ofMagnitude {negative : Bool} {m : Nat} (h : m < signBit) :
    (ofMagnitude negative m).isNegative = negative := by
  rw [isNegative, toNat_bits_ofMagnitude h]
  cases negative <;> simp
  exact h

/-- A double is its sign and its magnitude. -/
theorem ofMagnitude_magnitude (x : Double) : ofMagnitude x.isNegative x.magnitude = x := by
  have hx := x.bits.toNat_lt
  cases h : x.isNegative with
  | true =>
    have hs : signBit ≤ x.bits.toNat := of_decide_eq_true h
    refine congrArg Double.mk (UInt64.toNat_inj.1 ?_)
    simp only [if_pos, magnitude, signBit, UInt64.toNat_ofNat'] at *
    omega
  | false =>
    have hs : ¬signBit ≤ x.bits.toNat := of_decide_eq_false h
    refine congrArg Double.mk (UInt64.toNat_inj.1 ?_)
    simp only [Bool.false_eq_true, if_false, magnitude, signBit, UInt64.toNat_ofNat'] at *
    omega

end Double

end OpCatalog
