import OpCatalog.Double.Nearest

/-!
# Numerals

A numeral is a number as it is written: sign, whole part, digits after the
point, exponent. `1`, `1.0` and `1e0` are three numerals. It is an integer only if
it has neither point nor exponent, and has a nearest double always, unless that is
an infinity.
-/
namespace OpCatalog

abbrev Digit := Fin 10

namespace Digit

def zero : Digit := ⟨0, by decide⟩

def toChar (d : Digit) : Char := Nat.digitChar d.val

def ofChar? (c : Char) : Option Digit :=
  if h : '0' ≤ c ∧ c ≤ '9' then some ⟨c.toNat - 48, by
    have h1 : '0'.toNat ≤ c.toNat := h.1
    have h2 : c.toNat ≤ '9'.toNat := h.2
    have : '9'.toNat = 57 := rfl
    omega⟩
  else none

end Digit

/-- The number that a list of digits spells after the digits of `start`. -/
def spell (start : Nat) (digits : List Digit) : Nat :=
  digits.foldl (fun n d => 10 * n + d.val) start

/-- An empty `fraction` stands for a numeral without a point. -/
structure Numeral where
  negative : Bool
  whole : Nat
  fraction : List Digit
  exponent : Option Int
  deriving DecidableEq, Repr, Inhabited

namespace Numeral

def ofNat (n : Nat) : Numeral := ⟨false, n, [], none⟩

def ofInt (n : Int) : Numeral := ⟨decide (n < 0), n.natAbs, [], none⟩

/-- Neither point nor exponent, and not the negative zero `-0`. -/
def isInteger (n : Numeral) : Bool :=
  n.fraction.isEmpty && n.exponent.isNone && !(n.negative && n.whole == 0)

def toInt? (n : Numeral) : Option Int :=
  if n.isInteger then some (if n.negative then -(n.whole : Int) else n.whole) else none

/-- An integer of at most sixty-four bits, with a sign or without one. -/
def isWord (n : Numeral) : Bool :=
  n.toInt?.any fun i => decide (-0x8000000000000000 ≤ i ∧ i < 0x10000000000000000)

@[simp] theorem toInt?_ofInt (n : Int) : (ofInt n).toInt? = some n := by
  have hi : (ofInt n).isInteger = true := by
    simp only [isInteger, ofInt, List.isEmpty_nil, Option.isNone_none, Bool.true_and,
      Bool.not_eq_true', Bool.and_eq_false_iff, decide_eq_false_iff_not, beq_eq_false_iff_ne]
    omega
  rw [toInt?, if_pos hi]
  simp only [ofInt, decide_eq_true_eq, Option.some.injEq]
  split <;> omega

/-- The digits of the numeral without the point, as one number. -/
def mantissa (n : Numeral) : Nat := spell n.whole n.fraction

/-- The power of ten that the mantissa is multiplied by. -/
def scale (n : Numeral) : Int := n.exponent.getD 0 - n.fraction.length

def toDouble? (n : Numeral) : Option Double :=
  Double.ofDecimal? n.negative n.mantissa n.scale

end Numeral

end OpCatalog
