import OpCatalog.Double.Basic

/-!
# The nearest double

Rounding of a quotient of natural numbers, and of a decimal `m * 10 ^ k`, to the
nearest double, a tie going to the even significand. Everything is exact
arithmetic on natural numbers. Products and quotients of doubles are the exact
ones, rounded once.
-/
namespace OpCatalog

namespace Double

/-- `a / b` rounded to the nearest integer, a tie going to the even one. -/
def roundDiv (a b : Nat) : Nat :=
  let quotient := a / b
  let twice := 2 * (a % b)
  if twice < b then quotient
  else if b < twice then quotient + 1
  else quotient + quotient % 2

/-- `a / (b * 2 ^ e)` rounded as by `roundDiv`. -/
def roundScaled (a b : Nat) : Int → Nat
  | .ofNat e => roundDiv a (b <<< e)
  | .negSucc e => roundDiv (a <<< (e + 1)) b

/-- The exponent `e` with `2 ^ e ≤ a / b < 2 ^ (e + 1)`, for positive `a` and `b`. -/
def floorLog (a b : Nat) : Int :=
  let estimate : Int := (a.log2 : Int) - (b.log2 : Int)
  let below := match estimate with
    | .ofNat e => decide (a < b <<< e)
    | .negSucc e => decide (a <<< (e + 1) < b)
  if below then estimate - 1 else estimate

/-- The magnitude nearest to `a / b`. The significand carries into the exponent
when it rounds up to the next power of two, and past the largest finite double
the result is at least `infinity`. -/
def nearest (a b : Nat) : Nat :=
  if a = 0 then 0
  else
    let exponent := max (floorLog a b - 52) (-1074)
    (exponent + 1074).toNat * leadingBit + roundScaled a b exponent

/-- The magnitude nearest to `m * 10 ^ k`, `none` beyond the finite range. The two
tests on the exponent decide hopeless cases without computing the power: a
positive `m` times `10 ^ 310` is too large, and `10 ^ j` exceeds `2 ^ (3 * j)`. -/
def decimalMagnitude? (m : Nat) (k : Int) : Option Nat :=
  let magnitude? : Option Nat := match k with
    | .ofNat j =>
      if m = 0 then some 0
      else if 310 ≤ j then none
      else some (nearest (m * Nat.pow 10 j) 1)
    | .negSucc j =>
      if m.log2 + 1077 ≤ 3 * (j + 1) then some 0 else some (nearest m (Nat.pow 10 (j + 1)))
  magnitude?.filter (· < infinity)

/-- The double nearest to `± m * 10 ^ k`, `none` where that is an infinity. -/
def ofDecimal? (negative : Bool) (m : Nat) (k : Int) : Option Double :=
  (decimalMagnitude? m k).map (ofMagnitude negative)

/-- The double nearest to an integer; exact below `2 ^ 53`. -/
def ofInt (n : Int) : Double :=
  ofMagnitude (decide (n < 0)) (nearest n.natAbs 1)

/-! ## Arithmetic on magnitudes -/

/-- The exact value of a finite magnitude as a quotient. -/
def quotient (magnitude : Nat) : Nat × Nat :=
  match significand magnitude with
  | (m, .ofNat e) => (m <<< e, 1)
  | (m, .negSucc e) => (m, 1 <<< (e + 1))

/-- The magnitude nearest to a product. -/
def times (x y : Nat) : Nat :=
  nearest ((quotient x).1 * (quotient y).1) ((quotient x).2 * (quotient y).2)

/-- The magnitude nearest to a quotient. -/
def dividedBy (x y : Nat) : Nat :=
  nearest ((quotient x).1 * (quotient y).2) ((quotient x).2 * (quotient y).1)

/-- The magnitude nearest to a power of ten; exact up to `10 ^ 22`. -/
def powerOfTen (j : Nat) : Nat := nearest (Nat.pow 10 j) 1

end Double

end OpCatalog
