import OpCatalog.Decimal.Numeral

/-!
# Shortest numerals

The numeral written for a finite double has the fewest digits that read back as
that double, and of two such numerals the nearer one. A candidate counts only if
`Numeral.toDouble?` returns the double, so reading back needs no argument about
the search; where the search finds nothing, all digits of the exact value are
written.
-/
namespace OpCatalog

namespace Numeral

/-- Decimal exponents from `-5` to `15` are written with a point and no exponent. -/
def positional (exponent : Int) : Bool := decide (-5 ≤ exponent ∧ exponent ≤ 15)

def digitsOf (n : Nat) : List Digit := (Nat.toDigits 10 n).filterMap Digit.ofChar?

/-- `± m * 10 ^ k` as written for a double: always with a point or an exponent,
one digit before the point if there is an exponent. -/
def ofDecimal (negative : Bool) (m : Nat) (k : Int) : Numeral :=
  let digits := digitsOf m
  let exponent : Int := k + digits.length - 1
  if positional exponent then
    if exponent < 0 then
      ⟨negative, 0, List.replicate (-exponent - 1).toNat Digit.zero ++ digits, none⟩
    else
      let whole := exponent.toNat + 1
      let padded := digits ++ List.replicate (whole - digits.length) Digit.zero
      let fraction := if padded.length ≤ whole then [Digit.zero] else padded.drop whole
      ⟨negative, spell 0 (padded.take whole), fraction, none⟩
  else ⟨negative, spell 0 (digits.take 1), digits.drop 1, some exponent⟩

end Numeral

namespace Double

/-- Removes trailing zeros from `m`, raising `k` for each; at most `fuel` of them. -/
def stripZeros : Nat → Nat → Int → Nat × Int
  | 0, m, k => (m, k)
  | fuel + 1, m, k => if m ≠ 0 ∧ m % 10 = 0 then stripZeros fuel (m / 10) (k + 1) else (m, k)

/-- The exact value of a finite magnitude as `m * 10 ^ k`. -/
def exactDecimal (magnitude : Nat) : Nat × Int :=
  match significand magnitude with
  | (m, .ofNat e) => (m <<< e, 0)
  | (m, .negSucc e) => stripZeros (e + 1) (m * Nat.pow 5 (e + 1)) (-(e + 1 : Nat))

/-- The exponent `p` with `10 ^ p ≤ a / b < 10 ^ (p + 1)`, for positive `a` and `b`. -/
def floorLogTen (a b : Nat) : Int :=
  if b ≤ a then (Nat.toDigits 10 (a / b)).length - 1
  else -((Nat.toDigits 10 ((b - 1) / a)).length : Int)

/-- The neighbours of `a / b` among the multiples of `10 ^ k`, the nearer one
first and, at equal distance, the even one. -/
def neighbours (a b : Nat) (k : Int) : List Nat :=
  let (a, b) := match k with
    | .ofNat e => (a, b * Nat.pow 10 e)
    | .negSucc e => (a * Nat.pow 10 (e + 1), b)
  let low := a / b
  if roundDiv a b = low then [low, low + 1] else [low + 1, low]

/-- The numerals tried for a finite double, in the order of preference. -/
def candidates (x : Double) : List Numeral :=
  let (a, b) := quotient x.magnitude
  let top := floorLogTen a b
  (List.range 17).flatMap fun (n : Nat) =>
    let k := top - n
    (neighbours a b k).map fun m =>
      let (m, k) := stripZeros 20 m k
      Numeral.ofDecimal x.isNegative m k

/-- The numeral written for a finite double. -/
def toNumeral (x : Double) : Numeral :=
  if x.isZero then ⟨x.isNegative, 0, [Digit.zero], none⟩
  else match x.candidates.find? (·.toDouble? == some x) with
    | some n => n
    | none =>
      let (m, k) := exactDecimal x.magnitude
      Numeral.ofDecimal x.isNegative m k

end Double

end OpCatalog
