import OpCatalog.Decimal.Shortest

/-!
# Readings

How a library turns numerals into doubles. `Reading.nearest` takes the nearest
double always. `Reading.quick` takes it most of the time: it multiplies or divides
by a power of ten in floating-point arithmetic, on as many digits as fit into
sixty-four bits, so that a numeral of many digits may be read as a neighbour of the
nearest double.
-/
namespace OpCatalog

/-- A way to read numerals as doubles. A numeral that is too large is refused, and
so whatever is read is finite. -/
structure Reading where
  double? : Numeral → Option Double
  isFinite : ∀ {n : Numeral} {x : Double}, double? n = some x → x.isFinite = true

namespace Double

theorem isFinite_ofMagnitude {negative : Bool} {m : Nat} (h : m < infinity) :
    (ofMagnitude negative m).isFinite = true := by
  rw [isFinite, magnitude_ofMagnitude (Nat.lt_trans h (by decide))]
  exact decide_eq_true h

/-- A magnitude divided by `10 ^ 308` in each of some rounds. Zero stays zero. -/
def lower : Nat → Nat → Nat
  | 0, x => x
  | rounds + 1, x => if x = 0 then 0 else lower rounds (dividedBy x (powerOfTen 308))

/-- A magnitude multiplied by `10 ^ k`, `none` beyond the finite range. The powers
of ten at hand end with `10 ^ 308`: nothing but zero can be multiplied by more, and
a division by more is made in steps. -/
def scaleByTen? (x : Nat) (k : Int) : Option Nat :=
  let scaled? : Option Nat := match k with
    | .ofNat j =>
      if x = 0 then some 0
      else if 308 < j then none
      else some (times x (powerOfTen j))
    | .negSucc j => some (dividedBy (lower (j / 308) x) (powerOfTen (j % 308 + 1)))
  scaled?.filter (· < infinity)

end Double

namespace Numeral

/-- Takes digits into a significand as long as it fits into sixty-four bits, and
gives those that are left. -/
def absorb (significand : Nat) : List Digit → Nat × List Digit
  | [] => (significand, [])
  | d :: ds =>
    if 10 * significand + d.val < 0x10000000000000000 then
      absorb (10 * significand + d.val) ds
    else (significand, d :: ds)

/-- The significand of a numeral and the power of ten that it is multiplied by. Each
digit of the whole part that did not fit counts for the power; those of the fraction
are dropped. -/
def truncated (n : Numeral) : Nat × Int :=
  let (m, ignored) := absorb 0 (digitsOf n.whole)
  let (m, dropped) := absorb m n.fraction
  (m, n.exponent.getD 0 + ignored.length - (n.fraction.length - dropped.length : Nat))

/-- The double that the quick way leads to. -/
def quickDouble? (n : Numeral) : Option Double :=
  (Double.scaleByTen? (Double.nearest n.truncated.1 1) n.truncated.2).map
    (Double.ofMagnitude n.negative)

theorem isFinite_of_toDouble? {n : Numeral} {x : Double} (h : n.toDouble? = some x) :
    x.isFinite = true := by
  rw [toDouble?, Double.ofDecimal?] at h
  obtain ⟨magnitude, hmagnitude, rfl⟩ := Option.map_eq_some_iff.1 h
  unfold Double.decimalMagnitude? at hmagnitude
  exact Double.isFinite_ofMagnitude (by simpa using (Option.filter_eq_some_iff.1 hmagnitude).2)

theorem isFinite_of_quickDouble? {n : Numeral} {x : Double} (h : n.quickDouble? = some x) :
    x.isFinite = true := by
  rw [quickDouble?] at h
  obtain ⟨magnitude, hmagnitude, rfl⟩ := Option.map_eq_some_iff.1 h
  unfold Double.scaleByTen? at hmagnitude
  exact Double.isFinite_ofMagnitude (by simpa using (Option.filter_eq_some_iff.1 hmagnitude).2)

end Numeral

namespace Reading

def nearest : Reading := ⟨Numeral.toDouble?, Numeral.isFinite_of_toDouble?⟩

def quick : Reading := ⟨Numeral.quickDouble?, Numeral.isFinite_of_quickDouble?⟩

/-- The numeral that is written for the double is read as that double. -/
def Keeps (r : Reading) (x : Double) : Prop := r.double? x.toNumeral = some x

instance (r : Reading) (x : Double) : Decidable (r.Keeps x) :=
  inferInstanceAs (Decidable (_ = _))

/-- Every finite double is read back from its numeral. -/
def ReadsBack (r : Reading) : Prop := ∀ x : Double, x.isFinite → r.Keeps x

theorem isFinite_of_keeps {r : Reading} {x : Double} (h : r.Keeps x) : x.isFinite = true :=
  r.isFinite h

end Reading

end OpCatalog
