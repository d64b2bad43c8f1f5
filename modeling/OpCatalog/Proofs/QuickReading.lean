import OpCatalog.Proofs.Shortest

/-!
# Where the quick reading is right

The quick reading rounds the digits, then the power of ten, then their product or quotient. With
few digits and a small power the first two are exact, so that one rounding is left, and it is the
one that leads to the nearest double.
-/
namespace OpCatalog

namespace Double

variable {m j : Nat}

/-! ## Exact operands -/

/-- `5 ^ 22` is the last power of five below `2 ^ 53`. -/
theorem value_powerOfTen (hj : j ≤ 22) : value (powerOfTen j) = 10 ^ j := by
  have hall : ∀ j < 23, (quotient (powerOfTen j)).1 = 10 ^ j * (quotient (powerOfTen j)).2 := by
    decide +kernel
  have hpos : ((quotient (powerOfTen j)).2 : ℚ) ≠ 0 := by
    exact_mod_cast (pos_quotient (powerOfTen j)).ne'
  rw [← quotient_eq_value, div_eq_iff hpos]
  exact_mod_cast hall j (Nat.lt_succ_of_le hj)

/-! ## One rounding -/

theorem times_eq_nearest (hm : m < 0x20000000000000) (hj : j ≤ 22) :
    times (nearest m 1) (powerOfTen j) = nearest (m * 10 ^ j) 1 := by
  rw [times]
  refine nearest_congr (Nat.mul_pos (pos_quotient _) (pos_quotient _)) Nat.one_pos ?_
  push_cast
  rw [mul_div_mul_comm, quotient_eq_value, quotient_eq_value, value_nearest hm,
    value_powerOfTen hj, div_one]

theorem dividedBy_eq_nearest (hm : m < 0x20000000000000) (hj : j ≤ 22) :
    dividedBy (nearest m 1) (powerOfTen j) = nearest m (10 ^ j) := by
  have hten : ((quotient (powerOfTen j)).1 : ℚ) / (quotient (powerOfTen j)).2 ≠ 0 := by
    rw [quotient_eq_value, value_powerOfTen hj]
    positivity
  have hpos : 0 < (quotient (powerOfTen j)).1 := by
    rw [Nat.pos_iff_ne_zero]
    intro hzero
    simp [hzero] at hten
  rw [dividedBy]
  refine nearest_congr (Nat.mul_pos (pos_quotient _) hpos) (Nat.pow_pos (by decide)) ?_
  push_cast
  rw [← div_div_div_eq, quotient_eq_value, quotient_eq_value, value_nearest hm,
    value_powerOfTen hj]

/-- Few digits and a small power of ten are scaled to the magnitude nearest to the decimal. -/
theorem scaleByTen?_eq_decimalMagnitude? (hm : m < 0x20000000000000) {k : Int}
    (hlow : -22 ≤ k) (hhigh : k ≤ 22) :
    scaleByTen? (nearest m 1) k = decimalMagnitude? m k := by
  cases k with
  | ofNat j =>
    have hj : j ≤ 22 := Int.ofNat_le.1 hhigh
    simp only [scaleByTen?, decimalMagnitude?, nearest_eq_zero_iff hm, times_eq_nearest hm hj,
      show ¬308 < j by omega, show ¬310 ≤ j by omega, if_false]
    rfl
  | negSucc j =>
    have hj : j + 1 ≤ 22 := by omega
    have hrounds : j / 308 = 0 := by omega
    have hrest : j % 308 = j := by omega
    have hlog : ¬m.log2 + 1077 ≤ 3 * (j + 1) := by omega
    simp only [scaleByTen?, decimalMagnitude?, hrounds, hrest, lower, dividedBy_eq_nearest hm hj,
      hlog, if_false]
    rfl

end Double

/-! ## Digits -/

theorem le_spell (start : Nat) (ds : List Digit) : start ≤ spell start ds := by
  induction ds generalizing start with
  | nil => exact Nat.le_refl start
  | cons d ds ih => exact Nat.le_trans (by omega) (ih (10 * start + d.val))

namespace Numeral

variable {n : Numeral}

/-- Digits that spell a number of sixty-four bits are all taken. -/
theorem absorb_of_lt {start : Nat} {ds : List Digit} (h : spell start ds < 0x10000000000000000) :
    absorb start ds = (spell start ds, []) := by
  induction ds generalizing start with
  | nil => rfl
  | cons d ds ih =>
    have hfits : 10 * start + d.val < 0x10000000000000000 :=
      Nat.lt_of_le_of_lt (le_spell _ ds) h
    rw [absorb, if_pos hfits]
    exact ih h

theorem truncated_eq (h : n.mantissa < 0x10000000000000000) :
    n.truncated = (n.mantissa, n.scale) := by
  have hwhole : absorb 0 (digitsOf n.whole) = (n.whole, []) := by
    rw [absorb_of_lt, spell_digitsOf]
    rw [spell_digitsOf]
    exact Nat.lt_of_le_of_lt (le_spell n.whole n.fraction) h
  have hfraction : absorb n.whole n.fraction = (n.mantissa, []) := absorb_of_lt h
  simp [truncated, hwhole, hfraction, scale]

/-- With few digits and a small power of ten, the quick way leads to the nearest double. -/
theorem quickDouble?_eq_toDouble? (hmantissa : n.mantissa < 0x20000000000000)
    (hlow : -22 ≤ n.scale) (hhigh : n.scale ≤ 22) : n.quickDouble? = n.toDouble? := by
  rw [quickDouble?, truncated_eq (Nat.lt_trans hmantissa (by decide)), toDouble?,
    Double.ofDecimal?, Double.scaleByTen?_eq_decimalMagnitude? hmantissa hlow hhigh]

end Numeral

/-! ## Doubles -/

namespace Double

variable {x : Double}

/-- The digits of the double spell at most fifty-three bits, and the power of ten that goes with
them is at most the twenty-second, up or down. -/
def isBrief (x : Double) : Bool :=
  decide (x.toNumeral.mantissa < 0x20000000000000 ∧ -22 ≤ x.toNumeral.scale ∧
    x.toNumeral.scale ≤ 22)

/-- The numeral of a brief double is read back by the quick reading too. -/
theorem keeps_quick_of_isBrief (hfinite : x.isFinite = true) (hbrief : x.isBrief = true) :
    Reading.quick.Keeps x := by
  obtain ⟨hmantissa, hlow, hhigh⟩ := of_decide_eq_true hbrief
  exact (Numeral.quickDouble?_eq_toDouble? hmantissa hlow hhigh).trans
    (toDouble?_toNumeral hfinite)

theorem isBrief_ofInt {i : Int} (h : 10 * i.natAbs < 0x20000000000000) :
    (ofInt i).isBrief = true := by
  have hnumeral := toNumeral_ofInt (i := i) (by omega)
  have hmantissa : (ofInt i).toNumeral.mantissa = 10 * i.natAbs := by
    rw [hnumeral]
    rfl
  have hscale : (ofInt i).toNumeral.scale = -1 := by
    rw [hnumeral]
    rfl
  rw [isBrief, hmantissa, hscale]
  exact decide_eq_true ⟨h, by decide, by decide⟩

/-- A tenth is brief; the greatest number of single precision has seventeen digits and is not. -/
example : isBrief ⟨0x3fb999999999999a⟩ = true ∧ isBrief ⟨0x47efffffe0000000⟩ = false := by
  decide +kernel

end Double

end OpCatalog
