import Mathlib.Algebra.Order.Field.Power
import Mathlib.Data.Rat.Cast.Order
import Mathlib.Tactic.FieldSimp
import Mathlib.Tactic.Linarith
import Mathlib.Tactic.Positivity
import Mathlib.Tactic.Ring
import OpCatalog.Double.Nearest

/-!
# Exact values

The magnitude nearest to a value that some finite double has is the magnitude of that double,
whether the value is given as a quotient or as a decimal.
-/
namespace OpCatalog.Double

/-- The absolute value of the finite doubles of a magnitude. -/
def value (magnitude : Nat) : ℚ := (significand magnitude).1 * (2 : ℚ) ^ (significand magnitude).2

variable {M : Nat}

/-! ## The significand of a magnitude -/

/-- The significand has at most fifty-three bits, and fewer only at the least exponent. -/
structure Fits (M m : Nat) (e : Int) : Prop where
  pos : 0 < m
  lt : m < 0x20000000000000
  ge_exponent : -1074 ≤ e
  le_exponent : e ≤ 971
  normal : e = -1074 ∨ leadingBit ≤ m
  magnitude_eq : (e + 1074).toNat * leadingBit + m = M

theorem fits_significand (hpos : 0 < M) (hfinite : M < infinity) :
    Fits M (significand M).1 (significand M).2 := by
  rw [infinity] at hfinite
  rw [significand]
  by_cases h : M / leadingBit = 0
  · simp only [h, if_true]
    rw [leadingBit] at h
    exact ⟨hpos, by omega, by decide, by decide, Or.inl rfl, by simp⟩
  · simp only [h, if_false]
    refine ⟨?_, ?_, ?_, ?_, Or.inr ?_, ?_⟩
    all_goals simp only [leadingBit] at h ⊢
    all_goals omega

theorem two_zpow_pos (e : Int) : (0 : ℚ) < 2 ^ e := zpow_pos (by decide) e

theorem value_pos (hpos : 0 < M) (hfinite : M < infinity) : 0 < value M := by
  have hm : (0 : ℚ) < (significand M).1 := by exact_mod_cast (fits_significand hpos hfinite).pos
  exact mul_pos hm (two_zpow_pos _)

/-! ## Rounding -/

theorem roundDiv_mul {b : Nat} (hb : 0 < b) (m : Nat) : roundDiv (m * b) b = m := by
  rw [roundDiv, Nat.mul_div_cancel m hb, Nat.mul_mod_left]
  simp only [Nat.mul_zero, hb, if_true]

theorem roundDiv_mul_right {c : Nat} (hc : 0 < c) (a b : Nat) :
    roundDiv (a * c) (b * c) = roundDiv a b := by
  have htwice : 2 * (a % b * c) = 2 * (a % b) * c := (Nat.mul_assoc _ _ _).symm
  simp only [roundDiv, Nat.mul_div_mul_right _ _ hc, Nat.mul_mod_mul_right, htwice,
    Nat.mul_lt_mul_right hc]

/-- Rounding does not depend on how a quotient is written. -/
theorem roundDiv_congr {a b c d : Nat} (hb : 0 < b) (hd : 0 < d) (h : a * d = c * b) :
    roundDiv a b = roundDiv c d := by
  rw [← roundDiv_mul_right hd, h, Nat.mul_comm b d, roundDiv_mul_right hb]

/-- A quotient that is a multiple of `2 ^ e` needs no rounding. -/
theorem roundScaled_of_eq {a b m : Nat} (hb : 0 < b) {e : Int}
    (h : (a : ℚ) / b = m * 2 ^ e) : roundScaled a b e = m := by
  have hb' : (b : ℚ) ≠ 0 := by positivity
  rw [div_eq_iff hb'] at h
  cases e with
  | ofNat e =>
    have ha : a = m * (b <<< e) := by
      rw [Nat.shiftLeft_eq]
      have hcast : (a : ℚ) = ((m * (b * 2 ^ e) : Nat) : ℚ) := by
        push_cast
        rw [h, Int.ofNat_eq_natCast, zpow_natCast]
        ring
      exact_mod_cast hcast
    rw [roundScaled, ha]
    exact roundDiv_mul (by rw [Nat.shiftLeft_eq]; positivity) m
  | negSucc e =>
    have ha : a <<< (e + 1) = m * b := by
      rw [Nat.shiftLeft_eq]
      have hcast : ((a * 2 ^ (e + 1) : Nat) : ℚ) = ((m * b : Nat) : ℚ) := by
        push_cast
        rw [h, zpow_negSucc]
        field_simp
      exact_mod_cast hcast
    rw [roundScaled, ha]
    exact roundDiv_mul hb m

theorem roundScaled_congr {a b c d : Nat} (hb : 0 < b) (hd : 0 < d) (h : a * d = c * b)
    (e : Int) : roundScaled a b e = roundScaled c d e := by
  cases e with
  | ofNat e =>
    simp only [roundScaled, Nat.shiftLeft_eq]
    refine roundDiv_congr (by positivity) (by positivity) ?_
    rw [← Nat.mul_assoc, h, Nat.mul_assoc]
  | negSucc e =>
    simp only [roundScaled, Nat.shiftLeft_eq]
    refine roundDiv_congr hb hd ?_
    rw [Nat.mul_right_comm, h, Nat.mul_right_comm]

/-- The test of `floorLog` compares the quotient with a power of two. -/
theorem floorLog_eq {a b : Nat} (hb : 0 < b) :
    floorLog a b =
      if (a : ℚ) / b < 2 ^ ((a.log2 : Int) - b.log2) then (a.log2 : Int) - b.log2 - 1
      else (a.log2 : Int) - b.log2 := by
  have hb' : (0 : ℚ) < b := by positivity
  rw [floorLog]
  generalize (a.log2 : Int) - b.log2 = e
  refine if_congr ?_ rfl rfl
  rw [div_lt_iff₀ hb']
  cases e with
  | ofNat e =>
    rw [decide_eq_true_eq, Nat.shiftLeft_eq, Int.ofNat_eq_natCast, zpow_natCast, mul_comm b]
    exact_mod_cast Iff.rfl
  | negSucc e =>
    rw [decide_eq_true_eq, Nat.shiftLeft_eq, zpow_negSucc, inv_mul_eq_div,
      lt_div_iff₀ (by positivity)]
    exact_mod_cast Iff.rfl

theorem log2_le {n : Nat} (hn : 0 < n) : (2 : ℚ) ^ (n.log2 : Int) ≤ n := by
  rw [zpow_natCast]
  exact_mod_cast Nat.log2_self_le (Nat.pos_iff_ne_zero.1 hn)

theorem lt_log2 (n : Nat) : (n : ℚ) < 2 ^ ((n.log2 : Int) + 1) := by
  have h : ((n.log2 : Int) + 1) = ((n.log2 + 1 : Nat) : Int) := by push_cast; rfl
  rw [h, zpow_natCast]
  exact_mod_cast Nat.lt_log2_self

/-- A positive quotient lies between `2 ^ floorLog` and the next power of two. -/
theorem floorLog_spec {a b : Nat} (ha : 0 < a) (hb : 0 < b) :
    (2 : ℚ) ^ floorLog a b ≤ a / b ∧ (a : ℚ) / b < 2 ^ (floorLog a b + 1) := by
  have hb' : (0 : ℚ) < b := by positivity
  have hlow : (2 : ℚ) ^ ((a.log2 : Int) - b.log2 - 1) ≤ a / b := by
    rw [le_div_iff₀ hb']
    calc (2 : ℚ) ^ ((a.log2 : Int) - b.log2 - 1) * b
        ≤ 2 ^ ((a.log2 : Int) - b.log2 - 1) * 2 ^ ((b.log2 : Int) + 1) :=
          mul_le_mul_of_nonneg_left (lt_log2 b).le (two_zpow_pos _).le
      _ = 2 ^ (a.log2 : Int) := by
          rw [← zpow_add₀ (by decide)]
          congr 1
          ring
      _ ≤ a := log2_le ha
  have hhigh : (a : ℚ) / b < 2 ^ ((a.log2 : Int) - b.log2 + 1) := by
    rw [div_lt_iff₀ hb']
    calc (a : ℚ) < 2 ^ ((a.log2 : Int) + 1) := lt_log2 a
      _ = 2 ^ ((a.log2 : Int) - b.log2 + 1) * 2 ^ (b.log2 : Int) := by
          rw [← zpow_add₀ (by decide)]
          congr 1
          ring
      _ ≤ 2 ^ ((a.log2 : Int) - b.log2 + 1) * b :=
          mul_le_mul_of_nonneg_left (log2_le hb) (two_zpow_pos _).le
  rw [floorLog_eq hb]
  split
  · next h => exact ⟨hlow, by simpa using h⟩
  · next h => exact ⟨not_lt.1 h, hhigh⟩

theorem floorLog_lt {a b : Nat} (ha : 0 < a) (hb : 0 < b) {e : Int} (h : (a : ℚ) / b < 2 ^ e) :
    floorLog a b < e :=
  (zpow_lt_zpow_iff_right₀ (by decide : (1 : ℚ) < 2)).1
    (lt_of_le_of_lt (floorLog_spec ha hb).1 h)

theorem le_floorLog {a b : Nat} (ha : 0 < a) (hb : 0 < b) {e : Int} (h : (2 : ℚ) ^ e ≤ a / b) :
    e ≤ floorLog a b :=
  Int.lt_add_one_iff.1 ((zpow_lt_zpow_iff_right₀ (by decide : (1 : ℚ) < 2)).1
    (lt_of_le_of_lt h (floorLog_spec ha hb).2))

theorem floorLog_congr {a b c d : Nat} (ha : 0 < a) (hb : 0 < b) (hc : 0 < c) (hd : 0 < d)
    (h : (a : ℚ) / b = c / d) : floorLog a b = floorLog c d :=
  le_antisymm (le_floorLog hc hd (h ▸ (floorLog_spec ha hb).1))
    (le_floorLog ha hb (h ▸ (floorLog_spec hc hd).1))

/-- The nearest magnitude does not depend on how a quotient is written. -/
theorem nearest_congr {a b c d : Nat} (hb : 0 < b) (hd : 0 < d) (h : (a : ℚ) / b = c / d) :
    nearest a b = nearest c d := by
  have hb' : (b : ℚ) ≠ 0 := by positivity
  have hd' : (d : ℚ) ≠ 0 := by positivity
  have hcross : a * d = c * b := by exact_mod_cast (div_eq_div_iff hb' hd').1 h
  rcases Nat.eq_zero_or_pos a with rfl | ha
  · have hc : c = 0 := by simpa [hb.ne'] using hcross.symm
    rw [hc, nearest, nearest, if_pos rfl, if_pos rfl]
  · have hc : 0 < c := Nat.pos_of_mul_pos_right (hcross ▸ Nat.mul_pos ha hd)
    rw [nearest, nearest, if_neg ha.ne', if_neg hc.ne']
    simp only [floorLog_congr ha hb hc hd h, roundScaled_congr hb hd hcross]

/-- The exponent chosen for the value of a double is the exponent of its significand. -/
theorem exponent_eq {a b m : Nat} {e : Int} (hfits : Fits M m e) (ha : 0 < a) (hb : 0 < b)
    (h : (a : ℚ) / b = m * 2 ^ e) : max (floorLog a b - 52) (-1074) = e := by
  have hlt : floorLog a b < 53 + e := by
    refine floorLog_lt ha hb ?_
    rw [h, zpow_add₀ (by decide)]
    refine mul_lt_mul_of_pos_right ?_ (two_zpow_pos e)
    have hm : (m : ℚ) < (0x20000000000000 : Nat) := by exact_mod_cast hfits.lt
    refine lt_of_lt_of_eq hm ?_
    norm_num
  rcases hfits.normal with rfl | hnormal
  · omega
  · have hle : 52 + e ≤ floorLog a b := by
      refine le_floorLog ha hb ?_
      rw [h, zpow_add₀ (by decide)]
      refine mul_le_mul_of_nonneg_right ?_ (two_zpow_pos e).le
      have hm : ((0x10000000000000 : Nat) : ℚ) ≤ m := by exact_mod_cast hnormal
      refine le_of_eq_of_le ?_ hm
      norm_num
    have hge := hfits.ge_exponent
    omega

/-- Nothing is lost on a quotient that is the value of a finite double. -/
theorem nearest_of_value {a b : Nat} (hpos : 0 < M) (hfinite : M < infinity) (hb : 0 < b)
    (h : (a : ℚ) / b = value M) : nearest a b = M := by
  have hfits := fits_significand hpos hfinite
  have hb' : (0 : ℚ) < b := by positivity
  have ha : 0 < a := by
    rw [Nat.pos_iff_ne_zero]
    rintro rfl
    have hvalue := value_pos hpos hfinite
    simp [← h] at hvalue
  rw [value] at h
  rw [nearest, if_neg (Nat.pos_iff_ne_zero.1 ha)]
  simp only [exponent_eq hfits ha hb h, roundScaled_of_eq hb h, hfits.magnitude_eq]

/-! ## Quotients -/

theorem pos_quotient (M : Nat) : 0 < (quotient M).2 := by
  rw [quotient]
  rcases significand M with ⟨m, e | e⟩
  · exact Nat.one_pos
  · simp only [Nat.shiftLeft_eq]
    positivity

theorem quotient_eq_value (M : Nat) : ((quotient M).1 : ℚ) / (quotient M).2 = value M := by
  rw [quotient, value]
  rcases significand M with ⟨m, e | e⟩
  · simp [Nat.shiftLeft_eq]
  · simp only [Nat.shiftLeft_eq, zpow_negSucc]
    push_cast
    rw [one_mul, div_eq_mul_inv]

/-! ## Decimals -/

theorem value_lt (hpos : 0 < M) (hfinite : M < infinity) : value M < 2 ^ (1024 : Int) := by
  have hfits := fits_significand hpos hfinite
  have hm : ((significand M).1 : ℚ) < (0x20000000000000 : Nat) := by exact_mod_cast hfits.lt
  calc value M < (0x20000000000000 : Nat) * 2 ^ (significand M).2 :=
        mul_lt_mul_of_pos_right hm (two_zpow_pos _)
    _ ≤ (0x20000000000000 : Nat) * 2 ^ (971 : Int) :=
        mul_le_mul_of_nonneg_left
          (zpow_le_zpow_right₀ (by decide) hfits.le_exponent) (by positivity)
    _ = 2 ^ (53 : Int) * 2 ^ (971 : Int) := by norm_num
    _ = 2 ^ (1024 : Int) := by rw [← zpow_add₀ (by decide)]; rfl

theorem le_value (hpos : 0 < M) (hfinite : M < infinity) : (2 : ℚ) ^ (-1074 : Int) ≤ value M := by
  have hfits := fits_significand hpos hfinite
  have hm : (1 : ℚ) ≤ (significand M).1 := by exact_mod_cast hfits.pos
  calc (2 : ℚ) ^ (-1074 : Int) ≤ 2 ^ (significand M).2 :=
        zpow_le_zpow_right₀ (by decide) hfits.ge_exponent
    _ = 1 * 2 ^ (significand M).2 := (one_mul _).symm
    _ ≤ value M := mul_le_mul_of_nonneg_right hm (two_zpow_pos _).le

/-- A decimal above `10 ^ 310` is above every finite double. -/
theorem lt_of_mul_ten_pow {m j : Nat} (hm : 0 < m) (h : (m : ℚ) * 10 ^ j < 2 ^ (1024 : Int)) :
    j < 310 := by
  by_contra hj
  have hone : (1 : ℚ) ≤ m := by exact_mod_cast hm
  have hbig : (2 : ℚ) ^ (1024 : Int) < 10 ^ 310 := by
    have hnat : 2 ^ 1024 < 10 ^ 310 := by decide +kernel
    exact_mod_cast hnat
  have hpow : (10 : ℚ) ^ 310 ≤ 10 ^ j := pow_le_pow_right₀ (by decide) (not_lt.1 hj)
  have hle : (10 : ℚ) ^ j ≤ m * 10 ^ j := le_mul_of_one_le_left (by positivity) hone
  exact absurd (hbig.trans_le (hpow.trans (hle.trans h.le))) (lt_irrefl _)

/-- A decimal that the early test takes for zero is below every positive double. -/
theorem div_ten_pow_lt {m j : Nat} (h : m.log2 + 1077 ≤ 3 * (j + 1)) :
    (m : ℚ) / 10 ^ (j + 1) < 2 ^ (-1074 : Int) := by
  have hpow : (2 : ℚ) ^ ((m.log2 : Int) + 1077) ≤ 10 ^ (j + 1) := by
    calc (2 : ℚ) ^ ((m.log2 : Int) + 1077) ≤ 2 ^ ((3 * (j + 1) : Nat) : Int) :=
          zpow_le_zpow_right₀ (by decide) (by omega)
      _ = 8 ^ (j + 1) := by rw [zpow_natCast, pow_mul]; norm_num
      _ ≤ 10 ^ (j + 1) := pow_le_pow_left₀ (by decide) (by decide) _
  rw [div_lt_iff₀ (by positivity)]
  calc (m : ℚ) < 2 ^ ((m.log2 : Int) + 1) := lt_log2 m
    _ ≤ 2 ^ (-1074 : Int) * 2 ^ ((m.log2 : Int) + 1077) := by
        rw [← zpow_add₀ (by decide)]
        exact zpow_le_zpow_right₀ (by decide) (by omega)
    _ ≤ 2 ^ (-1074 : Int) * 10 ^ (j + 1) :=
        mul_le_mul_of_nonneg_left hpow (two_zpow_pos _).le

/-- A decimal that is the value of a finite double is read as that double. -/
theorem decimalMagnitude?_of_value {m : Nat} {k : Int} (hpos : 0 < M) (hfinite : M < infinity)
    (h : (m : ℚ) * 10 ^ k = value M) : decimalMagnitude? m k = some M := by
  have hm : 0 < m := by
    rw [Nat.pos_iff_ne_zero]
    rintro rfl
    have := value_pos hpos hfinite
    simp [← h] at this
  cases k with
  | ofNat j =>
    rw [Int.ofNat_eq_natCast, zpow_natCast] at h
    have hj : j < 310 := lt_of_mul_ten_pow hm (h ▸ value_lt hpos hfinite)
    have hnearest : nearest (m * Nat.pow 10 j) 1 = M := by
      refine nearest_of_value hpos hfinite (by decide) ?_
      rw [← h]
      simp
    rw [decimalMagnitude?]
    simp only [Nat.pos_iff_ne_zero.1 hm, not_le.2 hj, if_false, hnearest]
    simp [hfinite]
  | negSucc j =>
    rw [zpow_negSucc, ← div_eq_mul_inv] at h
    have hlog : ¬m.log2 + 1077 ≤ 3 * (j + 1) := fun hlog =>
      absurd (div_ten_pow_lt hlog) (not_lt.2 (h ▸ le_value hpos hfinite))
    have hnearest : nearest m (Nat.pow 10 (j + 1)) = M := by
      refine nearest_of_value hpos hfinite (Nat.pow_pos (by decide)) ?_
      rw [← h]
      simp
    rw [decimalMagnitude?]
    simp only [hlog, if_false, hnearest]
    simp [hfinite]

/-! ## Integers -/

/-- A positive number of at most fifty-three bits is the value of a double. -/
theorem exists_value_eq {n : Nat} (hpos : 0 < n) (hlt : n < 0x20000000000000) :
    ∃ M, 0 < M ∧ M < infinity ∧ value M = n := by
  have hlow := Nat.log2_self_le (Nat.pos_iff_ne_zero.1 hpos)
  have hhigh := Nat.lt_log2_self (n := n)
  have hlog : n.log2 < 53 := (Nat.log2_lt (Nat.pos_iff_ne_zero.1 hpos)).2 hlt
  generalize n.log2 = k at *
  obtain ⟨j, hj⟩ : ∃ j, k + j = 52 := ⟨52 - k, by omega⟩
  -- The significand is `n` shifted until its leading bit is bit fifty-two.
  have hge : leadingBit ≤ n * 2 ^ j := by
    calc leadingBit = 2 ^ k * 2 ^ j := by rw [← pow_add, hj]; rfl
      _ ≤ n * 2 ^ j := Nat.mul_le_mul_right _ hlow
  have hm : n * 2 ^ j < 2 * leadingBit := by
    calc n * 2 ^ j < 2 ^ (k + 1) * 2 ^ j := Nat.mul_lt_mul_of_pos_right hhigh (by positivity)
      _ = 2 * leadingBit := by rw [← pow_add, show k + 1 + j = 53 by omega]; rfl
  have hsignificand :
      significand ((k + 1022) * leadingBit + n * 2 ^ j) = (n * 2 ^ j, (k : Int) - 52) := by
    generalize n * 2 ^ j = m at hge hm
    have hdiv : ((k + 1022) * leadingBit + m) / leadingBit = k + 1023 := by
      simp only [leadingBit] at *
      omega
    have hmod : leadingBit + ((k + 1022) * leadingBit + m) % leadingBit = m := by
      simp only [leadingBit] at *
      omega
    have hexp : ((k + 1023 : Nat) : Int) - 1075 = (k : Int) - 52 := by omega
    rw [significand, hdiv, hmod, if_neg (by omega), hexp]
  refine ⟨(k + 1022) * leadingBit + n * 2 ^ j, by omega, ?_, ?_⟩
  · simp only [leadingBit, infinity] at *
    omega
  · rw [value, hsignificand]
    have hexp : (k : Int) - 52 = -(j : Int) := by omega
    push_cast
    rw [hexp, zpow_neg, zpow_natCast]
    field_simp

/-- A number of at most fifty-three bits is not rounded. -/
theorem value_nearest {m : Nat} (hm : m < 0x20000000000000) : value (nearest m 1) = m := by
  rcases Nat.eq_zero_or_pos m with rfl | hpos
  · rw [nearest, if_pos rfl, value]
    simp [significand]
  · obtain ⟨M, hM, hfinite, hvalue⟩ := exists_value_eq hpos hm
    rw [nearest_of_value hM hfinite Nat.one_pos (by rw [hvalue]; simp), hvalue]

theorem nearest_lt_infinity {m : Nat} (hm : m < 0x20000000000000) : nearest m 1 < infinity := by
  rcases Nat.eq_zero_or_pos m with rfl | hpos
  · rw [nearest, if_pos rfl]
    decide
  · obtain ⟨M, hM, hfinite, hvalue⟩ := exists_value_eq hpos hm
    rw [nearest_of_value hM hfinite Nat.one_pos (by rw [hvalue]; simp)]
    exact hfinite

theorem nearest_eq_zero_iff {m : Nat} (hm : m < 0x20000000000000) : nearest m 1 = 0 ↔ m = 0 := by
  constructor
  · intro h
    have hvalue := value_nearest hm
    rw [h, value] at hvalue
    have hzero : (m : ℚ) = 0 := by
      rw [← hvalue]
      simp [significand]
    exact_mod_cast hzero
  · rintro rfl
    rw [nearest, if_pos rfl]

theorem isFinite_ofInt {n : Int} (h : n.natAbs < 0x20000000000000) : (ofInt n).isFinite = true := by
  have hfinite := nearest_lt_infinity h
  rw [isFinite, ofInt, magnitude_ofMagnitude (hfinite.trans (by decide))]
  exact decide_eq_true hfinite

end OpCatalog.Double
