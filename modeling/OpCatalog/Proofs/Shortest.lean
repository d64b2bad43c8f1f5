import OpCatalog.Decimal.Reading
import OpCatalog.Proofs.Numeral
import OpCatalog.Proofs.Rounding

/-!
# Doubles read back

The double nearest to the numeral that is written for a finite double is that double. A numeral that
the search finds has been tried; what needs an argument is the exact numeral that stands in where
the search finds none. Integers are written as they are, since the search gets to the whole
numbers first.
-/
namespace OpCatalog

theorem spell_replicate_zero (start n : Nat) :
    spell start (List.replicate n Digit.zero) = start * 10 ^ n := by
  induction n generalizing start with
  | zero => simp [spell]
  | succ n ih =>
    rw [List.replicate_succ, spell, List.foldl_cons, ← spell, ih, pow_succ]
    simp only [Digit.zero]
    ring

namespace Numeral

theorem mantissa_eq (negative : Bool) (exponent : Option Int) (ds es : List Digit) :
    mantissa ⟨negative, spell 0 ds, es, exponent⟩ = spell 0 (ds ++ es) :=
  (spell_append 0 ds es).symm

/-- A decimal is written with its own digits and some zeros, and the point moves with the zeros. -/
theorem ofDecimal_eq (negative : Bool) (m : Nat) (k : Int) :
    ∃ zeros : Nat, (ofDecimal negative m k).mantissa = m * 10 ^ zeros ∧
      (ofDecimal negative m k).scale = k - zeros ∧
      (ofDecimal negative m k).negative = negative := by
  have hpos := length_digitsOf_pos m
  have hm := spell_digitsOf m
  rw [ofDecimal]
  generalize digitsOf m = digits at hpos hm
  simp only
  split
  · split
    · refine ⟨0, ?_, ?_, rfl⟩
      · rw [mantissa, spell_append, spell_replicate_zero, Nat.zero_mul, hm]
        simp
      · simp only [scale, Option.getD_none, List.length_append, List.length_replicate]
        omega
    · next hexp =>
      by_cases hlong : digits.length ≤ (k + digits.length - 1).toNat + 1
      · refine ⟨((k + digits.length - 1).toNat + 1 - digits.length) + 1, ?_, ?_, rfl⟩
        · rw [if_pos (by simp; omega), mantissa_eq, List.take_of_length_le (by simp; omega),
            spell_append, spell_append, hm, spell_replicate_zero,
            ← List.replicate_one, spell_replicate_zero]
          ring
        · rw [if_pos (by simp; omega)]
          simp only [scale, Option.getD_none, List.length_singleton]
          omega
      · refine ⟨0, ?_, ?_, rfl⟩
        · rw [if_neg (by simp; omega), mantissa_eq, List.take_append_drop, spell_append, hm,
            Nat.sub_eq_zero_of_le (by omega)]
          simp [spell]
        · rw [if_neg (by simp; omega)]
          simp only [scale, Option.getD_none, List.length_drop, List.length_append,
            List.length_replicate]
          omega
  · refine ⟨0, ?_, ?_, rfl⟩
    · rw [mantissa_eq, List.take_append_drop, hm]
      simp
    · simp only [scale, Option.getD_some, List.length_drop]
      omega

theorem pow_length_digitsOf_le {n : Nat} (hn : 0 < n) : 10 ^ ((digitsOf n).length - 1) ≤ n := by
  induction n using Nat.strongRecOn with
  | _ n ih =>
    rw [digitsOf_eq]
    split
    · exact hn
    · next h =>
      have hpos := length_digitsOf_pos (n / 10)
      calc 10 ^ ((digitsOf (n / 10) ++ [Digit.last n]).length - 1)
          = 10 ^ ((digitsOf (n / 10)).length - 1) * 10 := by
            rw [← Nat.pow_succ, List.length_append, List.length_singleton]
            congr 1
            omega
        _ ≤ n / 10 * 10 := Nat.mul_le_mul_right 10 (ih (n / 10) (by omega) (by omega))
        _ ≤ n := Nat.div_mul_le_self n 10

/-- A number below `10 ^ 16` is written as it is, with a point and a zero. -/
theorem ofDecimal_eq_of_lt (negative : Bool) {m j : Nat} (hm : 0 < m) (h : m * 10 ^ j < 10 ^ 16) :
    ofDecimal negative m j = ⟨negative, m * 10 ^ j, [Digit.zero], none⟩ := by
  have hpos := length_digitsOf_pos m
  have hexponent : j + (digitsOf m).length - 1 < 16 := by
    refine (Nat.pow_lt_pow_iff_right (a := 10) (by decide)).1 ?_
    calc 10 ^ (j + (digitsOf m).length - 1) = 10 ^ ((digitsOf m).length - 1) * 10 ^ j := by
          rw [← pow_add]
          congr 1
          omega
      _ ≤ m * 10 ^ j := Nat.mul_le_mul_right _ (pow_length_digitsOf_le hm)
      _ < 10 ^ 16 := h
  have hm' := spell_digitsOf m
  rw [ofDecimal]
  generalize digitsOf m = digits at hpos hexponent hm'
  have hpositional : positional ((j : Int) + digits.length - 1) = true :=
    decide_eq_true (by omega)
  have hwhole : ((j : Int) + digits.length - 1).toNat + 1 = j + digits.length := by omega
  have hzeros : j + digits.length - digits.length = j := by omega
  have hlength : (digits ++ List.replicate j Digit.zero).length = j + digits.length := by
    rw [List.length_append, List.length_replicate, Nat.add_comm]
  simp only [hpositional, if_true, show ¬(j : Int) + digits.length - 1 < 0 by omega, if_false,
    hwhole, hzeros, hlength, Nat.le_refl, List.take_of_length_le (Nat.le_of_eq hlength),
    spell_append, hm', spell_replicate_zero]

/-- What is written for a decimal has its value. -/
theorem value_ofDecimal (negative : Bool) (m : Nat) (k : Int) :
    ((ofDecimal negative m k).mantissa : ℚ) * 10 ^ (ofDecimal negative m k).scale = m * 10 ^ k := by
  obtain ⟨zeros, hmantissa, hscale, -⟩ := ofDecimal_eq negative m k
  rw [hmantissa, hscale, zpow_sub₀ (by decide), zpow_natCast]
  push_cast
  field_simp

end Numeral

namespace Double

/-- What is stripped are zeros, and the power of ten makes up for them. -/
theorem exists_stripZeros (fuel m : Nat) (k : Int) :
    ∃ zeros : Nat, m = (stripZeros fuel m k).1 * 10 ^ zeros ∧
      (stripZeros fuel m k).2 = k + zeros := by
  induction fuel generalizing m k with
  | zero => exact ⟨0, by simp [stripZeros], by simp [stripZeros]⟩
  | succ fuel ih =>
    rw [stripZeros]
    split
    · next h =>
      obtain ⟨zeros, hm, hk⟩ := ih (m / 10) (k + 1)
      refine ⟨zeros + 1, ?_, ?_⟩
      · rw [pow_succ, ← Nat.mul_assoc, ← hm]
        omega
      · rw [hk]
        push_cast
        ring
    · exact ⟨0, by simp, by simp⟩

theorem value_stripZeros (fuel m : Nat) (k : Int) :
    ((stripZeros fuel m k).1 : ℚ) * 10 ^ (stripZeros fuel m k).2 = m * 10 ^ k := by
  obtain ⟨zeros, hm, hk⟩ := exists_stripZeros fuel m k
  rw [hk, zpow_add₀ (by decide), zpow_natCast]
  conv_rhs => rw [hm]
  push_cast
  ring

theorem value_exactDecimal (M : Nat) :
    ((exactDecimal M).1 : ℚ) * 10 ^ (exactDecimal M).2 = value M := by
  rw [exactDecimal, value]
  rcases significand M with ⟨m, e | e⟩
  · simp [Nat.shiftLeft_eq]
  · simp only [value_stripZeros]
    rw [zpow_negSucc, zpow_neg, zpow_natCast]
    have hten : (10 : ℚ) ^ (e + 1) = 2 ^ (e + 1) * 5 ^ (e + 1) := by
      rw [← mul_pow]
      norm_num
    have hfive : ((Nat.pow 5 (e + 1) : Nat) : ℚ) = 5 ^ (e + 1) := by simp
    rw [hten, Nat.cast_mul, hfive]
    field_simp

variable {x : Double}

theorem toDouble?_of_zero (h : x.isZero = true) :
    Numeral.toDouble? ⟨x.isNegative, 0, [Digit.zero], none⟩ = some x := by
  have hmagnitude : x.magnitude = 0 := eq_of_beq h
  have hread : Numeral.toDouble? ⟨x.isNegative, 0, [Digit.zero], none⟩ =
      some (ofMagnitude x.isNegative 0) := by
    cases x.isNegative <;> decide +kernel
  rw [hread, ← hmagnitude, ofMagnitude_magnitude]

theorem toDouble?_of_value {n : Numeral} (hfinite : x.isFinite = true) (hzero : x.isZero = false)
    (hsign : n.negative = x.isNegative) (h : (n.mantissa : ℚ) * 10 ^ n.scale = value x.magnitude) :
    n.toDouble? = some x := by
  have hpos : 0 < x.magnitude := Nat.pos_of_ne_zero (by simpa [isZero] using hzero)
  rw [Numeral.toDouble?, ofDecimal?,
    decimalMagnitude?_of_value hpos (of_decide_eq_true hfinite) h, Option.map_some, hsign,
    ofMagnitude_magnitude]

/-- A finite double is read back from its numeral. -/
theorem toDouble?_toNumeral (hfinite : x.isFinite = true) : x.toNumeral.toDouble? = some x := by
  rw [toNumeral]
  split
  · next hzero => exact toDouble?_of_zero hzero
  · next hzero =>
    split
    · next n hn =>
      have hfound := List.find?_some hn
      exact eq_of_beq hfound
    · obtain ⟨-, -, -, hsign⟩ := Numeral.ofDecimal_eq x.isNegative
        (exactDecimal x.magnitude).1 (exactDecimal x.magnitude).2
      refine toDouble?_of_value hfinite (by simpa using hzero) hsign ?_
      rw [Numeral.value_ofDecimal, value_exactDecimal]

/-! ## Integers -/

variable {n : Nat}

theorem nearest_pos (hpos : 0 < n) (hn : n < 0x20000000000000) : 0 < nearest n 1 :=
  Nat.pos_of_ne_zero (mt (nearest_eq_zero_iff hn).1 hpos.ne')

theorem toDouble?_of_lt (negative : Bool) (hpos : 0 < n) (hn : n < 0x20000000000000) :
    Numeral.toDouble? ⟨negative, n, [Digit.zero], none⟩ =
      some (ofMagnitude negative (nearest n 1)) := by
  have hdecimal : ((10 * n + 0 : Nat) : ℚ) * 10 ^ (-1 : Int) = value (nearest n 1) := by
    rw [value_nearest hn]
    push_cast
    norm_num
    ring
  have hread := decimalMagnitude?_of_value (nearest_pos hpos hn) (nearest_lt_infinity hn) hdecimal
  rw [Numeral.toDouble?, ofDecimal?]
  exact congrArg (Option.map (ofMagnitude negative)) hread

/-- The neighbours of a number among the multiples of a power of ten that it is not below. -/
theorem mul_mem_neighbours {b m e : Nat} (hb : 0 < b) (he : 10 ^ e ≤ n)
    (hm : m ∈ neighbours (n * b) b e) : 0 < m ∧ m * 10 ^ e ≤ 2 * n := by
  have hlow : n * b / (b * Nat.pow 10 e) = n / 10 ^ e := by
    rw [Nat.mul_comm n b]
    exact Nat.mul_div_mul_left n _ hb
  have hmem : m = n / 10 ^ e ∨ m = n / 10 ^ e + 1 := by
    simp only [neighbours, hlow] at hm
    split at hm <;> simp at hm <;> omega
  have hle : n / 10 ^ e * 10 ^ e ≤ n := Nat.div_mul_le_self _ _
  have hpos : 0 < n / 10 ^ e := Nat.div_pos he (by positivity)
  rcases hmem with rfl | rfl
  · exact ⟨hpos, by omega⟩
  · refine ⟨Nat.succ_pos _, ?_⟩
    rw [Nat.add_mul, Nat.one_mul]
    omega

theorem mem_neighbours_self {b : Nat} (hb : 0 < b) : n ∈ neighbours (n * b) b (0 : Nat) := by
  have hlow : n * b / (b * Nat.pow 10 0) = n := by
    rw [show b * Nat.pow 10 0 = b from Nat.mul_one b]
    exact Nat.mul_div_cancel n hb
  simp only [neighbours, hlow]
  split <;> simp

/-- The numerals that are tried for an integer before any with digits behind the point. -/
theorem ofDecimal_stripZeros (negative : Bool) {m e : Nat} (hm : 0 < m) (h : m * 10 ^ e < 10 ^ 16) :
    Numeral.ofDecimal negative (stripZeros 20 m e).1 (stripZeros 20 m e).2 =
      ⟨negative, m * 10 ^ e, [Digit.zero], none⟩ := by
  obtain ⟨zeros, hstripped, hscale⟩ := exists_stripZeros 20 m e
  have hvalue : (stripZeros 20 m e).1 * 10 ^ (e + zeros) = m * 10 ^ e := by
    conv_rhs => rw [hstripped]
    ring
  have hpos : 0 < (stripZeros 20 m e).1 := by
    rw [Nat.pos_iff_ne_zero]
    intro hzero
    rw [hzero, Nat.zero_mul] at hstripped
    omega
  have hexponent : (stripZeros 20 m e).2 = ((e + zeros : Nat) : Int) := by
    rw [hscale]
    push_cast
    rfl
  rw [hexponent, Numeral.ofDecimal_eq_of_lt negative hpos (hvalue ▸ h), hvalue]

/-- The numerals that are tried for a quotient with a power of ten. -/
def attempts (negative : Bool) (a b : Nat) (k : Int) : List Numeral :=
  (neighbours a b k).map fun m =>
    Numeral.ofDecimal negative (stripZeros 20 m k).1 (stripZeros 20 m k).2

theorem candidates_eq (x : Double) {a b : Nat} (h : quotient x.magnitude = (a, b)) :
    x.candidates = (List.range 17).flatMap fun i : Nat =>
      attempts x.isNegative a b (floorLogTen a b - i) := by
  rw [candidates, h]
  rfl

/-- The power of ten that the search for the numeral of a number begins with. -/
theorem floorLogTen_mul {b : Nat} (hb : 0 < b) (hn : 0 < n) :
    floorLogTen (n * b) b = ((Numeral.digitsOf n).length - 1 : Nat) := by
  have hlength := Numeral.length_digitsOf_pos n
  rw [floorLogTen, if_pos (Nat.le_mul_of_pos_left b hn), Nat.mul_div_cancel n hb,
    Numeral.toDigits_eq_map, List.length_map]
  omega

theorem natural_of_mem_attempts {negative : Bool} {b e : Nat} {N : Numeral} (hb : 0 < b)
    (hn : n < 10 ^ 15) (he : 10 ^ e ≤ n) (h : N ∈ attempts negative (n * b) b e) :
    ∃ q, 0 < q ∧ q < 0x20000000000000 ∧ N = ⟨negative, q, [Digit.zero], none⟩ := by
  obtain ⟨m, hm, rfl⟩ := List.mem_map.1 h
  obtain ⟨hpos, hle⟩ := mul_mem_neighbours hb he hm
  exact ⟨m * 10 ^ e, by positivity, by omega, ofDecimal_stripZeros negative hpos (by omega)⟩

theorem natural_mem_attempts (negative : Bool) {b : Nat} (hb : 0 < b) (hpos : 0 < n)
    (hn : n < 10 ^ 15) :
    ⟨negative, n, [Digit.zero], none⟩ ∈ attempts negative (n * b) b (0 : Nat) := by
  refine List.mem_map.2 ⟨n, mem_neighbours_self hb, ?_⟩
  have hwritten := ofDecimal_stripZeros negative (e := 0) hpos (by omega)
  rwa [Nat.pow_zero, Nat.mul_one] at hwritten

/-- The search for the numeral of a positive number ends with the whole numbers, which are tried
first. -/
theorem exists_find?_candidates {x : Double} {b : Nat} (hb : 0 < b) (hpos : 0 < n)
    (hn : n < 10 ^ 15) (hquotient : quotient x.magnitude = (n * b, b))
    (hread : Numeral.toDouble? ⟨x.isNegative, n, [Digit.zero], none⟩ = some x) :
    ∃ q, 0 < q ∧ q < 0x20000000000000 ∧
      x.candidates.find? (·.toDouble? == some x) = some ⟨x.isNegative, q, [Digit.zero], none⟩ ∧
      Numeral.toDouble? ⟨x.isNegative, q, [Digit.zero], none⟩ = some x := by
  have htop := Numeral.pow_length_digitsOf_le hpos
  rw [candidates_eq x hquotient, floorLogTen_mul hb hpos]
  generalize (Numeral.digitsOf n).length - 1 = top at htop
  have hsmall : top < 15 :=
    (Nat.pow_lt_pow_iff_right (a := 10) (by decide)).1 (Nat.lt_of_le_of_lt htop hn)
  have hrange : List.range 17 =
      List.range (top + 1) ++ (List.range (16 - top)).map (top + 1 + ·) := by
    rw [← List.range_add]
    congr 1
    omega
  have hexponent : ∀ {i : Nat}, i ≤ top → (top : Int) - i = ((top - i : Nat) : Int) := by
    intro i hi
    omega
  -- The powers from `top` down to zero give whole numbers, and with zero the number is among them.
  rw [hrange, List.flatMap_append, List.find?_append]
  obtain ⟨N, hN⟩ : ∃ N, ((List.range (top + 1)).flatMap fun i : Nat =>
      attempts x.isNegative (n * b) b (top - i)).find? (·.toDouble? == some x) = some N := by
    rw [← Option.isSome_iff_exists, List.find?_isSome]
    refine ⟨_, List.mem_flatMap.2 ⟨top, List.mem_range.2 (Nat.lt_succ_self top), ?_⟩,
      beq_iff_eq.2 hread⟩
    rw [hexponent (Nat.le_refl top), Nat.sub_self]
    exact natural_mem_attempts x.isNegative hb hpos hn
  have hfound := List.find?_some hN
  obtain ⟨i, hi, hmem⟩ := List.mem_flatMap.1 (List.mem_of_find?_eq_some hN)
  have hle : i ≤ top := Nat.le_of_lt_succ (List.mem_range.1 hi)
  rw [hexponent hle] at hmem
  obtain ⟨q, hq, hbits, rfl⟩ := natural_of_mem_attempts hb hn
    (Nat.le_trans (Nat.pow_le_pow_right (by decide) (Nat.sub_le top i)) htop) hmem
  refine ⟨q, hq, hbits, ?_, eq_of_beq hfound⟩
  rw [hN]
  rfl

/-- An integer is written as it is, with a point and a zero, as no other whole number is read as
the same double. -/
theorem toNumeral_nearest (negative : Bool) (hpos : 0 < n) (hn : n < 10 ^ 15) :
    (ofMagnitude negative (nearest n 1)).toNumeral = ⟨negative, n, [Digit.zero], none⟩ := by
  have hbits : n < 0x20000000000000 := by omega
  have hsign : ∀ {m : Nat}, m < 0x20000000000000 → nearest m 1 < signBit :=
    fun hm => (nearest_lt_infinity hm).trans (by decide)
  have hmagnitude : (ofMagnitude negative (nearest n 1)).magnitude = nearest n 1 :=
    magnitude_ofMagnitude (hsign hbits)
  have hnegative : (ofMagnitude negative (nearest n 1)).isNegative = negative :=
    isNegative_ofMagnitude (hsign hbits)
  have hzero : (ofMagnitude negative (nearest n 1)).isZero = false := by
    rw [isZero, hmagnitude]
    simpa using (nearest_pos hpos hbits).ne'
  have hquotient : quotient (nearest n 1) =
      (n * (quotient (nearest n 1)).2, (quotient (nearest n 1)).2) := by
    have hb := pos_quotient (nearest n 1)
    have heq := quotient_eq_value (nearest n 1)
    rw [value_nearest hbits, div_eq_iff (by exact_mod_cast hb.ne')] at heq
    exact Prod.ext (by exact_mod_cast heq) rfl
  obtain ⟨q, hq, hqbits, hfind, hread⟩ :=
    exists_find?_candidates (x := ofMagnitude negative (nearest n 1))
      (pos_quotient (nearest n 1)) hpos hn (by rw [hmagnitude]; exact hquotient)
      (by rw [hnegative]; exact toDouble?_of_lt negative hpos hbits)
  rw [hnegative, toDouble?_of_lt negative hq hqbits, Option.some.injEq] at hread
  have hsame : nearest q 1 = nearest n 1 := by
    have hread' := congrArg magnitude hread
    rwa [hmagnitude, magnitude_ofMagnitude (hsign hqbits)] at hread'
  have hcast : (q : ℚ) = n := by rw [← value_nearest hqbits, hsame, value_nearest hbits]
  rw [toNumeral, hzero, if_neg Bool.false_ne_true, hfind, hnegative,
    show q = n by exact_mod_cast hcast]

theorem toNumeral_ofInt {i : Int} (h : i.natAbs < 10 ^ 15) :
    (ofInt i).toNumeral = ⟨decide (i < 0), i.natAbs, [Digit.zero], none⟩ := by
  rcases Nat.eq_zero_or_pos i.natAbs with hzero | hpos
  · rw [Int.natAbs_eq_zero.1 hzero]
    decide +kernel
  · exact toNumeral_nearest (decide (i < 0)) hpos h

end Double

/-- The nearest double to a numeral that is written for a double is that double. -/
theorem Reading.readsBack_nearest : nearest.ReadsBack := fun _ => Double.toDouble?_toNumeral

end OpCatalog
