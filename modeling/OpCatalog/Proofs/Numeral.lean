import OpCatalog.Decimal.Grammar
import OpCatalog.Decimal.Shortest

/-!
# Numerals read back

The digits of a number spell it, and a numeral that has been written is read again, whatever stands
behind it, as long as that does not continue it.
-/
namespace OpCatalog

namespace Digit

theorem ofChar?_toChar : ∀ d : Digit, ofChar? d.toChar = some d := by decide

/-- The last digit of a number. -/
def last (n : Nat) : Digit := ⟨n % 10, Nat.mod_lt n (by decide)⟩

theorem toChar_last (n : Nat) : (last n).toChar = (n % 10).digitChar := rfl

end Digit

theorem spell_append (start : Nat) (ds es : List Digit) :
    spell start (ds ++ es) = spell (spell start ds) es := List.foldl_append

namespace Numeral

/-! ## Digits -/

/-- The last digit comes off the end. -/
theorem digitsOf_eq (n : Nat) :
    digitsOf n = (if n < 10 then [] else digitsOf (n / 10)) ++ [Digit.last n] := by
  have hlast : [(n % 10).digitChar].filterMap Digit.ofChar? = [Digit.last n] := by
    rw [← Digit.toChar_last]
    simp [Digit.ofChar?_toChar]
  rw [digitsOf, Nat.toDigits_eq_if (by decide)]
  split
  · next h => simpa [Nat.mod_eq_of_lt h] using hlast
  · rw [List.filterMap_append, hlast, digitsOf]

theorem toDigits_eq_map (n : Nat) : Nat.toDigits 10 n = (digitsOf n).map Digit.toChar := by
  induction n using Nat.strongRecOn with
  | _ n ih =>
    rw [Nat.toDigits_eq_if (by decide), digitsOf_eq]
    split
    · next h => simp [Digit.toChar_last, Nat.mod_eq_of_lt h]
    · next h => rw [ih (n / 10) (by omega), List.map_append, List.map_singleton, Digit.toChar_last]

@[simp] theorem spell_digitsOf (n : Nat) : spell 0 (digitsOf n) = n := by
  induction n using Nat.strongRecOn with
  | _ n ih =>
    rw [digitsOf_eq, spell_append]
    split
    · next h => simp [spell, Digit.last, Nat.mod_eq_of_lt h]
    · next h =>
      rw [ih (n / 10) (by omega)]
      simp only [spell, List.foldl_cons, List.foldl_nil, Digit.last]
      omega

/-- Only the number zero is written with a zero in front. -/
theorem exists_digitsOf (n : Nat) :
    ∃ d ds, digitsOf n = d :: ds ∧ (d = Digit.zero → ds = []) := by
  induction n using Nat.strongRecOn with
  | _ n ih =>
    rw [digitsOf_eq]
    split
    · exact ⟨_, [], rfl, fun _ => rfl⟩
    · next h =>
      obtain ⟨d, ds, hds, hzero⟩ := ih (n / 10) (by omega)
      refine ⟨d, ds ++ [Digit.last n], by rw [hds]; rfl, ?_⟩
      intro hd
      have hspell := spell_digitsOf (n / 10)
      rw [hds, hd, hzero hd] at hspell
      simp [spell, Digit.zero] at hspell
      omega

theorem length_digitsOf_pos (n : Nat) : 0 < (digitsOf n).length := by
  obtain ⟨d, ds, hds, -⟩ := exists_digitsOf n
  simp [hds]

/-! ## Scanners -/

/-- What stands behind some digits is not another one. -/
def NoDigit (rest : List Char) : Prop := ∀ c ∈ rest.head?, Digit.ofChar? c = none

/-- What stands behind a numeral does not continue it. -/
def Stops (rest : List Char) : Prop :=
  ∀ c ∈ rest.head?, Digit.ofChar? c = none ∧ c ∉ ['.', 'e', 'E']

theorem Stops.noDigit {rest : List Char} (h : Stops rest) : NoDigit rest := fun c hc => (h c hc).1

variable {rest : List Char}

theorem digits_append (ds : List Digit) (h : NoDigit rest) :
    digits (ds.map Digit.toChar ++ rest) = (ds, rest) := by
  induction ds with
  | nil =>
    cases rest with
    | nil => rfl
    | cons c rest => simp [digits, h c rfl]
  | cons d ds ih => simp [digits, Digit.ofChar?_toChar, ih]

theorem whole?_append (n : Nat) (h : NoDigit rest) :
    whole? (Nat.toDigits 10 n ++ rest) = some (n, rest) := by
  obtain ⟨d, ds, hds, hzero⟩ := exists_digitsOf n
  rw [whole?, toDigits_eq_map, digits_append _ h, hds]
  simp only
  rw [if_neg (by rintro ⟨hd, hne⟩; exact hne (hzero hd)), ← hds, spell_digitsOf]

theorem unsigned?_append (n : Nat) (h : NoDigit rest) :
    unsigned? (Nat.toDigits 10 n ++ rest) = some (n, rest) := by
  obtain ⟨d, ds, hds, -⟩ := exists_digitsOf n
  rw [unsigned?, toDigits_eq_map, digits_append _ h, hds]
  simp only
  rw [← hds, spell_digitsOf]

theorem fraction?_append (ds : List Digit) (h : NoDigit rest) (hpoint : '.' ∉ rest.head?) :
    fraction? ((if ds.isEmpty then [] else '.' :: ds.map Digit.toChar) ++ rest) =
      some (ds, rest) := by
  cases ds with
  | nil =>
    cases rest with
    | nil => rfl
    | cons c rest =>
      have hc : c ≠ '.' := by
        rintro rfl
        exact hpoint rfl
      simp only [List.isEmpty_nil, if_true, List.nil_append]
      rw [fraction?]
      rintro cs ⟨⟩
      exact hc rfl
  | cons d ds =>
    rw [if_neg (by simp), List.cons_append, fraction?, digits_append (d :: ds) h]

theorem exponent?_append (e : Option Int) (h : Stops rest) :
    exponent? ((e.map exponentChars).getD [] ++ rest) = some (e, rest) := by
  cases e with
  | none =>
    cases rest with
    | nil => rfl
    | cons c rest =>
      have hc := (h c rfl).2
      simp only [List.mem_cons, List.not_mem_nil, or_false, not_or] at hc
      simp [exponent?, hc.2.1, hc.2.2]
  | some e =>
    simp only [Option.map_some, Option.getD_some, exponentChars]
    by_cases he : e < 0
    · have hneg : -(e.natAbs : Int) = e := by omega
      simp only [he, if_true, List.cons_append, exponent?, BEq.rfl, Bool.true_or,
        unsigned?_append _ h.noDigit, Option.map_some, hneg]
    · have hpos : (e.natAbs : Int) = e := by omega
      simp only [he, if_false, if_true, List.cons_append, exponent?, BEq.rfl, Bool.true_or,
        unsigned?_append _ h.noDigit, Option.map_some, hpos]

/-- What stands behind the whole part is neither a digit nor, without a fraction, a point. -/
theorem stops_exponent (e : Option Int) (h : Stops rest) :
    NoDigit ((e.map exponentChars).getD [] ++ rest) ∧
      '.' ∉ ((e.map exponentChars).getD [] ++ rest).head? := by
  cases e with
  | none =>
    refine ⟨h.noDigit, fun hpoint => ?_⟩
    simpa using (h _ hpoint).2
  | some e =>
    constructor
    · rintro c ⟨⟩
      decide
    · rintro ⟨⟩

theorem noDigit_fraction (ds : List Digit) (h : NoDigit rest) :
    NoDigit ((if ds.isEmpty then [] else '.' :: ds.map Digit.toChar) ++ rest) := by
  cases ds with
  | nil => exact h
  | cons d ds =>
    rintro c ⟨⟩
    decide

theorem read?_of_parts {negative : Bool} {cs cs' cs'' : List Char} {n : Nat} {ds : List Digit}
    {e : Option Int} (hwhole : whole? cs = some (n, cs')) (hfrac : fraction? cs' = some (ds, cs''))
    (hexp : exponent? cs'' = some (e, rest)) :
    read? ((if negative then ['-'] else []) ++ cs) = some (⟨negative, n, ds, e⟩, rest) := by
  cases negative with
  | true => simp [read?, hwhole, hfrac, hexp]
  | false =>
    rw [if_neg (by decide), List.nil_append, read?]
    · simp [hwhole, hfrac, hexp]
    · rintro tail rfl
      cases hwhole

/-- A numeral that has been written is read again. -/
theorem read?_append (n : Numeral) (h : Stops rest) : read? (n.chars ++ rest) = some (n, rest) := by
  obtain ⟨hdigit, hpoint⟩ := stops_exponent n.exponent h
  have hwhole := whole?_append n.whole (noDigit_fraction n.fraction hdigit)
  have hfrac := fraction?_append n.fraction hdigit hpoint
  have hexp := exponent?_append n.exponent h
  simpa only [chars, List.append_assoc] using read?_of_parts hwhole hfrac hexp

end Numeral

end OpCatalog
