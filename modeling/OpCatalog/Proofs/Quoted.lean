import OpCatalog.Json.Quoted

/-!
# Quoted strings read back

An escaped character is read as one piece that stands for the character alone: either the
character itself or the number of a control character, which is no half of a surrogate pair.
-/
namespace OpCatalog

theorem Text.hexNumber?_hexDigit (n : Nat) (h : n < 256) :
    hexNumber? ['0', '0', hexDigit (n / 16), hexDigit n] = some n := by
  have hzero : hexValue? '0' = some 0 := by decide
  simp only [hexNumber?, List.foldlM_cons, List.foldlM_nil, hexValue?_hexDigit, hzero,
    Option.map_some, Option.bind_eq_bind, Option.bind_some, Option.pure_def, Option.some.injEq]
  omega

namespace Json.Quoted

/-- The piece stands for the character by itself. -/
inductive Stands : Piece → Char → Prop
  | char (c : Char) : Stands (.char c) c
  | code {c : Char} (control : c.toNat < 32) : Stands (.code c.toNat) c

/-- Reading one more piece. -/
def withPiece (p : Piece) : List Piece × List Char → List Piece × List Char :=
  fun found => (p :: found.1, found.2)

theorem pieces?_short {c e : Char} (hu : c ≠ 'u') (he : shortEscape? c = some e)
    (rest : List Char) :
    pieces? ('\\' :: c :: rest) = (pieces? rest).map (withPiece (.char e)) := by
  rw [pieces?]
  · simp only [he, Option.bind_eq_bind, Option.bind_some]
    cases pieces? rest with
    | none => rfl
    | some found => rfl
  · rintro _ _ _ _ _ rfl
    exact absurd rfl hu

theorem pieces?_control {c : Char} (h : c.toNat < 32) (rest : List Char) :
    pieces? ('\\' :: 'u' :: '0' :: '0' :: Text.hexDigit (c.toNat / 16) :: Text.hexDigit c.toNat ::
      rest) = (pieces? rest).map (withPiece (.code c.toNat)) := by
  simp only [pieces?, Text.hexNumber?_hexDigit c.toNat (by omega), Option.bind_eq_bind,
    Option.bind_some]
  cases pieces? rest with
  | none => rfl
  | some found => rfl

theorem pieces?_plain {c : Char} (hquote : c ≠ '"') (hslash : c ≠ '\\') (h : ¬c.toNat < 32)
    (rest : List Char) : pieces? (c :: rest) = (pieces? rest).map (withPiece (.char c)) := by
  rw [pieces?]
  · simp only [h, hslash, decide_false, Bool.false_or, beq_iff_eq, if_false]
    cases pieces? rest with
    | none => rfl
    | some found => rfl
  · rintro rfl
    exact absurd rfl hquote
  · rintro _ _ _ _ _ rfl
    exact absurd rfl hslash
  · rintro _ _ rfl
    exact absurd rfl hslash

theorem pieces?_escapeChar (c : Char) (rest : List Char) :
    ∃ p, Stands p c ∧ pieces? (escapeChar c ++ rest) = (pieces? rest).map (withPiece p) := by
  unfold escapeChar
  split
  case h_8 hquote hslash _ _ _ _ _ =>
    split
    · next h => exact ⟨_, .code h, pieces?_control h rest⟩
    · next h => exact ⟨_, .char c, pieces?_plain hquote hslash h rest⟩
  all_goals exact ⟨_, .char _, pieces?_short (by decide) (by decide) rest⟩

theorem join?_cons {p : Piece} {c : Char} (h : Stands p c) (ps : List Piece) :
    join? (p :: ps) = (join? ps).map (c :: ·) := by
  cases h with
  | char c => rfl
  | code control =>
    have hhigh : isHigh c.toNat = false := by simp [isHigh]; omega
    have hlow : isLow c.toNat = false := by simp [isLow]; omega
    have hc : Char.ofNat c.toNat = c := Char.ofNat_toNat c
    rcases ps with _ | ⟨_ | low, ps⟩
    · simp [join?, hhigh, hlow, hc]
    · simp [join?, hhigh, hlow, hc]
    · simp only [join?, hhigh, hlow, hc, Bool.false_eq_true, if_false]

/-- An escaped string is read up to the quote behind it. -/
theorem unescape?_escape (s : String) (rest : List Char) :
    unescape? (escape s.toList ++ '"' :: rest) = some (some s, rest) := by
  have hpieces : ∀ cs : List Char, ∃ ps, join? ps = some cs ∧
      pieces? (escape cs ++ '"' :: rest) = some (ps, rest) := by
    intro cs
    induction cs with
    | nil => exact ⟨[], rfl, rfl⟩
    | cons c cs ih =>
      obtain ⟨ps, hjoin, hps⟩ := ih
      obtain ⟨p, hstands, hp⟩ := pieces?_escapeChar c (escape cs ++ '"' :: rest)
      refine ⟨p :: ps, by rw [join?_cons hstands, hjoin]; rfl, ?_⟩
      rw [escape, List.flatMap_cons, List.append_assoc, ← escape, hp, hps]
      rfl
  obtain ⟨ps, hjoin, hps⟩ := hpieces s.toList
  simp [unescape?, hps, hjoin]

end Json.Quoted

end OpCatalog
