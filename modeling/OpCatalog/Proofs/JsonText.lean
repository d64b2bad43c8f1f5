import Mathlib.Data.Fintype.Basic
import Mathlib.Tactic.FinCases
import OpCatalog.Json.Reader
import OpCatalog.Json.Writer
import OpCatalog.Proofs.Numeral
import OpCatalog.Proofs.Quoted

/-!
# JSON texts read back

A value is read back from its text in every layout that puts nothing but blanks between the
tokens. The tokens of a value are the middle: writing puts blanks between them, which the lexer
drops, and the reader takes them apart again.
-/
namespace OpCatalog.Json

open Numeral (Stops)

variable {c : Char} {cs rest : List Char} {t : Token} {ts : List Token}

/-! ## Tokens -/

namespace Token

/-- The token does not go on in what stands behind it. -/
def Ends (rest : List Char) : Token → Prop
  | .num _ => Stops rest
  | _ => True

theorem read?_numeral (h : c = '-' ∨ ∃ d : Digit, c = d.toChar) :
    read? (c :: cs) = (Numeral.read? (c :: cs)).map fun (n, rest) => (.num n, rest) := by
  rcases h with rfl | ⟨d, rfl⟩
  · rfl
  · fin_cases d <;> rfl

theorem exists_chars_num (n : Numeral) :
    ∃ c cs, n.chars = c :: cs ∧ (c = '-' ∨ ∃ d : Digit, c = d.toChar) := by
  rw [Numeral.chars, Numeral.toDigits_eq_map]
  obtain ⟨d, ds, hds, -⟩ := Numeral.exists_digitsOf n.whole
  cases n.negative with
  | true => exact ⟨_, _, rfl, Or.inl rfl⟩
  | false =>
    rw [hds]
    exact ⟨_, _, rfl, Or.inr ⟨d, rfl⟩⟩

/-- A token that has been written is read again. -/
theorem read?_append (t : Token) (h : t.Ends rest) : read? (t.chars ++ rest) = some (t, rest) := by
  cases t with
  | num n =>
    obtain ⟨c, cs, hcs, hc⟩ := exists_chars_num n
    have hread := Numeral.read?_append n h
    rw [hcs] at hread
    rw [chars, hcs, List.cons_append, read?_numeral hc, ← List.cons_append, hread]
    rfl
  | str s =>
    cases s with
    | none => rfl
    | some s =>
      have hread := Quoted.unescape?_escape s rest
      simp only [chars, List.cons_append, List.append_assoc, List.nil_append, read?, hread,
        Option.map_some]
  | bool b =>
    cases b with
    | false => rfl
    | true => rfl
  | _ => rfl

/-- A token is written with at least one character, and a blank is not the first. -/
theorem exists_chars (t : Token) : ∃ c cs, t.chars = c :: cs ∧ isSpace c = false := by
  cases t with
  | num n =>
    obtain ⟨c, cs, hcs, hc⟩ := exists_chars_num n
    refine ⟨c, cs, hcs, ?_⟩
    rcases hc with rfl | ⟨d, rfl⟩
    · decide
    · fin_cases d <;> rfl
  | str s =>
    cases s with
    | none => exact ⟨_, _, rfl, rfl⟩
    | some s => exact ⟨_, _, rfl, rfl⟩
  | bool b =>
    cases b with
    | false => exact ⟨_, _, rfl, rfl⟩
    | true => exact ⟨_, _, rfl, rfl⟩
  | _ => exact ⟨_, _, rfl, rfl⟩

end Token

/-- The text consists of the tokens, and any fuel that covers its length is enough to see it. -/
def Lexes (cs : List Char) (ts : List Token) : Prop :=
  ∀ fuel, cs.length ≤ fuel → Token.readAll? fuel cs = some ts

theorem lexes_nil : Lexes [] [] := by
  intro fuel _
  cases fuel <;> rfl

theorem Lexes.space (h : Lexes cs ts) (hc : isSpace c = true) : Lexes (c :: cs) ts := by
  intro fuel hfuel
  cases fuel with
  | zero => simp at hfuel
  | succ fuel =>
    rw [Token.readAll?, if_pos hc]
    exact h fuel (Nat.le_of_succ_le_succ hfuel)

theorem Lexes.blanks {blanks : List Char} (h : Lexes cs ts) (hb : ∀ c ∈ blanks, isSpace c = true) :
    Lexes (blanks ++ cs) ts := by
  induction blanks with
  | nil => exact h
  | cons c blanks ih =>
    have hrest := ih fun c hc => hb c (List.mem_cons_of_mem _ hc)
    exact hrest.space (hb c List.mem_cons_self)

theorem Lexes.token (h : Lexes cs ts) (t : Token) (hends : t.Ends cs) :
    Lexes (t.chars ++ cs) (t :: ts) := by
  intro fuel hfuel
  obtain ⟨c, rest, hchars, hc⟩ := t.exists_chars
  have hread := t.read?_append hends
  rw [hchars, List.cons_append] at hread hfuel ⊢
  cases fuel with
  | zero => simp at hfuel
  | succ fuel =>
    have hts := h fuel (by simp at hfuel; omega)
    rw [Token.readAll?, if_neg (by simp [hc]), hread]
    simp [hts]

/-! ## Writing -/

/-- Blanks stand between the elements, and a colon and blanks after a name. -/
structure Layout.Blank (layout : Layout) : Prop where
  newline : ∀ depth, ∀ c ∈ layout.newline depth, isSpace c = true
  colon : ∃ gap, layout.colon = ':' :: gap ∧ ∀ c ∈ gap, isSpace c = true

theorem Layout.blank_compact : Layout.compact.Blank where
  newline := by
    rintro depth c ⟨⟩
  colon := ⟨[], rfl, by rintro c ⟨⟩⟩

theorem Layout.blank_pretty : Layout.pretty.Blank where
  newline := by
    intro depth c hc
    rcases List.mem_cons.1 hc with rfl | hc
    · rfl
    · rw [List.eq_of_mem_replicate hc]
      rfl
  colon := ⟨[' '], rfl, by simp [isSpace]⟩

mutual

/-- The tokens of a value. -/
def tokens : Json → List Token
  | .null => [.null]
  | .bool b => [.bool b]
  | .num n => [.num n]
  | .str s => [.str (some s)]
  | .garbled => [.str none]
  | .arr [] => [.openArray, .closeArray]
  | .arr (v :: vs) => .openArray :: (tokens v ++ (itemTokens vs ++ [.closeArray]))
  | .obj [] => [.openObject, .closeObject]
  | .obj ((name, v) :: ms) =>
    .openObject :: .str (some name) :: .colon :: (tokens v ++ (memberTokens ms ++ [.closeObject]))

/-- The tokens of further elements, each after a comma. -/
def itemTokens : List Json → List Token
  | [] => []
  | v :: vs => .comma :: (tokens v ++ itemTokens vs)

/-- The tokens of further members, each after a comma. -/
def memberTokens : List (String × Json) → List Token
  | [] => []
  | (name, v) :: ms => .comma :: .str (some name) :: .colon :: (tokens v ++ memberTokens ms)

end

theorem stops_cons (h : c ∈ [',', ']', '\x7d', ' ', '\n', '\t', '\r']) : Stops (c :: rest) := by
  rintro c' ⟨⟩
  simp only [List.mem_cons, List.not_mem_nil, or_false] at h
  rcases h with rfl | rfl | rfl | rfl | rfl | rfl | rfl <;> exact ⟨rfl, by decide⟩

theorem stops_nil : Stops [] := by
  rintro c ⟨⟩

theorem stops_blanks {blanks : List Char} (hb : ∀ c ∈ blanks, isSpace c = true) (h : Stops rest) :
    Stops (blanks ++ rest) := by
  cases blanks with
  | nil => exact h
  | cons c blanks =>
    refine stops_cons ?_
    have hc := hb c List.mem_cons_self
    simp only [isSpace, Bool.or_eq_true, beq_iff_eq] at hc
    rcases hc with ((rfl | rfl) | rfl) | rfl <;> decide

variable {layout : Layout}

theorem stops_newline (h : layout.Blank) (depth : Nat)
    (hc : c ∈ [',', ']', '\x7d', ' ', '\n', '\t', '\r']) :
    Stops (layout.newline depth ++ c :: rest) :=
  stops_blanks (h.newline depth) (stops_cons hc)

/-- What stands behind an element is a comma or what ends the list. -/
theorem stops_itemChars (depth : Nat) (vs : List Json) (h : Stops rest) :
    Stops (itemChars layout depth vs ++ rest) := by
  cases vs with
  | nil => exact h
  | cons v vs =>
    simp only [itemChars, List.cons_append]
    exact stops_cons (by decide)

theorem stops_memberChars (depth : Nat) (ms : List (String × Json)) (h : Stops rest) :
    Stops (memberChars layout depth ms ++ rest) := by
  cases ms with
  | nil => exact h
  | cons m ms =>
    simp only [memberChars, List.cons_append]
    exact stops_cons (by decide)

theorem Lexes.newline (h : Lexes cs ts) (hlayout : layout.Blank) (depth : Nat) :
    Lexes (layout.newline depth ++ cs) ts :=
  h.blanks (hlayout.newline depth)

theorem Lexes.name (h : Lexes cs ts) (hlayout : layout.Blank) (name : String) :
    Lexes ((Token.str (some name)).chars ++ (layout.colon ++ cs))
      (.str (some name) :: .colon :: ts) := by
  obtain ⟨gap, hcolon, hgap⟩ := hlayout.colon
  rw [hcolon]
  exact ((h.blanks hgap).token .colon trivial).token (.str (some name)) trivial

mutual

/-- A value is written as its tokens, whatever stands behind it. -/
theorem lexes_chars (hlayout : layout.Blank) (depth : Nat) (v : Json) {rest : List Char}
    {ts : List Token} (hrest : Stops rest) (hts : Lexes rest ts) :
    Lexes (chars layout depth v ++ rest) (tokens v ++ ts) := by
  match v with
  | .null => exact hts.token .null trivial
  | .bool b => exact hts.token (.bool b) trivial
  | .num n => exact hts.token (.num n) hrest
  | .str s => exact hts.token (.str (some s)) trivial
  | .garbled => exact hts.token (.str none) trivial
  | .arr [] => exact (hts.token .closeArray trivial).token .openArray trivial
  | .arr (v :: vs) =>
    have hclose := (hts.token .closeArray trivial).newline hlayout depth
    have hstops : Stops (layout.newline depth ++ ']' :: rest) :=
      stops_newline hlayout depth (by decide)
    have hitems := lexes_itemChars hlayout (depth + 1) vs hstops hclose
    have hfirst := lexes_chars hlayout (depth + 1) v (stops_itemChars (depth + 1) vs hstops) hitems
    have hall := (hfirst.newline hlayout (depth + 1)).token .openArray trivial
    simpa [chars, tokens, Token.chars] using hall
  | .obj [] => exact (hts.token .closeObject trivial).token .openObject trivial
  | .obj ((name, v) :: ms) =>
    have hclose := (hts.token .closeObject trivial).newline hlayout depth
    have hstops : Stops (layout.newline depth ++ '\x7d' :: rest) :=
      stops_newline hlayout depth (by decide)
    have hmembers := lexes_memberChars hlayout (depth + 1) ms hstops hclose
    have hfirst :=
      lexes_chars hlayout (depth + 1) v (stops_memberChars (depth + 1) ms hstops) hmembers
    have hall := ((hfirst.name hlayout name).newline hlayout (depth + 1)).token .openObject trivial
    simpa [chars, tokens, Token.chars] using hall

theorem lexes_itemChars (hlayout : layout.Blank) (depth : Nat) (vs : List Json)
    {rest : List Char} {ts : List Token} (hrest : Stops rest) (hts : Lexes rest ts) :
    Lexes (itemChars layout depth vs ++ rest) (itemTokens vs ++ ts) := by
  match vs with
  | [] => exact hts
  | v :: vs =>
    have hitems := lexes_itemChars hlayout depth vs hrest hts
    have hfirst := lexes_chars hlayout depth v (stops_itemChars depth vs hrest) hitems
    have hall := (hfirst.newline hlayout depth).token .comma trivial
    simpa [itemChars, itemTokens, Token.chars] using hall

theorem lexes_memberChars (hlayout : layout.Blank) (depth : Nat) (ms : List (String × Json))
    {rest : List Char} {ts : List Token} (hrest : Stops rest) (hts : Lexes rest ts) :
    Lexes (memberChars layout depth ms ++ rest) (memberTokens ms ++ ts) := by
  match ms with
  | [] => exact hts
  | (name, v) :: ms =>
    have hmembers := lexes_memberChars hlayout depth ms hrest hts
    have hfirst := lexes_chars hlayout depth v (stops_memberChars depth ms hrest) hmembers
    have hall := ((hfirst.name hlayout name).newline hlayout depth).token .comma trivial
    simpa [memberChars, memberTokens, Token.chars] using hall

end

/-! ## Reading -/

/-- A value starts with a token of its own, so a bracket that closes at once is seen apart. -/
theorem exists_tokens (v : Json) :
    ∃ t ts, tokens v = t :: ts ∧ t ≠ .closeArray ∧ t ≠ .closeObject := by
  cases v with
  | arr vs =>
    cases vs with
    | nil => exact ⟨_, _, by rw [tokens], by simp, by simp⟩
    | cons v vs => exact ⟨_, _, by rw [tokens], by simp, by simp⟩
  | obj ms =>
    cases ms with
    | nil => exact ⟨_, _, by rw [tokens], by simp, by simp⟩
    | cons m ms => exact ⟨_, _, by rw [tokens], by simp, by simp⟩
  | _ => exact ⟨_, _, by rw [tokens], by simp, by simp⟩

theorem value?_openArray (fuel : Nat) (v : Json) (rest : List Token) :
    value? (fuel + 1) (.openArray :: (tokens v ++ rest)) =
      (items? fuel (tokens v ++ rest)).map fun (vs, ts) => (.arr vs, ts) := by
  obtain ⟨t, ts, hv, hclose, -⟩ := exists_tokens v
  rw [hv, List.cons_append, value?]
  rintro _ ⟨⟩
  exact hclose rfl

theorem ofMembers_some (ms : List (String × Json)) :
    ofMembers (ms.map fun m => (some m.1, m.2)) = .obj ms := by
  have hall : (ms.map fun m => (some m.1, m.2)).mapM
      (fun (m : Option String × Json) => m.1.map (·, m.2)) = some ms := by
    induction ms with
    | nil => rfl
    | cons m ms ih => simp [ih]
  simp only [ofMembers, hall]

mutual

/-- A value is read from its tokens, whatever stands behind them. -/
theorem value?_tokens (v : Json) (ts : List Token) (fuel : Nat)
    (h : 2 * (tokens v).length ≤ fuel + 1) : value? fuel (tokens v ++ ts) = some (v, ts) := by
  -- The tokens are not empty, so there is a unit of fuel to spend.
  obtain ⟨_, _, htokens, -⟩ := exists_tokens v
  obtain ⟨fuel, rfl⟩ : ∃ n, fuel = n + 1 := ⟨fuel - 1, by simp [htokens] at h; omega⟩
  match v with
  | .null => simp [tokens, value?]
  | .bool b => simp [tokens, value?]
  | .num n => simp [tokens, value?]
  | .str s => simp [tokens, value?]
  | .garbled => simp [tokens, value?]
  | .arr [] => simp [tokens, value?]
  | .arr (v :: vs) =>
    have hitems := items?_tokens v vs ts fuel (by simp [tokens] at h; simp; omega)
    have hopen := value?_openArray fuel v (itemTokens vs ++ .closeArray :: ts)
    rw [hitems] at hopen
    simpa [tokens] using hopen
  | .obj [] => simp [tokens, value?]
  | .obj ((name, v) :: ms) =>
    have hmembers := members?_tokens name v ms ts fuel (by simp [tokens] at h; simp; omega)
    have hall := ofMembers_some ((name, v) :: ms)
    rw [List.map_cons] at hall
    simp [tokens, value?, hmembers, hall]
termination_by fuel

/-- Further elements are read after the first one. -/
theorem items?_tokens (v : Json) (vs : List Json) (ts : List Token) (fuel : Nat)
    (h : 2 * (tokens v ++ itemTokens vs).length ≤ fuel) :
    items? fuel (tokens v ++ (itemTokens vs ++ .closeArray :: ts)) = some (v :: vs, ts) := by
  obtain ⟨_, _, htokens, -⟩ := exists_tokens v
  obtain ⟨fuel, rfl⟩ : ∃ n, fuel = n + 1 := ⟨fuel - 1, by simp [htokens] at h; omega⟩
  have hfirst := fun rest => value?_tokens v rest fuel (by simp at h; omega)
  rw [items?, hfirst]
  match vs with
  | [] => simp [itemTokens]
  | w :: ws =>
    have hrest := items?_tokens w ws ts fuel (by simp [itemTokens, htokens] at h; simp; omega)
    simp [itemTokens, hrest]
termination_by fuel

theorem members?_tokens (name : String) (v : Json) (ms : List (String × Json)) (ts : List Token)
    (fuel : Nat) (h : 2 * (tokens v ++ memberTokens ms).length ≤ fuel) :
    members? fuel (.str (some name) :: .colon :: (tokens v ++
      (memberTokens ms ++ .closeObject :: ts))) =
        some ((some name, v) :: ms.map (fun m => (some m.1, m.2)), ts) := by
  obtain ⟨_, _, htokens, -⟩ := exists_tokens v
  obtain ⟨fuel, rfl⟩ : ∃ n, fuel = n + 1 := ⟨fuel - 1, by simp [htokens] at h; omega⟩
  have hfirst := fun rest => value?_tokens v rest fuel (by simp at h; omega)
  rw [members?]
  simp only [hfirst]
  match ms with
  | [] => simp [memberTokens]
  | (name', w) :: ms =>
    have hrest := members?_tokens name' w ms ts fuel
      (by simp [memberTokens, htokens] at h; simp; omega)
    simp [memberTokens, hrest]
termination_by fuel

end

/-- What has been written, in whatever layout, is read again. -/
theorem parse?_render (hlayout : layout.Blank) (v : Json) : parse? (v.render layout) = some v := by
  have hlex := lexes_chars hlayout 0 v stops_nil lexes_nil
  simp only [List.append_nil] at hlex
  have hvalue := value?_tokens v [] (2 * (tokens v).length) (by omega)
  rw [List.append_nil] at hvalue
  rw [parse?, render, String.toList_ofList, tokens?, hlex _ (Nat.le_refl _)]
  simp only [Option.bind_some, ofTokens?, hvalue]

end OpCatalog.Json
