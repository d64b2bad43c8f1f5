/-!
# Counting against a limit

A loop that keeps entries and counts them stops where there would be more than a limit allows,
and then nothing of what it kept is left. `within` is what such a loop amounts to, and
`within_cons` one round of it.
-/
namespace OpCatalog

variable {α : Type} {limit : Option Nat} {found : Nat} {kept : List α}

/-- All of a list, if it and the `found` entries before it are not too many. -/
def within (limit : Option Nat) (found : Nat) (kept : List α) : Option (List α) :=
  if limit.all (found + kept.length ≤ ·) then some kept else none

theorem within_nil (h : limit.all (found ≤ ·)) : within limit found ([] : List α) = some [] :=
  if_pos h

@[simp] theorem within_none (found : Nat) (kept : List α) : within none found kept = some kept :=
  if_pos rfl

theorem all_succ_of_not_any (h : ¬limit.any (· ≤ found)) : limit.all (found + 1 ≤ ·) := by
  cases limit with
  | none => rfl
  | some n =>
    have hlt : ¬n ≤ found := by simpa using h
    exact decide_eq_true (by omega)

theorem within_cons (limit : Option Nat) (found : Nat) (a : α) (kept : List α) :
    within limit found (a :: kept) =
      if limit.any (· ≤ found) then none else (within limit (found + 1) kept).map (a :: ·) := by
  cases limit with
  | none => simp
  | some n =>
    simp only [within, Option.all_some, Option.any_some, List.length_cons, decide_eq_true_eq]
    by_cases hfull : n ≤ found
    · rw [if_pos hfull, if_neg (by omega)]
    · rw [if_neg hfull]
      by_cases hfits : found + 1 + kept.length ≤ n
      · rw [if_pos hfits, if_pos (by omega)]
        rfl
      · rw [if_neg hfits, if_neg (by omega)]
        rfl

theorem within_zero (limit : Option Nat) (kept : List α) :
    within limit 0 kept = if limit.all (kept.length ≤ ·) then some kept else none := by
  rw [within, Nat.zero_add]

theorem all_zero_le (limit : Option Nat) : limit.all (0 ≤ ·) := by
  cases limit <;> simp

theorem all_le_of_le {m n : Nat} (h : m ≤ n) (hle : limit.all (n ≤ ·)) : limit.all (m ≤ ·) := by
  cases limit with
  | none => rfl
  | some bound =>
    have hbound : n ≤ bound := by simpa using hle
    exact decide_eq_true (Nat.le_trans h hbound)

/-- Only a limit that is set can be exceeded. -/
theorem eq_some_of_not_all (h : ¬limit.all (found ≤ ·)) : limit = some (limit.getD 0) := by
  cases limit with
  | none => simp at h
  | some n => rfl

/-! ## Raising a limit -/

/-- The second limit is no lower than the first, or none at all. -/
def Raised (limit limit' : Option Nat) : Prop :=
  ∀ n', limit' = some n' → ∃ n, limit = some n ∧ n ≤ n'

theorem Raised.all {limit' : Option Nat} (h : Raised limit limit') (hle : limit.all (found ≤ ·)) :
    limit'.all (found ≤ ·) := by
  cases limit' with
  | none => rfl
  | some n' =>
    obtain ⟨n, rfl, hn⟩ := h n' rfl
    have hfound : found ≤ n := by simpa using hle
    exact decide_eq_true (Nat.le_trans hfound hn)

theorem Raised.not_any {limit' : Option Nat} (h : Raised limit limit')
    (hlt : ¬limit.any (· ≤ found)) : ¬limit'.any (· ≤ found) := by
  cases limit' with
  | none => simp
  | some n' =>
    obtain ⟨n, rfl, hn⟩ := h n' rfl
    simp only [Option.any_some, decide_eq_true_eq] at hlt ⊢
    omega

end OpCatalog
