/-!
# Results that may be missing

How a result that may be refused was mapped, and what it means for two results that may be
missing to be related.
-/
namespace OpCatalog

variable {ε α β : Type}

theorem map_eq_ok_iff {f : α → β} {x : Except ε α} {b : β} :
    x.map f = .ok b ↔ ∃ a, x = .ok a ∧ f a = b := by
  cases x with
  | error e => simp [Except.map]
  | ok a => simp [Except.map]

theorem map_eq_error_iff {f : α → β} {x : Except ε α} {e : ε} :
    x.map f = .error e ↔ x = .error e := by
  cases x with
  | error e' => simp [Except.map]
  | ok a => simp [Except.map]

variable {R : α → β → Prop} {x : Option α} {y : Option β}

theorem rel_symm {S : β → α → Prop} (hRS : ∀ a b, R a b → S b a) (h : Option.Rel R x y) :
    Option.Rel S y x := by
  cases h with
  | none => exact Option.Rel.none
  | some h => exact Option.Rel.some (hRS _ _ h)

/-- Related results are both missing or both there. -/
theorem rel_cases (h : Option.Rel R x y) :
    (x = none ∧ y = none) ∨ ∃ a b, x = some a ∧ y = some b ∧ R a b := by
  cases h with
  | none => exact Or.inl ⟨rfl, rfl⟩
  | some h => exact Or.inr ⟨_, _, rfl, rfl, h⟩

end OpCatalog
