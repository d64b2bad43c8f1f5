/-!
# Sets of names

Names in ascending order, each once. Names are compared by code point, which for
their written bytes is the order of the bytes.
-/
namespace OpCatalog.Text

def insertName (name : String) : List String → List String
  | [] => [name]
  | n :: ns =>
    if name < n then name :: n :: ns
    else if name = n then n :: ns
    else n :: insertName name ns

def sortedNames (names : List String) : List String := names.foldr insertName []

theorem mem_insertName {a name : String} {ns : List String} :
    a ∈ insertName name ns ↔ a = name ∨ a ∈ ns := by
  induction ns with
  | nil => simp [insertName]
  | cons n ns ih =>
    simp only [insertName]
    split
    · simp
    · split
      · next h => subst h; simp
      · simp only [List.mem_cons, ih]
        constructor
        · rintro (rfl | rfl | h) <;> simp [*]
        · rintro (rfl | rfl | h) <;> simp [*]

@[simp] theorem mem_sortedNames {a : String} {names : List String} :
    a ∈ sortedNames names ↔ a ∈ names := by
  induction names with
  | nil => simp [sortedNames]
  | cons n ns ih =>
    rw [sortedNames, List.foldr_cons, mem_insertName, ← sortedNames, ih, List.mem_cons]

theorem pairwise_insertName {name : String} {ns : List String} (h : ns.Pairwise (· < ·)) :
    (insertName name ns).Pairwise (· < ·) := by
  induction ns with
  | nil => simp [insertName]
  | cons n ns ih =>
    obtain ⟨hn, hns⟩ := List.pairwise_cons.1 h
    rw [insertName]
    split
    · next hlt =>
      refine List.pairwise_cons.2 ⟨fun a ha => ?_, h⟩
      rcases List.mem_cons.1 ha with rfl | ha
      · exact hlt
      · exact String.lt_trans hlt (hn a ha)
    · next hlt =>
      split
      · exact h
      · next hne =>
        refine List.pairwise_cons.2 ⟨fun a ha => ?_, ih hns⟩
        rcases mem_insertName.1 ha with rfl | ha
        · exact Std.lt_of_le_of_ne (String.not_lt.1 hlt) (Ne.symm hne)
        · exact hn a ha

/-- Ascending, and each name once. -/
theorem pairwise_sortedNames (names : List String) : (sortedNames names).Pairwise (· < ·) := by
  induction names with
  | nil => simp [sortedNames]
  | cons n ns ih => exact pairwise_insertName ih

theorem nodup_of_pairwise_lt {ns : List String} (h : ns.Pairwise (· < ·)) : ns.Nodup := by
  apply h.imp
  intro a b hlt he
  subst he
  exact String.lt_irrefl a hlt

/-- Names in ascending order are known by which they are. -/
theorem eq_of_pairwise_lt {as bs : List String} (ha : as.Pairwise (· < ·))
    (hb : bs.Pairwise (· < ·)) (h : ∀ n, n ∈ as ↔ n ∈ bs) : as = bs := by
  have hperm := (List.perm_ext_iff_of_nodup (nodup_of_pairwise_lt ha) (nodup_of_pairwise_lt hb)).2 h
  refine hperm.eq_of_pairwise ?_ ha hb
  intro a b _ _ hab hba
  exact absurd (String.lt_trans hab hba) (String.lt_irrefl a)

theorem sortedNames_congr {as bs : List String} (h : ∀ n, n ∈ as ↔ n ∈ bs) :
    sortedNames as = sortedNames bs := by
  apply eq_of_pairwise_lt (pairwise_sortedNames as) (pairwise_sortedNames bs)
  intro n
  rw [mem_sortedNames, mem_sortedNames, h]

end OpCatalog.Text
