/-!
# The first of each key

Names are made unique by keeping the first entry of each. The entries kept are those
that a search for their key would find, and no order that is stable on equal keys
changes which they are.
-/
namespace OpCatalog

variable {α κ : Type} [DecidableEq κ] {key : α → κ} {seen : List κ} {as : List α} {a : α}

/-- The entries whose key is not among `seen` and not that of an earlier one. -/
def firstOfEach (key : α → κ) : List κ → List α → List α
  | _, [] => []
  | seen, a :: as =>
    if key a ∈ seen then firstOfEach key seen as
    else a :: firstOfEach key (key a :: seen) as

theorem firstOfEach_sublist (key : α → κ) (seen : List κ) (as : List α) :
    (firstOfEach key seen as).Sublist as := by
  induction as generalizing seen with
  | nil => simp [firstOfEach]
  | cons a as ih =>
    rw [firstOfEach]
    split
    · exact (ih seen).cons a
    · exact (ih (key a :: seen)).cons_cons a

theorem key_not_mem_of_mem_firstOfEach (h : a ∈ firstOfEach key seen as) : key a ∉ seen := by
  induction as generalizing seen with
  | nil => simp [firstOfEach] at h
  | cons first as ih =>
    rw [firstOfEach] at h
    split at h
    · exact ih h
    · next hs =>
      rcases List.mem_cons.1 h with rfl | h
      · exact hs
      · exact fun hm => ih h (List.mem_cons_of_mem _ hm)

/-- No two entries are left with one key. -/
theorem nodup_firstOfEach (key : α → κ) (seen : List κ) (as : List α) :
    ((firstOfEach key seen as).map key).Nodup := by
  induction as generalizing seen with
  | nil => simp [firstOfEach]
  | cons a as ih =>
    rw [firstOfEach]
    split
    · exact ih seen
    · rw [List.map_cons, List.nodup_cons]
      refine ⟨fun hm => ?_, ih (key a :: seen)⟩
      obtain ⟨other, hother, he⟩ := List.mem_map.1 hm
      exact key_not_mem_of_mem_firstOfEach hother (by simp [he])

/-- A search for a key that has not been seen finds the entry that is kept. -/
theorem find?_firstOfEach {k : κ} (h : k ∉ seen) :
    (firstOfEach key seen as).find? (key · = k) = as.find? (key · = k) := by
  induction as generalizing seen with
  | nil => rfl
  | cons a as ih =>
    rw [firstOfEach]
    by_cases hk : key a = k
    · have hs : key a ∉ seen := hk ▸ h
      rw [if_neg hs, List.find?_cons_of_pos (by simpa using hk),
        List.find?_cons_of_pos (by simpa using hk)]
    · rw [List.find?_cons_of_neg (l := as) (by simpa using hk)]
      split
      · exact ih h
      · rw [List.find?_cons_of_neg (by simpa using hk)]
        have hk' : k ∉ key a :: seen := by
          intro hm
          rcases List.mem_cons.1 hm with rfl | hm
          · exact hk rfl
          · exact h hm
        exact ih hk'

/-- Where keys are unique, an entry is the one that a search for its key finds. -/
theorem find?_eq_some_of_nodup (hd : (as.map key).Nodup) (ha : a ∈ as) :
    as.find? (key · = key a) = some a := by
  induction as with
  | nil => simp at ha
  | cons first as ih =>
    rw [List.map_cons, List.nodup_cons] at hd
    rcases List.mem_cons.1 ha with rfl | ha
    · simp
    · have hne : key first ≠ key a := by
        intro he
        exact hd.1 (he ▸ List.mem_map_of_mem ha)
      rw [List.find?_cons_of_neg (by simpa using hne)]
      exact ih hd.2 ha

theorem mem_firstOfEach_iff :
    a ∈ firstOfEach key seen as ↔ key a ∉ seen ∧ as.find? (key · = key a) = some a := by
  constructor
  · intro h
    have hs := key_not_mem_of_mem_firstOfEach h
    have hf := find?_eq_some_of_nodup (nodup_firstOfEach key seen as) h
    rw [find?_firstOfEach hs] at hf
    exact ⟨hs, hf⟩
  · rintro ⟨hs, hf⟩
    rw [← find?_firstOfEach hs] at hf
    exact List.mem_of_find?_eq_some hf

/-- Entries with keys of their own are all kept. -/
theorem firstOfEach_of_nodup (hd : (as.map key).Nodup) (hs : ∀ a ∈ as, key a ∉ seen) :
    firstOfEach key seen as = as := by
  induction as generalizing seen with
  | nil => rfl
  | cons a as ih =>
    rw [List.map_cons, List.nodup_cons] at hd
    rw [firstOfEach, if_neg (hs a List.mem_cons_self)]
    apply congrArg (a :: ·)
    apply ih hd.2
    intro b hb hm
    rcases List.mem_cons.1 hm with he | hm
    · exact hd.1 (he ▸ List.mem_map_of_mem hb)
    · exact hs b (List.mem_cons_of_mem _ hb) hm

/-- A change of the entries that leaves their keys alone may come before or after. -/
theorem firstOfEach_map {β : Type} {keyOf : β → κ} {f : α → β} (hf : ∀ a, keyOf (f a) = key a) :
    firstOfEach keyOf seen (as.map f) = (firstOfEach key seen as).map f := by
  induction as generalizing seen with
  | nil => rfl
  | cons a as ih =>
    rw [List.map_cons, firstOfEach, firstOfEach, hf]
    split
    · exact ih
    · rw [List.map_cons, ih]

/-- Every key has a first entry. -/
theorem mem_map_firstOfEach_iff {k : κ} :
    k ∈ (firstOfEach key [] as).map key ↔ k ∈ as.map key := by
  constructor
  · exact fun h => ((firstOfEach_sublist key [] as).map key).subset h
  · intro h
    obtain ⟨a, ha, rfl⟩ := List.mem_map.1 h
    cases hf : as.find? (key · = key a) with
    | none => exact absurd (List.find?_eq_none.1 hf a ha) (by simp)
    | some first =>
      rw [← find?_firstOfEach List.not_mem_nil] at hf
      have hk : key first = key a := by simpa using List.find?_some hf
      exact hk ▸ List.mem_map_of_mem (List.mem_of_find?_eq_some hf)

/-- Entries of unwanted keys can be left out before or after only the first of each is kept. -/
theorem firstOfEach_filter (wanted : κ → Bool) {seen' : List κ}
    (hseen : ∀ k, wanted k = true → (k ∈ seen ↔ k ∈ seen')) :
    firstOfEach key seen (as.filter (wanted ∘ key)) =
      (firstOfEach key seen' as).filter (wanted ∘ key) := by
  induction as generalizing seen seen' with
  | nil => rfl
  | cons a as ih =>
    cases hw : wanted (key a) with
    | false =>
      -- A key that is not wanted makes no difference among those that have been seen.
      have hskip : ∀ k, wanted k = true → (k ∈ seen ↔ k ∈ key a :: seen') := by
        intro k hk
        rw [hseen k hk, List.mem_cons]
        refine (or_iff_right ?_).symm
        rintro rfl
        rw [hw] at hk
        cases hk
      rw [List.filter_cons_of_neg (by simp [hw]), firstOfEach]
      split
      · exact ih hseen
      · rw [List.filter_cons_of_neg (by simp [hw])]
        exact ih hskip
    | true =>
      have hkeep : ∀ k, wanted k = true → (k ∈ key a :: seen ↔ k ∈ key a :: seen') := by
        intro k hk
        rw [List.mem_cons, List.mem_cons, hseen k hk]
      rw [List.filter_cons_of_pos (by simpa using hw), firstOfEach, firstOfEach]
      by_cases hs : key a ∈ seen'
      · rw [if_pos hs, if_pos ((hseen _ hw).2 hs)]
        exact ih hseen
      · rw [if_neg hs, if_neg (mt (hseen _ hw).1 hs), List.filter_cons_of_pos (by simpa using hw),
          ih hkeep]

/-- Which keys have been seen matters, not in which order or how often. -/
theorem firstOfEach_congr {seen' : List κ} (h : ∀ k, k ∈ seen ↔ k ∈ seen') :
    firstOfEach key seen as = firstOfEach key seen' as := by
  have hall : ∀ l : List α, l.filter ((fun _ => true) ∘ key) = l :=
    fun _ => List.filter_eq_self.2 fun _ _ => rfl
  have hfilter : firstOfEach key seen (as.filter ((fun _ => true) ∘ key)) =
      (firstOfEach key seen' as).filter ((fun _ => true) ∘ key) :=
    firstOfEach_filter (fun _ => true) fun k _ => h k
  rwa [hall, hall] at hfilter

/-- What comes later is kept if no earlier entry has its key. -/
theorem firstOfEach_append (key : α → κ) (seen : List κ) (as bs : List α) :
    firstOfEach key seen (as ++ bs) =
      firstOfEach key seen as ++ firstOfEach key (as.map key ++ seen) bs := by
  induction as generalizing seen with
  | nil => rfl
  | cons a as ih =>
    rw [List.cons_append, firstOfEach, firstOfEach]
    by_cases hs : key a ∈ seen
    · rw [if_pos hs, if_pos hs, ih seen]
      congr 1
      apply firstOfEach_congr
      intro k
      simp only [List.map_cons, List.cons_append, List.mem_cons, List.mem_append]
      refine (or_iff_right_of_imp ?_).symm
      rintro rfl
      exact Or.inr hs
    · rw [if_neg hs, if_neg hs, ih (key a :: seen), List.cons_append]
      congr 2
      apply firstOfEach_congr
      intro k
      simp only [List.map_cons, List.cons_append, List.mem_cons, List.mem_append, or_left_comm]

/-! ## Stable sorts -/

section Sorts

variable {le : α → α → Bool} (trans : ∀ a b c, le a b → le b c → le a c)
  (total : ∀ a b, le a b || le b a)

include trans total

/-- A sort leaves entries that are level with each other in their order. -/
theorem filter_mergeSort {p : α → Bool} (level : ∀ a b, p a → p b → le a b) (as : List α) :
    (as.mergeSort le).filter p = as.filter p := by
  have hs : (as.filter p).Pairwise fun a b => le a b = true := by
    refine List.Pairwise.imp_of_mem ?_ (List.pairwise_of_forall (R := fun _ _ => True) (by simp))
    intro a b ha hb _
    exact level a b (List.mem_filter.1 ha).2 (List.mem_filter.1 hb).2
  have hsub := (List.sublist_mergeSort trans total hs List.filter_sublist).filter p
  simp only [List.filter_filter, Bool.and_self] at hsub
  have hlen := ((List.mergeSort_perm as le).filter p).length_eq
  exact (hsub.eq_of_length hlen.symm).symm

/-- Sorting by key and keeping the first of each key can be done in either order. -/
theorem firstOfEach_mergeSort (level : ∀ a b, key a = key b → le a b)
    (anti : ∀ a b, le a b → le b a → key a = key b) (as : List α) :
    firstOfEach key [] (as.mergeSort le) = (firstOfEach key [] as).mergeSort le := by
  have hfind : ∀ k, (as.mergeSort le).find? (key · = k) = as.find? (key · = k) := by
    intro k
    rw [← List.head?_filter, ← List.head?_filter, filter_mergeSort trans total]
    intro a b ha hb
    exact level a b ((of_decide_eq_true ha).trans (of_decide_eq_true hb).symm)
  have hmem : ∀ a, a ∈ firstOfEach key [] (as.mergeSort le) ↔
      a ∈ (firstOfEach key [] as).mergeSort le := by
    intro a
    rw [List.mem_mergeSort, mem_firstOfEach_iff, mem_firstOfEach_iff, hfind]
  have nodup_of : ∀ bs : List α, (bs.map key).Nodup → bs.Nodup :=
    fun bs h => List.Pairwise.of_map key (fun _ _ hne he => hne (congrArg key he)) h
  have hleft := nodup_firstOfEach key [] (as.mergeSort le)
  have hright := (((firstOfEach key [] as).mergeSort_perm le).map key).nodup_iff.2
    (nodup_firstOfEach key [] as)
  have hperm := (List.perm_ext_iff_of_nodup (nodup_of _ hleft) (nodup_of _ hright)).2 hmem
  have hsorted := (List.pairwise_mergeSort trans total as).sublist (firstOfEach_sublist key [] _)
  refine hperm.eq_of_pairwise ?_ hsorted (List.pairwise_mergeSort trans total _)
  -- Of two level entries with the same key both searches find the same one.
  intro a b ha hb hab hba
  have hk := anti a b hab hba
  have hfa := find?_eq_some_of_nodup hleft ha
  have hfb := find?_eq_some_of_nodup hleft ((hmem b).2 hb)
  rw [hk, hfb] at hfa
  exact (Option.some.inj hfa).symm

end Sorts

end OpCatalog
