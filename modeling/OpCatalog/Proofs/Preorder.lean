import OpCatalog.Proofs.Forest
import Mathlib.Data.List.Perm.Subperm

/-!
# Visits in preorder

A visit keeps a stack of the trees that are still to come and knows neither depth nor what it
has visited. `preorder_subtypes` says that it is the recursive depth-first preorder all
the same, and that the bound on its steps is never what ends it.
-/
namespace OpCatalog

namespace Forest

variable {f : Forest} {t u a b p : TypeHandle} {e : TypeEntry} {ts us order after : List TypeHandle}

/-- A type is another one or derives from it. -/
inductive Descends (f : Forest) : TypeHandle → TypeHandle → Prop
  | refl (t : TypeHandle) : Descends f t t
  | step {t p a : TypeHandle} : f.parent? t = some p → Descends f p a → Descends f t a

/-- The trees below the types of a list in depth-first preorder: a type, the trees below its
children, and then the trees of the rest. -/
inductive Preorder (f : Forest) : List TypeHandle → List TypeHandle → Prop
  | nil : Preorder f [] []
  | cons {t : TypeHandle} {e : TypeEntry} {rest below after : List TypeHandle} :
    f.entry? t = some e → Preorder f e.children below → Preorder f rest after →
      Preorder f (t :: rest) (t :: (below ++ after))

/-! ## Ancestors -/

theorem Descends.trans (h : f.Descends t u) (h' : f.Descends u a) : f.Descends t a := by
  induction h with
  | refl => exact h'
  | step hp _ ih => exact Descends.step hp (ih h')

theorem Descends.le (hf : f.WellFormed) (h : f.Descends t a) : a.raw ≤ t.raw := by
  induction h with
  | refl => exact Nat.le_refl _
  | step hp _ ih =>
    have := (hf.parent_lt hp).2
    omega

theorem isSome_entry?_of_parent? (h : f.parent? t = some p) : (f.entry? t).isSome := by
  cases he : f.entry? t with
  | none => simp [parent?, he] at h
  | some e => rfl

/-- Two ancestors of a type are ancestor and descendant of each other. -/
theorem Descends.comparable (h : f.Descends t a) (h' : f.Descends t b) :
    f.Descends a b ∨ f.Descends b a := by
  induction h with
  | refl => exact Or.inl h'
  | step hp hpa ih =>
    cases h' with
    | refl => exact Or.inr (Descends.step hp hpa)
    | step hp' hpb =>
      rw [hp] at hp'
      cases hp'
      exact ih hpb

theorem WellFormed.mem_children_iff (hf : f.WellFormed) (h : f.entry? t = some e) :
    u ∈ e.children ↔ f.parent? u = some t := by
  rw [hf.children_eq h, List.mem_filter, mem_handles_iff, decide_eq_true_eq]
  exact and_iff_right_of_imp isSome_entry?_of_parent?

theorem nodup_handles (f : Forest) : f.handles.Nodup := by
  rw [handles, List.nodup_iff_pairwise_ne, List.pairwise_map]
  apply List.nodup_range.imp
  intro m n hne he
  exact hne (by simpa using he)

/-! ## The preorder -/

theorem Preorder.append (h : f.Preorder ts order) (h' : f.Preorder us after) :
    f.Preorder (ts ++ us) (order ++ after) := by
  induction h with
  | nil => exact h'
  | cons he hbelow _ _ ih =>
    have h := Preorder.cons he hbelow ih
    rwa [← List.append_assoc, ← List.cons_append] at h

/-- Children have larger handles than their parent, so the recursion ends. -/
theorem WellFormed.exists_preorder (hf : f.WellFormed) (n : Nat) {ts : List TypeHandle}
    (h : ∀ t ∈ ts, (f.entry? t).isSome ∧ f.size < t.raw + n) : ∃ order, f.Preorder ts order := by
  induction n generalizing ts with
  | zero =>
    cases ts with
    | nil => exact ⟨[], Preorder.nil⟩
    | cons t ts =>
      obtain ⟨hsome, hlt⟩ := h t List.mem_cons_self
      have := (isSome_entry?_iff.1 hsome).2
      omega
  | succ n ih =>
    induction ts with
    | nil => exact ⟨[], Preorder.nil⟩
    | cons t ts ihts =>
      obtain ⟨hsome, hlt⟩ := h t List.mem_cons_self
      obtain ⟨e, he⟩ := Option.isSome_iff_exists.1 hsome
      have hchildren : ∀ c ∈ e.children, (f.entry? c).isSome ∧ f.size < c.raw + n := by
        intro c hc
        have hp := (hf.mem_children_iff he).1 hc
        have := (hf.parent_lt hp).2
        exact ⟨isSome_entry?_of_parent? hp, by omega⟩
      obtain ⟨below, hbelow⟩ := ih hchildren
      obtain ⟨after, hafter⟩ := ihts fun u hu => h u (List.mem_cons_of_mem _ hu)
      exact ⟨_, Preorder.cons he hbelow hafter⟩

theorem Preorder.subset (h : f.Preorder ts order) : ts ⊆ order := by
  induction h with
  | nil => simp
  | cons _ _ _ _ ih =>
    intro u hu
    rcases List.mem_cons.1 hu with rfl | hu
    · exact List.mem_cons_self
    · exact List.mem_cons_of_mem _ (List.mem_append_right _ (ih hu))

theorem Preorder.child_mem (hf : f.WellFormed) (h : f.Preorder ts order) (hp : p ∈ order)
    (hu : f.parent? u = some p) : u ∈ order := by
  induction h with
  | nil => simp at hp
  | cons he hbelow _ ih ih' =>
    rcases List.mem_cons.1 hp with rfl | hp
    · have hc := (hf.mem_children_iff he).2 hu
      exact List.mem_cons_of_mem _ (List.mem_append_left _ (hbelow.subset hc))
    · apply List.mem_cons_of_mem
      apply List.mem_append.2
      rcases List.mem_append.1 hp with hp | hp
      · exact Or.inl (ih hp)
      · exact Or.inr (ih' hp)

theorem Preorder.exists_descends (hf : f.WellFormed) (h : f.Preorder ts order) (hu : u ∈ order) :
    ∃ t ∈ ts, f.Descends u t := by
  induction h with
  | nil => simp at hu
  | cons he _ _ ih ih' =>
    rcases List.mem_cons.1 hu with rfl | hu
    · exact ⟨_, List.mem_cons_self, Descends.refl _⟩
    · rcases List.mem_append.1 hu with hu | hu
      · obtain ⟨c, hc, hdesc⟩ := ih hu
        have hp := (hf.mem_children_iff he).1 hc
        exact ⟨_, List.mem_cons_self, hdesc.trans (Descends.step hp (Descends.refl _))⟩
      · obtain ⟨t, ht, hdesc⟩ := ih' hu
        exact ⟨t, List.mem_cons_of_mem _ ht, hdesc⟩

/-- The types in the preorder are the roots of the trees and what derives from them. -/
theorem Preorder.mem_iff (hf : f.WellFormed) (h : f.Preorder ts order) :
    u ∈ order ↔ ∃ t ∈ ts, f.Descends u t := by
  refine ⟨h.exists_descends hf, ?_⟩
  rintro ⟨t, ht, hdesc⟩
  induction hdesc with
  | refl => exact h.subset ht
  | step hp _ ih => exact h.child_mem hf (ih ht) hp

/-! ## Each type once -/

/-- The trees below two types have no type in common. -/
def Apart (f : Forest) (a b : TypeHandle) : Prop := ¬f.Descends a b ∧ ¬f.Descends b a

/-- No child of a type derives from another one. -/
theorem WellFormed.not_descends_of_siblings (hf : f.WellFormed) (ha : f.parent? a = some p)
    (hb : f.parent? b = some p) (hne : a ≠ b) : ¬f.Descends a b := by
  intro h
  cases h with
  | refl => exact hne rfl
  | step hp hdesc =>
    rw [ha] at hp
    cases hp
    have hle := hdesc.le hf
    have hlt := (hf.parent_lt hb).2
    omega

theorem WellFormed.pairwise_apart_children (hf : f.WellFormed) (h : f.entry? t = some e) :
    e.children.Pairwise f.Apart := by
  have hnodup : e.children.Nodup := by
    rw [hf.children_eq h]
    exact (nodup_handles f).filter _
  refine List.Pairwise.imp_of_mem ?_ hnodup
  intro a b ha hb hne
  have hpa := (hf.mem_children_iff h).1 ha
  have hpb := (hf.mem_children_iff h).1 hb
  exact ⟨hf.not_descends_of_siblings hpa hpb hne, hf.not_descends_of_siblings hpb hpa hne.symm⟩

theorem Preorder.nodup (hf : f.WellFormed) (h : f.Preorder ts order) (hts : ts.Pairwise f.Apart) :
    order.Nodup := by
  induction h with
  | nil => exact List.nodup_nil
  | @cons t e rest below after he hbelow hafter ih ih' =>
    obtain ⟨hapart, hrest⟩ := List.pairwise_cons.1 hts
    have hdown : ∀ u ∈ below, f.Descends u t ∧ t.raw < u.raw := by
      intro u hu
      obtain ⟨c, hc, hdesc⟩ := hbelow.exists_descends hf hu
      have hp := (hf.mem_children_iff he).1 hc
      have hle := hdesc.le hf
      have hlt := (hf.parent_lt hp).2
      exact ⟨hdesc.trans (Descends.step hp (Descends.refl t)), by omega⟩
    -- What derives from `t` and from a type of the rest would make the two comparable.
    have hside : ∀ u ∈ after, ¬f.Descends u t := by
      intro u hu hdesc
      obtain ⟨r, hr, hdesc'⟩ := hafter.exists_descends hf hu
      rcases hdesc.comparable hdesc' with h | h
      · exact (hapart r hr).1 h
      · exact (hapart r hr).2 h
    rw [List.nodup_cons, List.nodup_append]
    refine ⟨?_, ih (hf.pairwise_apart_children he), ih' hrest, ?_⟩
    · intro hmem
      rcases List.mem_append.1 hmem with hmem | hmem
      · exact Nat.lt_irrefl _ (hdown t hmem).2
      · exact hside t hmem (Descends.refl t)
    · intro u hu v hv heq
      exact hside v hv (heq ▸ (hdown u hu).1)

/-! ## The visit -/

/-- What is left on the stack is visited in preorder if there are steps enough. -/
theorem visit_eq_of_preorder {fuel : Nat} (h : f.Preorder ts order) (hfuel : order.length ≤ fuel) :
    f.visit fuel ts = order := by
  induction fuel generalizing ts order with
  | zero =>
    have hnil : order = [] := List.eq_nil_of_length_eq_zero (by omega)
    rw [visit, hnil]
  | succ fuel ih =>
    cases h with
    | nil => rfl
    | cons he hbelow hafter =>
      simp only [visit, he, Option.map_some, Option.getD_some]
      apply congrArg (_ :: ·)
      apply ih (hbelow.append hafter)
      simpa using hfuel

theorem Preorder.length_le (hf : f.WellFormed) (h : f.Preorder ts order) (hd : order.Nodup)
    (hts : ∀ t ∈ ts, (f.entry? t).isSome) : order.length ≤ f.size := by
  have hsub : order ⊆ f.handles := by
    intro u hu
    rw [mem_handles_iff]
    obtain ⟨t, ht, hdesc⟩ := h.exists_descends hf hu
    cases hdesc with
    | refl => exact hts _ ht
    | step hp _ => exact isSome_entry?_of_parent? hp
  have hle := (List.subperm_of_subset hd hsub).length_le
  simpa [handles] using hle

theorem WellFormed.preorder_subtypes (hf : f.WellFormed) (h : (f.entry? t).isSome) :
    f.Preorder [t] (f.subtypes t) := by
  have hroots : ∀ u ∈ [t], (f.entry? u).isSome ∧ f.size < u.raw + (f.size + 1) := by
    intro u hu
    rw [List.mem_singleton.1 hu]
    exact ⟨h, by omega⟩
  obtain ⟨order, horder⟩ := hf.exists_preorder (f.size + 1) hroots
  have hnodup := horder.nodup hf (List.pairwise_singleton _ _)
  have hlen := horder.length_le hf hnodup fun u hu => (hroots u hu).1
  rw [subtypes, if_pos h, visit_eq_of_preorder horder hlen]
  exact horder

theorem WellFormed.nodup_subtypes (hf : f.WellFormed) (t : TypeHandle) : (f.subtypes t).Nodup := by
  by_cases h : (f.entry? t).isSome
  · exact (hf.preorder_subtypes h).nodup hf (List.pairwise_singleton _ _)
  · rw [subtypes, if_neg h]
    exact List.nodup_nil

theorem WellFormed.mem_subtypes_iff (hf : f.WellFormed) (h : (f.entry? t).isSome) :
    u ∈ f.subtypes t ↔ f.Descends u t := by
  rw [(hf.preorder_subtypes h).mem_iff hf]
  simp

end Forest

end OpCatalog
