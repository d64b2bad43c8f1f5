import OpCatalog.Discovery.Category
import OpCatalog.Registry.Tabulated
import Mathlib.Data.List.Perm.Subperm

/-!
# The nearest ancestor in the table

The walk that looks for a category goes from parent to parent, and nothing keeps the parents that
a registry gives from running in a circle. `ancestorCategory?_nearest` says that the walk ends all
the same, that nothing is lost where it turns away from an ancestor that it has met before, and
which ancestor it is that gives the category.
-/
namespace OpCatalog

namespace Registry

variable {σ : Type} {reg : Registry σ} {roots visited : List TypeHandle} {rootNames : List String}
  {t a : TypeHandle} {next : Option TypeHandle} {found : Option String} {category : String}
  {m n k : Nat}

/-- The ancestors of a type, counted from its parent. -/
def ancestor? (reg : Registry σ) (t : TypeHandle) : Nat → Option TypeHandle
  | 0 => reg.parent? t
  | n + 1 => (reg.ancestor? t n).bind reg.parent?

/-- The name of the type is in the table, with the category. -/
def Tabled (reg : Registry σ) (a : TypeHandle) (category : String) : Prop :=
  ∃ name, reg.typeName? a = some name ∧ (name, category) ∈ ancestorCategories

/-- The ancestor `n` is the first whose name is in the table, and neither it nor one before it is
a root. -/
structure FirstTabled (reg : Registry σ) (roots : List TypeHandle) (t : TypeHandle) (n : Nat)
    (category : String) : Prop where
  tabled : ∃ a, reg.ancestor? t n = some a ∧ reg.Tabled a category
  below_roots : ∀ m ≤ n, ∀ a, reg.ancestor? t m = some a → a ∉ roots
  first : ∀ m < n, ∀ a, reg.ancestor? t m = some a → ∀ category, ¬reg.Tabled a category

/-- The loop that the walk is, with what it finds: it ends above the last ancestor, at a root,
where it has been before and at a name in the table, and otherwise goes on to the parent. -/
inductive Climbs (reg : Registry σ) (roots : List TypeHandle) :
    List TypeHandle → Option TypeHandle → Option String → Prop
  | top {visited : List TypeHandle} : Climbs reg roots visited none none
  | root {visited : List TypeHandle} {a : TypeHandle} :
    a ∈ roots → Climbs reg roots visited (some a) none
  | again {visited : List TypeHandle} {a : TypeHandle} :
    a ∈ visited → Climbs reg roots visited (some a) none
  | tabled {visited : List TypeHandle} {a : TypeHandle} {category : String} :
    a ∉ roots → a ∉ visited → reg.tabledCategory? a = some category →
      Climbs reg roots visited (some a) (some category)
  | up {visited : List TypeHandle} {a : TypeHandle} {found : Option String} :
    a ∉ roots → a ∉ visited → reg.tabledCategory? a = none →
      Climbs reg roots (a :: visited) (reg.parent? a) found →
        Climbs reg roots visited (some a) found

/-! ## The table -/

theorem categoryOfAncestor?_eq_some_iff {name : String} :
    categoryOfAncestor? name = some category ↔ (name, category) ∈ ancestorCategories := by
  constructor
  · intro h
    obtain ⟨before, after, heq, -⟩ := List.lookup_eq_some_iff.1 h
    rw [heq]
    exact List.mem_append_right before List.mem_cons_self
  · have hrows : ∀ row ∈ ancestorCategories, categoryOfAncestor? row.1 = some row.2 := by decide
    exact hrows (name, category)

theorem tabledCategory?_eq_some_iff :
    reg.tabledCategory? a = some category ↔ reg.Tabled a category := by
  simp only [tabledCategory?, Option.bind_eq_some_iff, categoryOfAncestor?_eq_some_iff, Tabled]

theorem tabledCategory?_eq_none_iff :
    reg.tabledCategory? a = none ↔ ∀ category, ¬reg.Tabled a category := by
  simp only [Option.eq_none_iff_forall_not_mem, Option.mem_def, tabledCategory?_eq_some_iff]

/-! ## The end of the loop -/

/-- The loop ends before its bound: the types that it has been to are different and, but for the
last one, have parents. -/
theorem climbs_categoryFrom? {fuel : Nat} (hfuel : visited.length + fuel = reg.size + 1)
    (hnodup : visited.Nodup) (hparents : next.isSome → ∀ a ∈ visited, (reg.parent? a).isSome) :
    reg.Climbs roots visited next (reg.categoryFrom? roots fuel visited next) := by
  induction fuel generalizing visited next with
  | zero =>
    cases next with
    | none => exact Climbs.top
    | some a =>
      obtain ⟨known, hknown, hall⟩ := reg.parents_finite
      have hsub : visited ⊆ known := fun b hb => hall b (hparents rfl b hb)
      have hle := (hnodup.subperm hsub).length_le
      omega
  | succ fuel ih =>
    cases next with
    | none => exact Climbs.top
    | some a =>
      rw [categoryFrom?]
      by_cases hroot : a ∈ roots
      · rw [if_pos (by simp [hroot])]
        exact Climbs.root hroot
      by_cases hvisited : a ∈ visited
      · rw [if_pos (by simp [hvisited])]
        exact Climbs.again hvisited
      rw [if_neg (by simp [hroot, hvisited])]
      cases htable : reg.tabledCategory? a with
      | some category => exact Climbs.tabled hroot hvisited htable
      | none =>
        refine Climbs.up hroot hvisited htable (ih ?_ (List.nodup_cons.2 ⟨hvisited, hnodup⟩) ?_)
        · rw [List.length_cons]
          omega
        · intro hnext b hb
          rcases List.mem_cons.1 hb with rfl | hb
          · exact hnext
          · exact hparents rfl b hb

theorem Climbs.unique {found' : Option String} (h : reg.Climbs roots visited next found)
    (h' : reg.Climbs roots visited next found') : found = found' := by
  induction h with
  | top => cases h'; rfl
  | root hroot =>
    cases h' with
    | root => rfl
    | again => rfl
    | tabled hnot => exact absurd hroot hnot
    | up hnot => exact absurd hroot hnot
  | again hvisited =>
    cases h' with
    | root => rfl
    | again => rfl
    | tabled _ hnot => exact absurd hvisited hnot
    | up _ hnot => exact absurd hvisited hnot
  | tabled hroot hvisited htable =>
    cases h' with
    | root hin => exact absurd hin hroot
    | again hin => exact absurd hin hvisited
    | tabled _ _ htable' => exact htable.symm.trans htable'
    | up _ _ hnone => rw [htable] at hnone; cases hnone
  | up hroot hvisited hnone _ ih =>
    cases h' with
    | root hin => exact absurd hin hroot
    | again hin => exact absurd hin hvisited
    | tabled _ _ htable => rw [hnone] at htable; cases htable
    | up _ _ _ hup => exact ih hup

/-! ## What the loop has gone past -/

/-- From one type on, the ancestors are the same wherever the type is met. -/
theorem ancestor?_add (h : reg.ancestor? t m = reg.ancestor? t n) (k : Nat) :
    reg.ancestor? t (m + k) = reg.ancestor? t (n + k) := by
  induction k with
  | zero => exact h
  | succ k ih => exact congrArg (Option.bind · reg.parent?) ih

theorem FirstTabled.unique {category' : String} (h : reg.FirstTabled roots t n category)
    (h' : reg.FirstTabled roots t k category') : n = k := by
  obtain ⟨a, ha, hin⟩ := h.tabled
  obtain ⟨b, hb, hin'⟩ := h'.tabled
  rcases Nat.lt_trichotomy n k with hlt | heq | hlt
  · exact absurd hin (h'.first n hlt a ha category)
  · exact heq
  · exact absurd hin' (h.first k hlt b hb category')

/-- The loop has come to the ancestor `n`, and none of those before it has ended it. -/
structure Passed (reg : Registry σ) (roots : List TypeHandle) (t : TypeHandle) (n : Nat)
    (visited : List TypeHandle) : Prop where
  mem_iff : ∀ a, a ∈ visited ↔ ∃ m < n, reg.ancestor? t m = some a
  not_root : ∀ a ∈ visited, a ∉ roots
  not_tabled : ∀ a ∈ visited, ∀ category, ¬reg.Tabled a category

theorem passed_zero : reg.Passed roots t 0 [] :=
  ⟨by simp, by simp, by simp⟩

theorem Passed.succ (h : reg.Passed roots t n visited) (ha : reg.ancestor? t n = some a)
    (hroot : a ∉ roots) (hnone : reg.tabledCategory? a = none) :
    reg.Passed roots t (n + 1) (a :: visited) where
  mem_iff := by
    intro b
    rw [List.mem_cons, h.mem_iff]
    constructor
    · rintro (rfl | ⟨m, hm, hb⟩)
      · exact ⟨n, Nat.lt_succ_self n, ha⟩
      · exact ⟨m, Nat.lt_succ_of_lt hm, hb⟩
    · rintro ⟨m, hm, hb⟩
      rcases Nat.lt_succ_iff_lt_or_eq.1 hm with hlt | rfl
      · exact Or.inr ⟨m, hlt, hb⟩
      · exact Or.inl (Option.some.inj (hb.symm.trans ha))
  not_root := by
    intro b hb
    rcases List.mem_cons.1 hb with rfl | hb
    · exact hroot
    · exact h.not_root b hb
  not_tabled := by
    intro b hb
    rcases List.mem_cons.1 hb with rfl | hb
    · exact tabledCategory?_eq_none_iff.1 hnone
    · exact h.not_tabled b hb

/-- What gives the category is still to come. -/
theorem Passed.le (h : reg.Passed roots t n visited) (hfirst : reg.FirstTabled roots t k category) :
    n ≤ k := by
  obtain ⟨a, ha, hin⟩ := hfirst.tabled
  by_contra hlt
  exact h.not_tabled a ((h.mem_iff a).2 ⟨k, Nat.lt_of_not_le hlt, ha⟩) category hin

/-- The first ancestor in the table comes before the walk repeats itself. -/
theorem Passed.not_firstTabled_of_mem (h : reg.Passed roots t n visited)
    (ha : reg.ancestor? t n = some a) (hvisited : a ∈ visited) :
    ¬reg.FirstTabled roots t k category := by
  intro hfirst
  obtain ⟨m, hm, hma⟩ := (h.mem_iff a).1 hvisited
  obtain ⟨b, hb, hin⟩ := hfirst.tabled
  have hle := h.le hfirst
  -- What comes `k - n` steps after the repetition came as many steps after the first visit.
  have hback := ancestor?_add (hma.trans ha.symm) (k - n)
  rw [Nat.add_sub_cancel' hle] at hback
  exact hfirst.first (m + (k - n)) (by omega) b (hback.trans hb) category hin

/-- The loop finds what the first ancestor in the table gives, if there is one. -/
theorem Climbs.eq_some_iff (h : reg.Climbs roots visited next found)
    (hpassed : reg.Passed roots t n visited) (hnext : reg.ancestor? t n = next) :
    found = some category ↔ ∃ k, reg.FirstTabled roots t k category := by
  induction h generalizing n with
  | top =>
    refine ⟨nofun, ?_⟩
    rintro ⟨k, hfirst⟩
    obtain ⟨b, hb, -⟩ := hfirst.tabled
    have habove : ∀ j, reg.ancestor? t (n + j) = none := by
      intro j
      induction j with
      | zero => exact hnext
      | succ j ih => exact congrArg (Option.bind · reg.parent?) ih
    have hnone := habove (k - n)
    rw [Nat.add_sub_cancel' (hpassed.le hfirst), hb] at hnone
    cases hnone
  | root hroot =>
    refine ⟨nofun, ?_⟩
    rintro ⟨k, hfirst⟩
    exact absurd hroot (hfirst.below_roots n (hpassed.le hfirst) _ hnext)
  | again hvisited =>
    refine ⟨nofun, ?_⟩
    rintro ⟨k, hfirst⟩
    exact absurd hfirst (hpassed.not_firstTabled_of_mem hnext hvisited)
  | @tabled visited a own hroot _ htable =>
    have hown : reg.FirstTabled roots t n own := by
      refine ⟨⟨a, hnext, tabledCategory?_eq_some_iff.1 htable⟩, ?_, ?_⟩
      · intro m hm b hb
        rcases Nat.lt_or_eq_of_le hm with hlt | rfl
        · exact hpassed.not_root b ((hpassed.mem_iff b).2 ⟨m, hlt, hb⟩)
        · rw [hnext] at hb
          cases hb
          exact hroot
      · intro m hm b hb
        exact hpassed.not_tabled b ((hpassed.mem_iff b).2 ⟨m, hm, hb⟩)
    constructor
    · rintro ⟨⟩
      exact ⟨n, hown⟩
    · rintro ⟨k, hfirst⟩
      cases hown.unique hfirst
      obtain ⟨b, hb, hin⟩ := hfirst.tabled
      cases hnext.symm.trans hb
      rw [← htable]
      exact tabledCategory?_eq_some_iff.2 hin
  | @up visited a found hroot _ hnone _ ih =>
    refine ih (hpassed.succ hnext hroot hnone) ?_
    rw [ancestor?, hnext, Option.bind_some]

/-! ## Categories -/

theorem climbs_ancestorCategory? (reg : Registry σ) (rootNames : List String) (t : TypeHandle) :
    reg.Climbs (reg.roots rootNames) [] (reg.parent? t) (reg.ancestorCategory? rootNames t) :=
  climbs_categoryFrom? (Nat.zero_add _) List.nodup_nil (by simp)

theorem ancestorCategory?_eq_some_iff :
    reg.ancestorCategory? rootNames t = some category ↔
      ∃ n, reg.FirstTabled (reg.roots rootNames) t n category :=
  (climbs_ancestorCategory? reg rootNames t).eq_some_iff passed_zero rfl

theorem ancestorCategory?_eq_none_iff :
    reg.ancestorCategory? rootNames t = none ↔
      ∀ n category, ¬reg.FirstTabled (reg.roots rootNames) t n category := by
  rw [Option.eq_none_iff_forall_not_mem]
  simp only [Option.mem_def, ancestorCategory?_eq_some_iff, not_exists]
  exact forall_comm

/-- Only which types are roots matters, not how they are listed. -/
theorem ancestorCategory?_congr {rootNames' : List String}
    (h : ∀ a, a ∈ reg.roots rootNames ↔ a ∈ reg.roots rootNames') (t : TypeHandle) :
    reg.ancestorCategory? rootNames t = reg.ancestorCategory? rootNames' t := by
  have hfirst : ∀ {roots roots' : List TypeHandle}, (∀ a, a ∈ roots ↔ a ∈ roots') →
      ∀ n category, reg.FirstTabled roots t n category → reg.FirstTabled roots' t n category :=
    fun heq n category h' =>
      ⟨h'.tabled, fun m hm a ha => mt (heq a).2 (h'.below_roots m hm a ha), h'.first⟩
  apply Option.ext
  intro category
  rw [ancestorCategory?_eq_some_iff, ancestorCategory?_eq_some_iff]
  exact exists_congr fun n => ⟨hfirst h n category, hfirst (fun a => (h a).symm) n category⟩

theorem mem_roots_congr {rootNames' : List String}
    (h : ∀ name, (reg.lookup? name).isSome → (name ∈ rootNames ↔ name ∈ rootNames'))
    (a : TypeHandle) : a ∈ reg.roots rootNames ↔ a ∈ reg.roots rootNames' := by
  rw [roots, roots, List.mem_filterMap, List.mem_filterMap]
  refine exists_congr fun name => ?_
  constructor
  · rintro ⟨hmem, hl⟩
    exact ⟨(h name (Option.isSome_of_eq_some hl)).1 hmem, hl⟩
  · rintro ⟨hmem, hl⟩
    exact ⟨(h name (Option.isSome_of_eq_some hl)).2 hmem, hl⟩

/-- Whatever the parents are, the walk from a type ends, and its category is that of the first
ancestor whose name is in the table, if no root comes before that ancestor and it is none itself. A
type without such an ancestor has its own name as category. Of the names of roots it only matters
which of those that the registry knows are among them. -/
theorem ancestorCategory?_nearest (reg : Registry σ) (rootNames : List String) (t : TypeHandle) :
    (∀ found, reg.Climbs (reg.roots rootNames) [] (reg.parent? t) found ↔
      found = reg.ancestorCategory? rootNames t) ∧
    (∀ category, reg.ancestorCategory? rootNames t = some category ↔
      ∃ n, reg.FirstTabled (reg.roots rootNames) t n category) ∧
    (∀ n a, reg.ancestor? t n = some a → a ∈ reg.roots rootNames →
      (∀ m < n, ∀ b, reg.ancestor? t m = some b → ∀ category, ¬reg.Tabled b category) →
        reg.ancestorCategory? rootNames t = none) ∧
    (∀ name,
      (∀ n category, reg.FirstTabled (reg.roots rootNames) t n category →
        reg.category rootNames t name = category) ∧
      ((∀ n category, ¬reg.FirstTabled (reg.roots rootNames) t n category) →
        reg.ancestorCategory? rootNames t = none ∧ reg.category rootNames t name = name)) ∧
    ∀ rootNames', (∀ name, (reg.lookup? name).isSome → (name ∈ rootNames ↔ name ∈ rootNames')) →
      reg.ancestorCategory? rootNames t = reg.ancestorCategory? rootNames' t := by
  refine ⟨?_, fun category => ancestorCategory?_eq_some_iff, ?_, ?_, ?_⟩
  · intro found
    have h := climbs_ancestorCategory? reg rootNames t
    exact ⟨fun h' => h'.unique h, fun heq => heq ▸ h⟩
  · intro n a ha hroot huntabled
    rw [ancestorCategory?_eq_none_iff]
    intro k category hfirst
    obtain ⟨b, hb, hin⟩ := hfirst.tabled
    rcases Nat.lt_or_ge k n with hlt | hle
    · exact huntabled k hlt b hb category hin
    · exact hfirst.below_roots n hle a ha hroot
  · intro name
    constructor
    · intro n category hfirst
      rw [Registry.category, ancestorCategory?_eq_some_iff.2 ⟨n, hfirst⟩, Option.getD_some]
    · intro hnone
      have heq := ancestorCategory?_eq_none_iff.2 hnone
      exact ⟨heq, by rw [Registry.category, heq, Option.getD_none]⟩
  · intro rootNames' h
    exact ancestorCategory?_congr (mem_roots_congr h) t

end Registry

/-- Three types of which each has the next as parent, the first of them without a name and the
others in the table, a type below them, and one that is its own parent. -/
def circleTable : Table where
  types :=
    [{ handle := ⟨1⟩, parent := some ⟨2⟩ },
      { handle := ⟨2⟩, parent := some ⟨3⟩ },
      { handle := ⟨3⟩, name := some "VipsUnary", parent := some ⟨4⟩ },
      { handle := ⟨4⟩, name := some "VipsConversion", parent := some ⟨2⟩ },
      { handle := ⟨5⟩, parent := some ⟨5⟩ }]
  names := [("VipsUnary", ⟨3⟩)]

/-- The nearer of the two names decides, and as a root it hides the other one. Where there is no
name the walk comes back to where it was. -/
theorem Registry.ancestorCategory?_nearest_circle :
    circleTable.registry.category [] ⟨1⟩ "abs" = "arithmetic" ∧
      circleTable.registry.ancestorCategory? ["VipsUnary"] ⟨1⟩ = none ∧
      circleTable.registry.category ["VipsUnary"] ⟨5⟩ "abs" = "abs" ∧
      circleTable.registry.ancestorCategory? ["VipsUnary"] ⟨3⟩ =
        circleTable.registry.ancestorCategory? ["VipsObject", "VipsUnary", "VipsUnary"] ⟨3⟩ := by
  have unnamed : ∀ {a}, circleTable.registry.typeName? a = none →
      ∀ category, ¬circleTable.registry.Tabled a category := by
    rintro a hnone category ⟨name, hname, -⟩
    rw [hnone] at hname
    cases hname
  have second : ∀ m < 1, ∀ a, circleTable.registry.ancestor? ⟨1⟩ m = some a →
      ∀ category, ¬circleTable.registry.Tabled a category := by
    rintro m hm a ha
    obtain rfl : m = 0 := by omega
    cases ha
    exact unnamed rfl
  have alone : ∀ n, circleTable.registry.ancestor? ⟨5⟩ n = some ⟨5⟩ := by
    intro n
    induction n with
    | zero => rfl
    | succ n ih =>
      rw [ancestor?, ih]
      rfl
  refine ⟨?_, ?_, ?_, ?_⟩
  · refine ((ancestorCategory?_nearest circleTable.registry [] ⟨1⟩).2.2.2.1 "abs").1 1 _ ?_
    exact ⟨⟨⟨3⟩, rfl, "VipsUnary", rfl, by decide⟩, fun _ _ _ _ => by simp [roots], second⟩
  · exact (ancestorCategory?_nearest circleTable.registry ["VipsUnary"] ⟨1⟩).2.2.1 1 ⟨3⟩ rfl
      (by decide) second
  · refine (((ancestorCategory?_nearest circleTable.registry ["VipsUnary"] ⟨5⟩).2.2.2.1
      "abs").2 ?_).2
    rintro n category ⟨⟨a, ha, hin⟩, -, -⟩
    cases (alone n).symm.trans ha
    exact unnamed rfl category hin
  · refine (ancestorCategory?_nearest circleTable.registry ["VipsUnary"] ⟨3⟩).2.2.2.2 _ ?_
    intro name hname
    by_cases h : name = "VipsObject"
    · subst h
      exact absurd hname (by decide)
    · simp [h]

end OpCatalog
