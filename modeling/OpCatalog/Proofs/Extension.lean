import OpCatalog.Proofs.Completeness
import OpCatalog.Proofs.EnumClosure

/-!
# Forests that have been added to

What is registered later never stands above what was registered before, whatever its name. So
a type of the old forest is the same in the extended one to every question that a discovery asks
of it, and the types visited below it are the same up to new ones in between.
-/
namespace OpCatalog

namespace Forest

variable {f g : Forest} {t u a : TypeHandle} {e e' : TypeEntry} {n : String}
  {ts order : List TypeHandle} {d : TypeDefinition}

/-- The second forest has the types of the first with their entries, except that these may list
more children, and new types only after them. -/
structure Extends (f g : Forest) : Prop where
  old : f.WellFormed
  extended : g.WellFormed
  handles : f.handles <+: g.handles
  entry : ∀ {t e}, f.entry? t = some e →
    ∃ children, g.entry? t = some { e with children := children }

theorem WellFormed.extends_register (hf : f.WellFormed) {r : TypeHandle × Forest}
    (h : f.register d = .ok r) : f.Extends r.2 where
  old := hf
  extended := hf.register h
  handles := by
    obtain ⟨e, -, -, -, -, rfl⟩ := ok_of_register h
    rw [handles_insert]
    exact List.prefix_append _ _
  entry := by
    obtain ⟨new, -, -, -, -, rfl⟩ := ok_of_register h
    intro t e he
    refine ⟨(linked ⟨f.size + 1⟩ new.parent t e).children, ?_⟩
    rw [entry?_insert_of_some he new, linked]
    split <;> rfl

namespace Extends

theorem refl (hf : f.WellFormed) : f.Extends f := ⟨hf, hf, List.prefix_rfl, fun he => ⟨_, he⟩⟩

theorem trans {k : Forest} (h : f.Extends g) (h' : g.Extends k) : f.Extends k where
  old := h.old
  extended := h'.extended
  handles := h.handles.trans h'.handles
  entry := by
    intro t e he
    obtain ⟨children, he'⟩ := h.entry he
    obtain ⟨children', he''⟩ := h'.entry he'
    exact ⟨children', he''⟩

theorem isSome_entry? (h : f.Extends g) (ht : (f.entry? t).isSome) : (g.entry? t).isSome := by
  obtain ⟨e, he⟩ := Option.isSome_iff_exists.1 ht
  obtain ⟨children, he'⟩ := h.entry he
  exact Option.isSome_of_eq_some he'

/-! ## Look-ups -/

theorem lookup (h : f.Extends g) (hl : f.lookup? n = some t) : g.lookup? n = some t := by
  obtain ⟨e, he, rfl⟩ := h.old.entry?_of_lookup? hl
  obtain ⟨children, he'⟩ := h.entry he
  have hlookup := h.extended.lookup?_of_entry? he'
  exact hlookup

/-- A name that was free may be taken in the extended forest, but not by an old type. -/
theorem lookup_iff (h : f.Extends g) (ht : (f.entry? t).isSome) :
    g.lookup? n = some t ↔ f.lookup? n = some t := by
  refine ⟨fun hl => ?_, h.lookup⟩
  obtain ⟨e, he⟩ := Option.isSome_iff_exists.1 ht
  obtain ⟨children, he'⟩ := h.entry he
  obtain ⟨own, hown, rfl⟩ := h.extended.entry?_of_lookup? hl
  cases Option.some.inj (hown.symm.trans he')
  have hlookup := h.old.lookup?_of_entry? he
  exact hlookup

/-- What does not depend on the children is the same in both entries of an old type. -/
theorem map_entry? {β : Type} (h : f.Extends g) (ht : (f.entry? t).isSome) {read : TypeEntry → β}
    (hread : ∀ e children, read { e with children := children } = read e) :
    (g.entry? t).map read = (f.entry? t).map read := by
  obtain ⟨e, he⟩ := Option.isSome_iff_exists.1 ht
  obtain ⟨children, he'⟩ := h.entry he
  rw [he, he', Option.map_some, Option.map_some, hread]

theorem parent? (h : f.Extends g) (ht : (f.entry? t).isSome) : g.parent? t = f.parent? t := by
  obtain ⟨e, he⟩ := Option.isSome_iff_exists.1 ht
  obtain ⟨children, he'⟩ := h.entry he
  simp only [Forest.parent?, he, he', Option.bind_some]

/-! ## Ancestors -/

theorem descends_iff (h : f.Extends g) (ht : (f.entry? t).isSome) :
    g.Descends t a ↔ f.Descends t a := by
  constructor
  · intro hdesc
    induction hdesc with
    | refl => exact Descends.refl _
    | step hp _ ih =>
      rw [h.parent? ht] at hp
      exact Descends.step hp (ih (h.old.parent_lt hp).1)
  · intro hdesc
    induction hdesc with
    | refl => exact Descends.refl _
    | step hp _ ih =>
      have hp' := h.parent? ht
      rw [hp] at hp'
      exact Descends.step hp' (ih (h.old.parent_lt hp).1)

end Extends

theorem Descends.isSome_entry? (hf : f.WellFormed) (h : f.Descends t a)
    (ht : (f.entry? t).isSome) : (f.entry? a).isSome := by
  induction h with
  | refl => exact ht
  | step hp _ ih => exact ih (hf.parent_lt hp).1

theorem WellFormed.isAFrom_iff (hf : f.WellFormed) {fuel : Nat} (h : t.raw ≤ fuel) :
    f.isAFrom a fuel t = true ↔ f.Descends t a := by
  -- Handles get smaller on the way up, so the walk ends before its bound does.
  induction fuel generalizing t with
  | zero =>
    rw [isAFrom, beq_iff_eq]
    constructor
    · rintro rfl
      exact Descends.refl t
    · intro hdesc
      cases hdesc with
      | refl => rfl
      | step hp _ =>
        have := (hf.parent_lt hp).2
        omega
  | succ fuel ih =>
    rw [isAFrom, Bool.or_eq_true, beq_iff_eq]
    constructor
    · rintro (rfl | hup)
      · exact Descends.refl t
      · cases hp : f.parent? t with
        | none => simp [hp] at hup
        | some p =>
          have hlt := (hf.parent_lt hp).2
          rw [hp] at hup
          exact Descends.step hp ((ih (by omega)).1 hup)
    · intro hdesc
      cases hdesc with
      | refl => exact Or.inl rfl
      | step hp hdesc =>
        have hlt := (hf.parent_lt hp).2
        rw [hp]
        exact Or.inr ((ih (by omega)).2 hdesc)

theorem WellFormed.isA_iff (hf : f.WellFormed) (ht : (f.entry? t).isSome) :
    f.isA t a = true ↔ f.Descends t a := hf.isAFrom_iff (isSome_entry?_iff.1 ht).2

/-- A walk upward that starts within its bound: handles get smaller on the way, so it is not the
bound that ends the walk. -/
def StartsWithin (f : Forest) (fuel : Nat) (next : Option TypeHandle) : Prop :=
  ∀ t, next = some t → (f.entry? t).isSome ∧ t.raw ≤ fuel

theorem WellFormed.startsWithin_parent? (hf : f.WellFormed) {fuel : Nat} (h : t.raw ≤ fuel + 1) :
    f.StartsWithin fuel (f.parent? t) := by
  intro p hp
  obtain ⟨hsome, hlt⟩ := hf.parent_lt hp
  exact ⟨hsome, by omega⟩

theorem not_startsWithin_zero : ¬f.StartsWithin 0 (some t) := by
  intro h
  obtain ⟨hsome, hle⟩ := h t rfl
  have := (isSome_entry?_iff.1 hsome).1
  omega

/-- Walks upward from the same type are compared step by step, whatever their bounds. -/
theorem WellFormed.walk_induction (hf : f.WellFormed) {P : Nat → Nat → Option TypeHandle → Prop}
    (top : ∀ m k, P m k none)
    (step : ∀ m k t, (f.entry? t).isSome → P m k (f.parent? t) → P (m + 1) (k + 1) (some t))
    {m k : Nat} {next : Option TypeHandle} (hm : f.StartsWithin m next)
    (hk : f.StartsWithin k next) : P m k next := by
  induction m generalizing k next with
  | zero =>
    cases next with
    | none => exact top 0 k
    | some t => exact absurd hm not_startsWithin_zero
  | succ m ih =>
    cases next with
    | none => exact top (m + 1) k
    | some t =>
      cases k with
      | zero => exact absurd hk not_startsWithin_zero
      | succ k =>
        obtain ⟨ht, hle⟩ := hm t rfl
        have hm' := hf.startsWithin_parent? hle
        have hk' := hf.startsWithin_parent? (hk t rfl).2
        exact step m k t ht (ih hm' hk')

namespace Extends

variable {m k : Nat} {next : Option TypeHandle}

/-- A well-known name that is taken later gives no capability to old types. -/
theorem has (h : f.Extends g) (ht : (f.entry? t).isSome) : g.has t = f.has t := by
  funext c
  rw [Bool.eq_iff_iff, Forest.has, Forest.has, Option.any_eq_true, Option.any_eq_true]
  simp only [h.extended.isA_iff (h.isSome_entry? ht), h.old.isA_iff ht, h.descends_iff ht]
  constructor
  · rintro ⟨u, hl, hdesc⟩
    exact ⟨u, (h.lookup_iff (hdesc.isSome_entry? h.old ht)).1 hl, hdesc⟩
  · rintro ⟨u, hl, hdesc⟩
    exact ⟨u, h.lookup hl, hdesc⟩

theorem traits? (h : f.Extends g) (ht : (f.entry? t).isSome) : g.traits? t = f.traits? t := by
  rw [Forest.traits?, Forest.traits?, h.has ht]
  exact h.map_entry? ht fun _ _ => rfl

/-! ## Arguments -/

theorem typeName? (h : f.Extends g) (ht : (f.entry? t).isSome) :
    g.registry.typeName? t = f.registry.typeName? t := h.map_entry? ht fun _ _ => rfl

theorem classify (h : f.Extends g) {spec : ParamSpec} (hs : (f.entry? spec.valueType).isSome) :
    g.registry.classify spec = f.registry.classify spec := by
  have htraits : g.registry.traits? spec.valueType = f.registry.traits? spec.valueType :=
    h.traits? hs
  have hkind : g.registry.kindOf spec.valueType = f.registry.kindOf spec.valueType := by
    rw [Registry.kindOf, Registry.kindOf, htraits]
  simp only [Registry.classify, hkind, h.typeName? hs]

theorem lineageFrom (h : f.Extends g) (hm : f.StartsWithin m next) (hk : f.StartsWithin k next) :
    (g.lineageFrom m next).map (·.parameters) = (f.lineageFrom k next).map (·.parameters) := by
  refine h.old.walk_induction (P := fun m k next => (g.lineageFrom m next).map (·.parameters) =
    (f.lineageFrom k next).map (·.parameters)) ?_ ?_ hm hk
  · intro m k
    cases m <;> cases k <;> rfl
  · intro m k t ht hup
    obtain ⟨e, he⟩ := Option.isSome_iff_exists.1 ht
    obtain ⟨children, he'⟩ := h.entry he
    rw [Forest.parent?, he, Option.bind_some] at hup
    simp only [Forest.lineageFrom, he, he', List.map_cons, hup]

theorem size_le (h : f.Extends g) : f.size ≤ g.size := by
  simpa [Forest.handles] using h.handles.length_le

theorem parametersOf (h : f.Extends g) (ht : (f.entry? t).isSome) :
    g.parametersOf t = f.parametersOf t := by
  have hle := (isSome_entry?_iff.1 ht).2
  have hf : f.StartsWithin f.size (some t) := by
    rintro _ ⟨⟩
    exact ⟨ht, hle⟩
  have hg : f.StartsWithin g.size (some t) := by
    rintro _ ⟨⟩
    exact ⟨ht, Nat.le_trans hle h.size_le⟩
  have hlineage := h.lineageFrom hg hf
  rw [Forest.parametersOf, Forest.parametersOf, List.flatMap_def, List.flatMap_def,
    List.map_reverse, List.map_reverse]
  exact congrArg (fun l => l.reverse.flatten) hlineage

theorem arguments (h : f.Extends g) (ht : (f.entry? t).isSome) :
    (keptParameters (g.parametersOf t)).map g.registry.classify =
      (keptParameters (f.parametersOf t)).map f.registry.classify := by
  rw [h.parametersOf ht]
  apply List.map_congr_left
  intro spec hspec
  exact h.classify (h.old.isSome_valueType (mem_of_mem_keptParameters hspec))

/-! ## Categories -/

/-- A root that is registered later is no root to the old types. -/
theorem contains_roots (h : f.Extends g) (rootNames : List String) (ht : (f.entry? t).isSome) :
    (g.registry.roots rootNames).contains t = (f.registry.roots rootNames).contains t := by
  rw [Bool.eq_iff_iff, List.contains_iff_mem, List.contains_iff_mem, Registry.roots,
    Registry.roots, List.mem_filterMap, List.mem_filterMap]
  exact exists_congr fun n => and_congr_right fun _ => h.lookup_iff ht

theorem categoryFrom (h : f.Extends g) (rootNames : List String) (hm : f.StartsWithin m next)
    (hk : f.StartsWithin k next) (visited : List TypeHandle) :
    g.registry.categoryFrom? (g.registry.roots rootNames) m visited next =
      f.registry.categoryFrom? (f.registry.roots rootNames) k visited next := by
  refine h.old.walk_induction (P := fun m k next => ∀ visited,
    g.registry.categoryFrom? (g.registry.roots rootNames) m visited next =
      f.registry.categoryFrom? (f.registry.roots rootNames) k visited next) ?_ ?_ hm hk visited
  · intro m k visited
    cases m <;> cases k <;> rfl
  · intro m k t ht hup visited
    have hparent : g.registry.parent? t = f.parent? t := h.parent? ht
    have hparent' : f.registry.parent? t = f.parent? t := rfl
    simp only [Registry.categoryFrom?, h.contains_roots rootNames ht, Registry.tabledCategory?,
      h.typeName? ht, hparent, hparent', hup]

theorem category (h : f.Extends g) (ht : (f.entry? t).isSome) (rootNames : List String)
    (n : String) : g.registry.category rootNames t n = f.registry.category rootNames t n := by
  have hparent : g.registry.parent? t = f.registry.parent? t := h.parent? ht
  have hle := (isSome_entry?_iff.1 ht).2
  have hf : f.StartsWithin (f.registry.size + 1) (f.parent? t) :=
    h.old.startsWithin_parent? (by simp only [registry]; omega)
  have hg : f.StartsWithin (g.registry.size + 1) (f.parent? t) :=
    h.old.startsWithin_parent? (by have := h.size_le; simp only [registry]; omega)
  rw [Registry.category, Registry.category, Registry.ancestorCategory?,
    Registry.ancestorCategory?, hparent]
  exact congrArg (·.getD n) (h.categoryFrom rootNames hg hf [])

/-! ## Operations -/

theorem describe (h : f.Extends g) (ht : (f.entry? t).isSome) (rootNames : List String)
    (n : String) : g.describe rootNames t n = f.describe rootNames t n := by
  have hdescription : (g.entry? t).bind (·.description) = (f.entry? t).bind (·.description) := by
    obtain ⟨e, he⟩ := Option.isSome_iff_exists.1 ht
    obtain ⟨children, he'⟩ := h.entry he
    simp only [he, he', Option.bind_some]
  rw [Forest.describe, Forest.describe, hdescription, h.category ht, h.arguments ht]

theorem carried? (h : f.Extends g) (ht : (f.entry? t).isSome) : g.carried? t = f.carried? t := by
  obtain ⟨e, he⟩ := Option.isSome_iff_exists.1 ht
  obtain ⟨children, he'⟩ := h.entry he
  simp only [Forest.carried?, isInstantiable, he, he', Option.any_some, Option.bind_some]

theorem operation? (h : f.Extends g) (ht : (f.entry? t).isSome) (rootNames : List String) :
    g.operation? rootNames t = f.operation? rootNames t := by
  rw [Forest.operation?, Forest.operation?, h.carried? ht]
  exact Option.map_congr fun n _ => h.describe ht rootNames n

theorem isInstantiable (h : f.Extends g) (ht : (f.entry? t).isSome) :
    g.isInstantiable t = f.isInstantiable t := by
  obtain ⟨e, he⟩ := Option.isSome_iff_exists.1 ht
  obtain ⟨children, he'⟩ := h.entry he
  simp only [Forest.isInstantiable, he, he', Option.any_some]

end Extends

/-! ## Visits -/

/-- The types of a list that are registered. -/
def known (f : Forest) (ts : List TypeHandle) : List TypeHandle :=
  ts.filter fun t => (f.entry? t).isSome

theorem known_append (f : Forest) (ts us : List TypeHandle) :
    f.known (ts ++ us) = f.known ts ++ f.known us := List.filter_append ..

theorem known_cons_of_some (h : f.entry? t = some e) (ts : List TypeHandle) :
    f.known (t :: ts) = t :: f.known ts := List.filter_cons_of_pos (by simp [h])

theorem known_cons_of_none (h : f.entry? t = none) (ts : List TypeHandle) :
    f.known (t :: ts) = f.known ts := List.filter_cons_of_neg (by simp [h])

theorem known_handles (f : Forest) : f.known f.handles = f.handles :=
  List.filter_eq_self.2 fun _ ht => mem_handles_iff.1 ht

theorem Preorder.unique {order' : List TypeHandle} (h : f.Preorder ts order)
    (h' : f.Preorder ts order') : order = order' := by
  rw [← visit_eq_of_preorder h (Nat.le_max_left _ order'.length),
    visit_eq_of_preorder h' (Nat.le_max_right order.length _)]

namespace Extends

theorem known_handles (h : f.Extends g) : f.known g.handles = f.handles := by
  obtain ⟨new, hnew⟩ := h.handles
  have hnodup := nodup_handles g
  rw [← hnew, List.nodup_append] at hnodup
  have hnone : f.known new = [] := by
    rw [known, List.filter_eq_nil_iff]
    intro t ht hsome
    exact hnodup.2.2 t (mem_handles_iff.2 hsome) t ht rfl
  rw [← hnew, known_append, f.known_handles, hnone, List.append_nil]

theorem known_children (h : f.Extends g) (he : f.entry? t = some e) (he' : g.entry? t = some e') :
    f.known e'.children = e.children := by
  rw [h.old.children_eq he, h.extended.children_eq he', known, List.filter_filter,
    ← h.known_handles, known, List.filter_filter]
  apply List.filter_congr
  intro c _
  by_cases hc : (f.entry? c).isSome
  · simp [hc, h.parent? hc]
  · simp [hc]

/-- The children of a new type are new. -/
theorem known_children_of_none (h : f.Extends g) (he : f.entry? t = none)
    (he' : g.entry? t = some e') : f.known e'.children = [] := by
  rw [known, List.filter_eq_nil_iff]
  intro c hc hsome
  have hp := (h.extended.mem_children_iff he').1 hc
  rw [h.parent? hsome] at hp
  have := (h.old.parent_lt hp).1
  simp [he] at this

/-- Without the new types, a preorder of the extended forest is one of the old forest. -/
theorem preorder (h : f.Extends g) (hp : g.Preorder ts order) :
    f.Preorder (f.known ts) (f.known order) := by
  induction hp with
  | nil => exact Preorder.nil
  | @cons t e' rest below after he' _ _ ih ih' =>
    cases he : f.entry? t with
    | none =>
      -- All types below a new one are new.
      rw [h.known_children_of_none he he'] at ih
      have hbelow : f.known below = [] := ih.unique Preorder.nil
      rw [known_cons_of_none he, known_cons_of_none he, known_append, hbelow]
      exact ih'
    | some e =>
      rw [h.known_children he he'] at ih
      rw [known_cons_of_some he, known_cons_of_some he, known_append]
      exact Preorder.cons he ih ih'

theorem known_subtypes (h : f.Extends g) (ht : (f.entry? t).isSome) :
    f.known (g.subtypes t) = f.subtypes t := by
  obtain ⟨e, he⟩ := Option.isSome_iff_exists.1 ht
  have hg := h.preorder (h.extended.preorder_subtypes (h.isSome_entry? ht))
  rw [known_cons_of_some he] at hg
  exact hg.unique (h.old.preorder_subtypes ht)

/-! ## Enumerations -/

/-- The names of old types are resolved as before. -/
theorem enumType (h : f.Extends g) (hn : n ∈ f.names) (sentinel : String) :
    g.registry.enumType sentinel n = f.registry.enumType sentinel n := by
  cases hl : f.lookup? n with
  | none => exact absurd hn (h.old.lookup?_eq_none_iff.1 hl)
  | some t =>
    obtain ⟨e, he, rfl⟩ := h.old.entry?_of_lookup? hl
    obtain ⟨children, he'⟩ := h.entry he
    have hg := h.extended.rawMembers?_eq he'
    simp only at hg
    rw [Registry.enumType, Registry.enumType, hg, h.old.rawMembers?_eq he]

end Extends

end Forest

end OpCatalog
