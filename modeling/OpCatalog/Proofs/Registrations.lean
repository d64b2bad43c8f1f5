import OpCatalog.Proofs.Preorder

/-!
# What registration keeps

A host is given its types one at a time or by the list, and a definition may be refused at any
point. `coherent_of_populated` says what holds of the types afterwards, in terms of what can be
asked about them: numbers, names, parents, children and the types of parameters agree. That names
do is no matter of course, as the table that they are looked up in is kept beside the types.
-/
namespace OpCatalog

namespace Forest

variable {f : Forest} {t p c : TypeHandle} {e : TypeEntry} {n : String}

/-- The links of a forest agree with each other, from whichever end they are followed. -/
structure Coherent (f : Forest) : Prop where
  /-- Handles are the numbers from one up to the number of types. -/
  registered_iff : ∀ t, (f.entry? t).isSome ↔ 1 ≤ t.raw ∧ t.raw ≤ f.size
  /-- The table leads from a name to the one type that has it, and to nothing else. -/
  named_iff : ∀ t n, f.registry.typeName? t = some n ↔ f.registry.lookup? n = some t
  named : ∀ t, (f.registry.typeName? t).isSome ↔ (f.entry? t).isSome
  nodup_names : f.names.Nodup
  name_ne : ∀ t n, f.registry.typeName? t = some n → n ≠ ""
  parent_lt : ∀ t p, f.registry.parent? t = some p → (f.entry? p).isSome ∧ p.raw < t.raw
  /-- Every chain of parents ends. -/
  parents_end : WellFounded fun p t => f.registry.parent? t = some p
  valueType_lt : ∀ t e, f.entry? t = some e → ∀ spec ∈ e.parameters,
    (f.entry? spec.valueType).isSome ∧ spec.valueType.raw < t.raw
  child_iff : ∀ t e, f.entry? t = some e → ∀ c, c ∈ e.children ↔ f.registry.parent? c = some t
  /-- The children of a type stand in the order of registration, each once. -/
  children_ascend : ∀ t e, f.entry? t = some e → e.children.Pairwise (·.raw < ·.raw)

theorem entry?_of_typeName? (h : f.registry.typeName? t = some n) :
    ∃ e, f.entry? t = some e ∧ e.name = n := Option.map_eq_some_iff.1 h

theorem WellFormed.typeName?_eq_some_iff (hf : f.WellFormed) :
    f.registry.typeName? t = some n ↔ f.registry.lookup? n = some t := by
  constructor
  · intro h
    obtain ⟨e, he, rfl⟩ := entry?_of_typeName? h
    exact hf.lookup?_of_entry? he
  · intro h
    obtain ⟨e, he, rfl⟩ := hf.entry?_of_lookup? h
    exact Option.map_eq_some_iff.2 ⟨e, he, rfl⟩

theorem WellFormed.wellFounded_parent? (hf : f.WellFormed) :
    WellFounded fun p t => f.parent? t = some p :=
  Subrelation.wf (fun h => (hf.parent_lt h).2) (measure TypeHandle.raw).wf

theorem pairwise_handles (f : Forest) : f.handles.Pairwise (·.raw < ·.raw) := by
  rw [handles, List.pairwise_map]
  exact List.pairwise_lt_range.imp fun h => Nat.succ_lt_succ h

theorem WellFormed.pairwise_children (hf : f.WellFormed) (h : f.entry? t = some e) :
    e.children.Pairwise (·.raw < ·.raw) := by
  rw [hf.children_eq h]
  exact f.pairwise_handles.filter _

theorem WellFormed.coherent (hf : f.WellFormed) : f.Coherent where
  registered_iff := fun _ => isSome_entry?_iff
  named_iff := fun _ _ => hf.typeName?_eq_some_iff
  named := fun _ => by rw [registry, Option.isSome_map]
  nodup_names := hf.nodup_names
  name_ne := by
    rintro t n h rfl
    obtain ⟨e, he, hname⟩ := entry?_of_typeName? h
    exact hf.name_ne (List.mem_map.2 ⟨e, mem_entries_of_some he, hname⟩)
  parent_lt := fun _ _ => hf.parent_lt
  parents_end := hf.wellFounded_parent?
  valueType_lt := fun _ _ he _ => hf.valueType_lt he
  child_iff := fun _ _ he _ => hf.mem_children_iff he
  children_ascend := fun _ _ => hf.pairwise_children

end Forest

namespace Host

variable {h : Host}

/-- The hosts that registrations lead to, accepted or refused, from no types or from the
standard ones. -/
inductive Populated : Host → Prop
  | empty : Populated empty
  | standard : Populated standard
  | register {h : Host} (d : TypeDefinition) : Populated h → Populated (h.register d).2
  | registerAll {h : Host} (ds : List TypeDefinition) : Populated h → Populated (h.registerAll ds).2

theorem Populated.grown (populated : h.Populated) : h.forest.Grown := by
  induction populated with
  | empty => exact Forest.Grown.empty
  | standard => exact Forest.Grown.standard
  | register d _ ih => exact grown_register ih d
  | registerAll ds _ ih => exact ih.registerAll ds

/-- Whatever has been registered or refused, the links between the types agree. -/
theorem coherent_of_populated (populated : h.Populated) : h.forest.Coherent :=
  populated.grown.wellFormed.coherent

/-- An enumeration, an operation that takes it, and an operation below a type that nobody knows. -/
def orphanTypes : List TypeDefinition :=
  [(TypeDefinition.enumeration "VipsDirection").addMember "VIPS_DIRECTION_X" "x" 0,
    ((TypeDefinition.named "VipsFlip").withParent "VipsOperation").addArgument
      { name := "direction", typeName := "VipsDirection" },
    (TypeDefinition.named "VipsAdd").withParent "VipsBinary"]

/-- The last of the types is refused and leaves no name behind, and the second is refused when it
is registered once more. The first two are there and agree with what was there before. -/
theorem coherent_of_populated_orphan :
    (standard.registerAll orphanTypes).1 = .error (.unknownParent "VipsAdd" "VipsBinary") ∧
      ((standard.registerAll orphanTypes).2.register (.named "VipsFlip")).1 =
        .error (.duplicateName "VipsFlip") ∧
      ((standard.registerAll orphanTypes).2.register (.named "VipsFlip")).2.forest.size = 29 ∧
      ((standard.registerAll orphanTypes).2.register (.named "VipsFlip")).2.forest.lookup?
        "VipsFlip" = some ⟨29⟩ ∧
      ((standard.registerAll orphanTypes).2.register (.named "VipsFlip")).2.forest.lookup?
        "VipsAdd" = none ∧
      ((standard.registerAll orphanTypes).2.register (.named "VipsFlip")).2.forest.Coherent := by
  refine ⟨rfl, rfl, rfl, rfl, rfl, ?_⟩
  exact coherent_of_populated (.register (.named "VipsFlip") (.registerAll orphanTypes .standard))

end Host

end OpCatalog
