import OpCatalog.InMemory.Snapshot
import OpCatalog.Proofs.Alike

/-!
# The order of registration

A forest records the definitions that it was built from. Two forests that record the same ones
in different orders are alike, so a discovery that orders operations by name cannot tell
them apart unless types share a nickname. `introspect_eq_of_perm` says so of snapshots.
-/
namespace OpCatalog

namespace Forest

variable {f g : Forest} {t u : TypeHandle} {e e' : TypeEntry} {d : TypeDefinition}
  {ds ds' : List TypeDefinition}

/-- The entries stand for the definitions, in their order. -/
structure Records (f : Forest) (ds : List TypeDefinition) : Prop where
  wellFormed : f.WellFormed
  size_eq : f.size = ds.length
  realizes : ∀ {i d}, ds[i]? = some d → ∃ e, f.entry? ⟨i + 1⟩ = some e ∧ f.Realizes d e

/-! ## Registration records -/

theorem records_empty : empty.Records [] where
  wellFormed := wellFormed_empty
  size_eq := rfl
  realizes := by
    intro i d hd
    simp at hd

theorem Records.register (h : f.Records ds) {r : TypeHandle × Forest}
    (hr : f.register d = .ok r) : r.2.Records (ds ++ [d]) := by
  have hf := h.wellFormed.register hr
  obtain ⟨e, -, hfresh, hreal, -, rfl⟩ := ok_of_register hr
  refine ⟨hf, ?_, ?_⟩
  · rw [size_insert, h.size_eq, List.length_append]
    rfl
  · intro i d' hd'
    by_cases hi : i < ds.length
    · rw [List.getElem?_append_left hi] at hd'
      obtain ⟨old, ho, hold⟩ := h.realizes hd'
      exact ⟨_, entry?_insert_of_some ho e, (hold.insert h.wellFormed hfresh).linked _ _ _⟩
    · have hlt := (List.getElem?_eq_some_iff.1 hd').1
      rw [List.length_append, List.length_singleton] at hlt
      have hlast : i = ds.length := by omega
      subst hlast
      rw [List.getElem?_concat_length] at hd'
      cases hd'
      refine ⟨e, ?_, hreal.insert h.wellFormed hfresh⟩
      rw [← h.size_eq]
      exact entry?_insert_self f e

/-- What holds of the accepted definitions so far, and is kept by one more, holds after a list. -/
theorem registerAll_accepted {P : List TypeDefinition → Forest → Prop}
    (step : ∀ {ds f d r}, P ds f → f.register d = .ok r → P (ds ++ [d]) r.2) (h : P ds f)
    (hr : f.registerAll ds' = (.ok (), g)) : P (ds ++ ds') g := by
  induction ds' generalizing f ds with
  | nil =>
    simp only [Forest.registerAll, Prod.mk.injEq, true_and] at hr
    rw [← hr, List.append_nil]
    exact h
  | cons d ds' ih =>
    rw [Forest.registerAll] at hr
    cases hd : f.register d with
    | error r => simp [hd] at hr
    | ok r =>
      rw [hd] at hr
      have hall := ih (step h hd) hr
      rwa [List.append_assoc] at hall

theorem Records.registerAll (h : f.Records ds) (hr : f.registerAll ds' = (.ok (), g)) :
    g.Records (ds ++ ds') :=
  registerAll_accepted (P := fun ds f => f.Records ds) (fun h hd => h.register hd) h hr

theorem records_standard : standard.Records standardDefinitions :=
  records_empty.registerAll registerAll_standardDefinitions

/-! ## Definitions and entries -/

theorem Records.exists_entry (h : f.Records ds) (hd : d ∈ ds) :
    ∃ t e, f.entry? t = some e ∧ f.Realizes d e := by
  obtain ⟨i, hi⟩ := List.mem_iff_getElem?.1 hd
  obtain ⟨e, he, hr⟩ := h.realizes hi
  exact ⟨⟨i + 1⟩, e, he, hr⟩

theorem Records.exists_definition (h : f.Records ds) (he : f.entry? t = some e) :
    ∃ d ∈ ds, f.Realizes d e := by
  obtain ⟨hpos, hle⟩ := isSome_entry?_iff.1 (Option.isSome_of_eq_some he)
  have hlt : t.raw - 1 < ds.length := by
    have := h.size_eq
    omega
  obtain ⟨e', he', hr⟩ := h.realizes (List.getElem?_eq_getElem hlt)
  rw [Nat.sub_add_cancel hpos, he] at he'
  cases he'
  exact ⟨ds[t.raw - 1], List.getElem_mem hlt, hr⟩

theorem Records.mem_names_iff (h : f.Records ds) {n : String} :
    n ∈ f.names ↔ ∃ d ∈ ds, d.name = n := by
  constructor
  · intro hn
    obtain ⟨e, he, rfl⟩ := List.mem_map.1 hn
    obtain ⟨i, hi⟩ := List.mem_iff_getElem?.1 he
    obtain ⟨d, hd, hr⟩ := h.exists_definition (t := ⟨i + 1⟩) hi
    exact ⟨d, hd, hr.name.symm⟩
  · rintro ⟨d, hd, rfl⟩
    obtain ⟨t, e, he, hr⟩ := h.exists_entry hd
    rw [← hr.name]
    exact List.mem_map_of_mem (mem_entries_of_some he)

/-! ## Permutations -/

/-- Twins stand for the same definition. -/
def SameDefinitions (f g : Forest) : Prop :=
  ∀ {t u e e'}, f.entry? t = some e → g.entry? u = some e' → e.name = e'.name →
    ∃ d, f.Realizes d e ∧ g.Realizes d e'

theorem Records.sameNames (h : f.Records ds) (h' : g.Records ds') (hperm : ds.Perm ds') :
    SameNames f g where
  left := h.wellFormed
  right := h'.wellFormed
  names := by
    intro n
    rw [h.mem_names_iff, h'.mem_names_iff]
    simp only [hperm.mem_iff]

theorem Records.sameDefinitions (h : f.Records ds) (h' : g.Records ds') (hperm : ds.Perm ds') :
    f.SameDefinitions g := by
  intro t u e e' he he' hname
  obtain ⟨d, hd, hr⟩ := h.exists_definition he
  obtain ⟨v, other, hv, hr'⟩ := h'.exists_entry (hperm.mem_iff.1 hd)
  have hu := h'.wellFormed.lookup?_of_entry? he'
  have hv' := h'.wellFormed.lookup?_of_entry? hv
  rw [hr'.name, ← hr.name, hname, hu] at hv'
  cases hv'
  rw [he'] at hv
  cases hv
  exact ⟨d, hr, hr'⟩

theorem SameNames.parentOf (h : SameNames f g) {p q : Option TypeHandle}
    (hp : f.parentOf d = .ok p) (hq : g.parentOf d = .ok q) : Option.Rel (f.Twin g) p q := by
  rw [Forest.parentOf] at hp hq
  cases hd : d.parent with
  | none =>
    simp only [hd, Except.ok.injEq] at hp hq
    rw [← hp, ← hq]
    exact Option.Rel.none
  | some n =>
    rcases rel_cases (h.lookup n) with ⟨ha, hb⟩ | ⟨a, b, ha, hb, hab⟩
    · simp [hd, ha] at hp
    · simp only [hd, ha, hb, Except.ok.injEq] at hp hq
      rw [← hp, ← hq]
      exact Option.Rel.some hab

theorem SameNames.parameters (h : SameNames f g) {owner : String} {as : List ArgumentDefinition}
    {specs specs' : List ParamSpec} (hs : f.parameters owner as = .ok specs)
    (hs' : g.parameters owner as = .ok specs') :
    List.Forall₂ (f.TwinParameters g) specs specs' := by
  rw [parameters_eq_ok_iff] at hs hs'
  induction hs generalizing specs' with
  | nil =>
    cases hs'
    exact List.Forall₂.nil
  | @cons a spec as specs hspec _ ih =>
    cases hs' with
    | @cons _ spec' _ specs' hspec' hrest =>
      refine List.Forall₂.cons ?_ (ih hrest)
      obtain ⟨t, ht, rfl⟩ := parameter_eq_ok_iff.1 hspec
      obtain ⟨u, hu, rfl⟩ := parameter_eq_ok_iff.1 hspec'
      have hrel := h.lookup a.typeName
      rw [ht, hu, Option.rel_some_some] at hrel
      exact ⟨hrel, rfl⟩

/-- Fundamental types are inherited alike: a parent is registered before its children. -/
theorem SameNames.fundamental (h : SameNames f g) (hd : f.SameDefinitions g) (k : Nat)
    (hk : t.raw < k) (he : f.entry? t = some e) (he' : g.entry? u = some e')
    (hname : e.name = e'.name) : e.fundamental = e'.fundamental := by
  induction k generalizing t u e e' with
  | zero => omega
  | succ k ih =>
    obtain ⟨d, hr, hr'⟩ := hd he he' hname
    have hparents : (e.parent.bind f.entry?).map (·.fundamental) =
        (e'.parent.bind g.entry?).map (·.fundamental) := by
      rcases rel_cases (h.parentOf hr.parent hr'.parent) with ⟨hp, hq⟩ | ⟨p, q, hp, hq, hpq⟩
      · rw [hp, hq]
        rfl
      · obtain ⟨a, b, ha, hb, hab⟩ := hpq
        have hparent : f.parent? t = some p := by rw [parent?, he, Option.bind_some, hp]
        have hlt := (h.left.parent_lt hparent).2
        simp only [hp, hq, Option.bind_some, ha, hb, Option.map_some, ih (by omega) ha hb hab]
    rw [hr.fundamental, hr'.fundamental, fundamentalOf, fundamentalOf, hparents]

theorem SameNames.alike (h : SameNames f g) (hsize : f.size = g.size) (hd : f.SameDefinitions g) :
    f.Alike g where
  toSameNames := h
  size_eq := hsize
  entries := by
    intro t u e e' he he' hname
    obtain ⟨d, hr, hr'⟩ := hd he he' hname
    exact
      { name := hname
        nickname := hr.nickname.trans hr'.nickname.symm
        fundamental := h.fundamental hd (t.raw + 1) (Nat.lt_succ_self _) he he' hname
        isAbstract := hr.isAbstract.trans hr'.isAbstract.symm
        isBroken := hr.isBroken.trans hr'.isBroken.symm
        description := hr.description.trans hr'.description.symm
        members := hr.members.trans hr'.members.symm
        parent := h.parentOf hr.parent hr'.parent
        parameters := h.parameters hr.parameters hr'.parameters }

/-- Forests that record the same definitions in different orders are alike. -/
theorem Records.alike (h : f.Records ds) (h' : g.Records ds') (hperm : ds.Perm ds') :
    f.Alike g := by
  have hsize : f.size = g.size := by rw [h.size_eq, h'.size_eq, hperm.length_eq]
  exact (h.sameNames h' hperm).alike hsize (h.sameDefinitions h' hperm)

end Forest

namespace Snapshot

variable {s s₁ s₂ : Snapshot} {h h₁ h₂ : Host}

theorem ok_of_load (hl : s.load = .ok h) :
    Forest.standard.registerAll s.types = (.ok (), h.forest) ∧ h.world = ⟨{}, {}⟩ := by
  have hall : Host.standard.registerAll s.types =
      ((Forest.standard.registerAll s.types).1,
        ⟨(Forest.standard.registerAll s.types).2, ⟨{}, {}⟩⟩) := rfl
  rw [load, hall] at hl
  rcases hr : Forest.standard.registerAll s.types with ⟨refusal | ⟨⟩, f⟩
  · simp [hr] at hl
  · simp only [hr, Except.ok.injEq] at hl
    rw [← hl]
    exact ⟨rfl, rfl⟩

theorem alike_of_load (hperm : s₁.types.Perm s₂.types) (hl₁ : s₁.load = .ok h₁)
    (hl₂ : s₂.load = .ok h₂) : h₁.forest.Alike h₂.forest := by
  have hr₁ := (ok_of_load hl₁).1
  have hr₂ := (ok_of_load hl₂).1
  exact (Forest.records_standard.registerAll hr₁).alike (Forest.records_standard.registerAll hr₂)
    (hperm.append_left _)

/-- Ordered by name, what is discovered from a snapshot does not depend on the order of its
types, provided that no two types to be discovered share a nickname. -/
theorem introspect_eq_of_perm {settings : Settings} (perm : s₁.types.Perm s₂.types)
    (load₁ : s₁.load = .ok h₁) (load₂ : s₂.load = .ok h₂) (valid : settings.fault? = none)
    (unlimited : settings.limits = {}) (byName : settings.operationOrder = .name)
    (unshared : ∀ base, h₁.forest.lookup? settings.baseType = some base →
      h₁.forest.Unshared base) :
    (h₁.world.introspect h₁.forest.registry settings).1 =
      (h₂.world.introspect h₂.forest.registry settings).1 := by
  have halike := alike_of_load perm load₁ load₂
  have hstart : ∀ {s h}, Snapshot.load s = .ok h →
      (h.world.start h.forest.registry).1 = .started := by
    intro s h hl
    rw [(ok_of_load hl).2]
    rfl
  rw [h₁.forest.introspect_eq_discovered h₁.world valid unlimited (hstart load₁),
    h₂.forest.introspect_eq_discovered h₂.world valid unlimited (hstart load₂)]
  rcases rel_cases (halike.lookup settings.baseType) with
    ⟨hb₁, hb₂⟩ | ⟨base₁, base₂, hb₁, hb₂, htwin⟩
  · simp only [hb₁, hb₂]
  · simp only [hb₁, hb₂, halike.discovered htwin (unshared base₁ hb₁) byName]

/-- An enumeration, an operation that uses it, and one that does not. -/
def enumFirst : Snapshot where
  types :=
    [(TypeDefinition.enumeration "VipsDirection").addMember "VIPS_DIRECTION_X" "x" 0,
      ((TypeDefinition.named "VipsFlip").withParent "VipsOperation").withNickname "flip"
        |>.addArgument
          { name := "direction", typeName := "VipsDirection", flags := [.construct, .input] },
      ((TypeDefinition.named "VipsInvert").withParent "VipsOperation").withNickname "invert"]

/-- The same types, the last of them first. -/
def enumSecond : Snapshot where
  types := enumFirst.types.drop 2 ++ enumFirst.types.take 2

theorem introspect_eq_of_perm_enumFirst :
    ∃ h₁ h₂, enumFirst.load = .ok h₁ ∧ enumSecond.load = .ok h₂ ∧
      h₁.forest.lookup? "VipsFlip" ≠ h₂.forest.lookup? "VipsFlip" ∧
      (h₁.world.introspect h₁.forest.registry { operationOrder := .name }).1 =
        (h₂.world.introspect h₂.forest.registry { operationOrder := .name }).1 := by
  have perm : enumFirst.types.Perm enumSecond.types := by decide
  refine ⟨_, _, rfl, rfl, by decide +kernel,
    introspect_eq_of_perm perm rfl rfl rfl rfl rfl fun base _ => ?_⟩
  exact Forest.unshared_of_nodup (by decide +kernel) base

end Snapshot

end OpCatalog
