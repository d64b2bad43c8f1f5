import OpCatalog.Proofs.Completeness
import Mathlib.Data.List.Forall2
import Mathlib.Data.List.Nodup
import Mathlib.Data.List.Pairwise

/-!
# Forests that differ in their handles

Types of the same name in two forests are twins. The forests are alike when twins have entries
that say the same, where a handle says which type it stands for and not which number it is.
Whatever a discovery asks has then the same answer in both, from a single look-up to the whole
catalogue. The order of children is not among it.
-/
namespace OpCatalog

namespace Forest

variable {f g : Forest} {t u a b base base' : TypeHandle} {e e' : TypeEntry} {n : String}
  {s : Settings}

/-- The types have the same name in their forests. -/
def Twin (f g : Forest) (t u : TypeHandle) : Prop :=
  ∃ e e', f.entry? t = some e ∧ g.entry? u = some e' ∧ e.name = e'.name

/-- Parameters that differ only in the handles of their value types, which are twins. -/
structure TwinParameters (f g : Forest) (spec spec' : ParamSpec) : Prop where
  valueType : f.Twin g spec.valueType spec'.valueType
  rest : { spec with valueType := spec'.valueType } = spec'

/-- Entries that say the same of their types, save for the children. -/
structure TwinEntries (f g : Forest) (e e' : TypeEntry) : Prop where
  name : e.name = e'.name
  nickname : e.nickname = e'.nickname
  fundamental : e.fundamental = e'.fundamental
  isAbstract : e.isAbstract = e'.isAbstract
  isBroken : e.isBroken = e'.isBroken
  description : e.description = e'.description
  members : e.members = e'.members
  parent : Option.Rel (f.Twin g) e.parent e'.parent
  parameters : List.Forall₂ (f.TwinParameters g) e.parameters e'.parameters

structure SameNames (f g : Forest) : Prop where
  left : f.WellFormed
  right : g.WellFormed
  names : ∀ n, n ∈ f.names ↔ n ∈ g.names

structure Alike (f g : Forest) : Prop extends SameNames f g where
  size_eq : f.size = g.size
  entries : ∀ {t u e e'}, f.entry? t = some e → g.entry? u = some e' → e.name = e'.name →
    f.TwinEntries g e e'

/-! ## Twins -/

theorem Twin.symm (h : f.Twin g t u) : g.Twin f u t := by
  obtain ⟨e, e', he, he', hname⟩ := h
  exact ⟨e', e, he', he, hname.symm⟩

theorem TwinParameters.symm {spec spec' : ParamSpec} (h : f.TwinParameters g spec spec') :
    g.TwinParameters f spec' spec where
  valueType := h.valueType.symm
  rest := by
    rw [← h.rest]

theorem SameNames.symm (h : SameNames f g) : SameNames g f :=
  ⟨h.right, h.left, fun n => (h.names n).symm⟩

theorem TwinEntries.symm (h : f.TwinEntries g e e') : g.TwinEntries f e' e where
  name := h.name.symm
  nickname := h.nickname.symm
  fundamental := h.fundamental.symm
  isAbstract := h.isAbstract.symm
  isBroken := h.isBroken.symm
  description := h.description.symm
  members := h.members.symm
  parent := rel_symm (fun _ _ => Twin.symm) h.parent
  parameters := (h.parameters.imp fun _ _ => TwinParameters.symm).flip

theorem Alike.symm (h : f.Alike g) : g.Alike f where
  toSameNames := h.toSameNames.symm
  size_eq := h.size_eq.symm
  entries := fun he he' hname => (h.entries he' he hname.symm).symm

theorem SameNames.left_unique (h : SameNames f g) (ha : f.Twin g a u) (hb : f.Twin g b u) :
    a = b := by
  obtain ⟨ea, eu, hea, heu, hna⟩ := ha
  obtain ⟨eb, eu', heb, heu', hnb⟩ := hb
  have heq : eu' = eu := Option.some.inj (heu'.symm.trans heu)
  have hla := h.left.lookup?_of_entry? hea
  have hlb := h.left.lookup?_of_entry? heb
  rw [hna, ← heq, ← hnb, hlb] at hla
  exact (Option.some.inj hla).symm

/-- A type has at most one twin. -/
theorem SameNames.biUnique (h : SameNames f g) : Relator.BiUnique (f.Twin g) := by
  constructor
  · intro a b u ha hb
    exact h.left_unique ha hb
  · intro a u v hu hv
    exact h.symm.left_unique hu.symm hv.symm

theorem SameNames.lookup (h : SameNames f g) (n : String) :
    Option.Rel (f.Twin g) (f.lookup? n) (g.lookup? n) := by
  cases hf : f.lookup? n with
  | none =>
    have hg : g.lookup? n = none :=
      h.right.lookup?_eq_none_iff.2 (mt (h.names n).2 (h.left.lookup?_eq_none_iff.1 hf))
    rw [hg]
    exact Option.Rel.none
  | some t =>
    obtain ⟨e, he, rfl⟩ := h.left.entry?_of_lookup? hf
    cases hg : g.lookup? e.name with
    | none =>
      have hmem : e.name ∈ f.names := List.mem_map_of_mem (mem_entries_of_some he)
      exact absurd ((h.names _).1 hmem) (h.right.lookup?_eq_none_iff.1 hg)
    | some u =>
      obtain ⟨e', he', hname⟩ := h.right.entry?_of_lookup? hg
      exact Option.Rel.some ⟨e, e', he, he', hname.symm⟩

theorem SameNames.exists_twin (h : SameNames f g) (ht : (f.entry? t).isSome) :
    ∃ u, f.Twin g t u := by
  obtain ⟨e, he⟩ := Option.isSome_iff_exists.1 ht
  have hl := h.left.lookup?_of_entry? he
  rcases rel_cases (h.lookup e.name) with ⟨hnone, -⟩ | ⟨t', u, ht', -, htwin⟩
  · rw [hl] at hnone
    cases hnone
  · rw [hl] at ht'
    cases ht'
    exact ⟨u, htwin⟩

theorem Alike.entry (h : f.Alike g) (ht : f.Twin g t u) :
    ∃ e e', f.entry? t = some e ∧ g.entry? u = some e' ∧ f.TwinEntries g e e' := by
  obtain ⟨e, e', he, he', hname⟩ := ht
  exact ⟨e, e', he, he', h.entries he he' hname⟩

/-! ## Ancestors and capabilities -/

theorem Alike.parent (h : f.Alike g) (ht : f.Twin g t u) :
    Option.Rel (f.Twin g) (f.parent? t) (g.parent? u) := by
  obtain ⟨e, e', he, he', htwin⟩ := h.entry ht
  simpa only [parent?, he, he', Option.bind_some] using htwin.parent

theorem Alike.beq (h : f.Alike g) (ht : f.Twin g t u) (ha : f.Twin g a b) :
    (t == a) = (u == b) := by
  rw [Bool.eq_iff_iff, beq_iff_eq, beq_iff_eq]
  exact Relator.rel_eq h.biUnique ht ha

theorem Alike.isAFrom (h : f.Alike g) (ha : f.Twin g a b) (fuel : Nat) (ht : f.Twin g t u) :
    f.isAFrom a fuel t = g.isAFrom b fuel u := by
  induction fuel generalizing t u with
  | zero => exact h.beq ht ha
  | succ fuel ih =>
    rw [Forest.isAFrom, Forest.isAFrom, h.beq ht ha]
    rcases rel_cases (h.parent ht) with ⟨hp, hq⟩ | ⟨p, q, hp, hq, hpq⟩
    · simp only [hp, hq]
    · simp only [hp, hq, ih hpq]

theorem Alike.traits (h : f.Alike g) (ht : f.Twin g t u) : f.traits? t = g.traits? u := by
  have hhas : f.has t = g.has u := by
    funext c
    rw [has, has]
    rcases rel_cases (h.lookup c.typeName) with ⟨ha, hb⟩ | ⟨a, b, ha, hb, hab⟩
    · rw [ha, hb]
      rfl
    · rw [ha, hb, Option.any_some, Option.any_some, isA, isA, h.size_eq]
      exact h.isAFrom hab g.size ht
  obtain ⟨e, e', he, he', htwin⟩ := h.entry ht
  simp only [traits?, he, he', Option.map_some, hhas, htwin.fundamental]

theorem Alike.descends (h : f.Alike g) (ht : f.Twin g t u) (ha : f.Twin g a b)
    (hdesc : f.Descends t a) : g.Descends u b := by
  induction hdesc generalizing u with
  | refl =>
    rw [h.biUnique.2 ht ha]
    exact Descends.refl b
  | step hp _ ih =>
    rcases rel_cases (h.parent ht) with ⟨hnone, -⟩ | ⟨p, q, hp', hq, hpq⟩
    · rw [hp] at hnone
      cases hnone
    · rw [hp] at hp'
      cases hp'
      exact Descends.step hq (ih hpq ha)

/-! ## Arguments -/

theorem Alike.classify (h : f.Alike g) {spec spec' : ParamSpec}
    (hs : f.TwinParameters g spec spec') :
    f.registry.classify spec = g.registry.classify spec' := by
  have htraits : f.registry.traits? spec.valueType = g.registry.traits? spec'.valueType :=
    h.traits hs.valueType
  have hname : f.registry.typeName? spec.valueType = g.registry.typeName? spec'.valueType := by
    obtain ⟨e, e', he, he', hname⟩ := hs.valueType
    simp only [registry, he, he', Option.map_some, hname]
  have hkind : f.registry.kindOf spec.valueType = g.registry.kindOf spec'.valueType := by
    rw [Registry.kindOf, Registry.kindOf, htraits]
  rw [← hs.rest] at hkind hname ⊢
  simp only [Registry.classify, hkind, hname]

theorem Alike.lineageFrom (h : f.Alike g) (fuel : Nat) {x y : Option TypeHandle}
    (hxy : Option.Rel (f.Twin g) x y) :
    List.Forall₂ (f.TwinEntries g) (f.lineageFrom fuel x) (g.lineageFrom fuel y) := by
  induction fuel generalizing x y with
  | zero => exact List.Forall₂.nil
  | succ fuel ih =>
    cases hxy with
    | none => exact List.Forall₂.nil
    | some ht =>
      obtain ⟨e, e', he, he', htwin⟩ := h.entry ht
      rw [Forest.lineageFrom, Forest.lineageFrom, he, he']
      exact List.Forall₂.cons htwin (ih htwin.parent)

theorem Alike.parametersOf (h : f.Alike g) (ht : f.Twin g t u) :
    List.Forall₂ (f.TwinParameters g) (f.parametersOf t) (g.parametersOf u) := by
  have hlineage := h.lineageFrom g.size (Option.Rel.some ht)
  rw [Forest.parametersOf, Forest.parametersOf, lineage, lineage, h.size_eq]
  exact List.rel_flatMap (List.forall₂_reverse_iff.2 hlineage) fun _ _ he => he.parameters

theorem forall₂_firstOfEach {α β κ : Type} [DecidableEq κ] {R : α → β → Prop} {key : α → κ}
    {keyOf : β → κ} (hkey : ∀ a b, R a b → key a = keyOf b) {seen : List κ} {as : List α}
    {bs : List β} (h : List.Forall₂ R as bs) :
    List.Forall₂ R (firstOfEach key seen as) (firstOfEach keyOf seen bs) := by
  induction h generalizing seen with
  | nil => exact List.Forall₂.nil
  | cons hab _ ih =>
    rw [firstOfEach, firstOfEach, hkey _ _ hab]
    split
    · exact ih
    · exact List.Forall₂.cons hab ih

theorem Alike.arguments (h : f.Alike g) (ht : f.Twin g t u) :
    (keptParameters (f.parametersOf t)).map f.registry.classify =
      (keptParameters (g.parametersOf u)).map g.registry.classify := by
  have husable : ∀ spec spec', f.TwinParameters g spec spec' →
      (spec.isUsable ↔ spec'.isUsable) := by
    intro spec spec' hs
    rw [← hs.rest]
    rfl
  have hname : ∀ spec spec', f.TwinParameters g spec spec' → spec.name = spec'.name := by
    intro spec spec' hs
    rw [← hs.rest]
  have hkept : List.Forall₂ (f.TwinParameters g) (keptParameters (f.parametersOf t))
      (keptParameters (g.parametersOf u)) :=
    forall₂_firstOfEach hname (List.rel_filter husable (h.parametersOf ht))
  rw [← List.forall₂_eq_eq_eq, List.forall₂_map_left_iff, List.forall₂_map_right_iff]
  exact hkept.imp fun _ _ => h.classify

/-! ## Categories and enumerations -/

theorem Alike.contains (h : f.Alike g) {ts us : List TypeHandle}
    (hts : List.Forall₂ (f.Twin g) ts us) (ht : f.Twin g t u) :
    ts.contains t = us.contains u := by
  rw [Bool.eq_iff_iff, List.contains_iff_mem, List.contains_iff_mem]
  exact List.rel_mem h.biUnique ht hts

theorem Alike.categoryFrom (h : f.Alike g) {roots roots' : List TypeHandle}
    (hroots : List.Forall₂ (f.Twin g) roots roots') (fuel : Nat)
    {visited visited' : List TypeHandle} (hvisited : List.Forall₂ (f.Twin g) visited visited')
    {x y : Option TypeHandle} (hxy : Option.Rel (f.Twin g) x y) :
    f.registry.categoryFrom? roots fuel visited x =
      g.registry.categoryFrom? roots' fuel visited' y := by
  induction fuel generalizing visited visited' x y with
  | zero => rfl
  | succ fuel ih =>
    cases hxy with
    | none => rfl
    | @some t u ht =>
      have htabled : f.registry.tabledCategory? t = g.registry.tabledCategory? u := by
        obtain ⟨e, e', he, he', hname⟩ := ht
        simp only [Registry.tabledCategory?, registry, he, he', Option.map_some, hname]
      have hnext := ih (List.Forall₂.cons ht hvisited) (h.parent ht)
      simp only [Registry.categoryFrom?, h.contains hroots ht, h.contains hvisited ht, htabled]
      split
      · rfl
      · split
        · rfl
        · exact hnext

theorem Alike.category (h : f.Alike g) (ht : f.Twin g t u) (rootNames : List String) (n : String) :
    f.registry.category rootNames t n = g.registry.category rootNames u n := by
  have hroots : List.Forall₂ (f.Twin g) (f.registry.roots rootNames)
      (g.registry.roots rootNames) := by
    refine List.rel_filterMap (R := Eq) ?_ (List.forall₂_refl rootNames)
    rintro name _ rfl
    exact h.lookup name
  have hsize : f.registry.size = g.registry.size := congrArg (· + 1) h.size_eq
  rw [Registry.category, Registry.category, Registry.ancestorCategory?, Registry.ancestorCategory?,
    hsize]
  exact congrArg (·.getD n) (h.categoryFrom hroots _ List.Forall₂.nil (h.parent ht))

theorem Alike.rawMembers (h : f.Alike g) (name : String) :
    f.registry.rawMembers? name = g.registry.rawMembers? name := by
  have hlookup : ∀ f : Forest, f.registry.lookup? name = f.lookup? name := fun _ => rfl
  rw [Registry.rawMembers?, Registry.rawMembers?, hlookup, hlookup]
  rcases rel_cases (h.lookup name) with ⟨ht, hu⟩ | ⟨t, u, ht, hu, htu⟩
  · rw [ht, hu]
    rfl
  · have htraits : f.registry.traits? t = g.registry.traits? u := h.traits htu
    have hmembers : f.registry.members? t = g.registry.members? u := by
      obtain ⟨e, e', he, he', htwin⟩ := h.entry htu
      simp only [registry, members?, he, he', Option.bind_eq_bind, Option.bind_some,
        htwin.fundamental, htwin.isAbstract, htwin.members]
    rw [ht, hu]
    simp only [Option.bind_eq_bind, Option.bind_some, htraits, hmembers]

/-! ## Operations -/

theorem Alike.carries (h : f.Alike g) (ht : f.Twin g t u) (hc : f.Carries t n) :
    g.Carries u n := by
  obtain ⟨own, hown, ha, hb, ho, hn, hne⟩ := hc
  obtain ⟨e, e', he, he', htwin⟩ := h.entry ht
  cases Option.some.inj (hown.symm.trans he)
  exact ⟨e', he', htwin.isAbstract ▸ ha, htwin.isBroken ▸ hb, htwin.fundamental ▸ ho,
    htwin.nickname ▸ hn, hne⟩

theorem Alike.describe (h : f.Alike g) (ht : f.Twin g t u) (rootNames : List String) (n : String) :
    f.describe rootNames t n = g.describe rootNames u n := by
  have hdescription : (f.entry? t).bind (·.description) = (g.entry? u).bind (·.description) := by
    obtain ⟨e, e', he, he', htwin⟩ := h.entry ht
    simp only [he, he', Option.bind_some, htwin.description]
  rw [Forest.describe, Forest.describe, hdescription, h.category ht, h.arguments ht]

/-- Types below twins give the same operations. -/
theorem Alike.mem_operations (h : f.Alike g) (hbase : f.Twin g base base') {rootNames : List String}
    {op : Operation} (hop : op ∈ (f.subtypes base).filterMap (f.operation? rootNames)) :
    op ∈ (g.subtypes base').filterMap (g.operation? rootNames) := by
  obtain ⟨e, e', he, he', -⟩ := h.entry hbase
  obtain ⟨t, hmem, hsome⟩ := List.mem_filterMap.1 hop
  obtain ⟨n, hcarries, rfl⟩ := operation?_eq_some_iff.1 hsome
  have hdesc := (h.left.mem_subtypes_iff (Option.isSome_of_eq_some he)).1 hmem
  obtain ⟨u, htu⟩ := h.exists_twin (isSome_of_carries hcarries)
  refine List.mem_filterMap.2 ⟨u, ?_, operation?_eq_some_iff.2 ⟨n, ?_, h.describe htu rootNames n⟩⟩
  · exact (h.right.mem_subtypes_iff (Option.isSome_of_eq_some he')).2 (h.descends htu hbase hdesc)
  · exact h.carries htu hcarries

/-- No nickname is carried by two types at or below the base. -/
def Unshared (f : Forest) (base : TypeHandle) : Prop :=
  ∀ ⦃t u n⦄, f.Descends t base → f.Descends u base → f.Carries t n → f.Carries u n → t = u

theorem unshared_of_nodup (h : (f.handles.filterMap f.carried?).Nodup) (base : TypeHandle) :
    f.Unshared base := by
  rw [List.nodup_iff_pairwise_ne, List.pairwise_filterMap] at h
  intro t u n _ _ hct hcu
  by_contra hne
  have ht := mem_handles_iff.2 (isSome_of_carries hct)
  have hu := mem_handles_iff.2 (isSome_of_carries hcu)
  have hsymm : Std.Symm fun t u =>
      ∀ n, f.carried? t = some n → ∀ m, f.carried? u = some m → n ≠ m :=
    ⟨fun a b hab n hn m hm => (hab m hm n hn).symm⟩
  exact h.forall ht hu hne n (carried?_eq_some_iff.2 hct) n (carried?_eq_some_iff.2 hcu) rfl

theorem Alike.unshared (h : f.Alike g) (hbase : f.Twin g base base') (hu : f.Unshared base) :
    g.Unshared base' := by
  intro u v n hub hvb hcu hcv
  obtain ⟨t, hut⟩ := h.symm.exists_twin (isSome_of_carries hcu)
  obtain ⟨w, hvw⟩ := h.symm.exists_twin (isSome_of_carries hcv)
  have htw := hu (h.symm.descends hut hbase.symm hub) (h.symm.descends hvw hbase.symm hvb)
    (h.symm.carries hut hcu) (h.symm.carries hvw hcv)
  rw [← htw] at hvw
  exact h.symm.left_unique hut hvw

theorem WellFormed.nodup_operations (hf : f.WellFormed) (hbase : (f.entry? base).isSome)
    (hu : f.Unshared base) (rootNames : List String) :
    (((f.subtypes base).filterMap (f.operation? rootNames)).map (·.name)).Nodup := by
  rw [List.nodup_iff_pairwise_ne, List.pairwise_map, List.pairwise_filterMap]
  refine List.Pairwise.imp_of_mem ?_ (hf.nodup_subtypes base)
  intro t u ht hu' hne op hop op' hop' hname
  obtain ⟨n, hcn, rfl⟩ := operation?_eq_some_iff.1 hop
  obtain ⟨m, hcm, rfl⟩ := operation?_eq_some_iff.1 hop'
  have hnm : n = m := hname
  subst hnm
  exact hne (hu ((hf.mem_subtypes_iff hbase).1 ht) ((hf.mem_subtypes_iff hbase).1 hu') hcn hcm)

/-- Where no nickname is shared, twins give the same catalogue ordered by name. -/
theorem Alike.discovered (h : f.Alike g) (hbase : f.Twin g base base') (hu : f.Unshared base)
    (byName : s.operationOrder = .name) : f.discovered s base = g.discovered s base' := by
  have hregistered : ∀ {f g : Forest} {t u}, f.Twin g t u → (f.entry? t).isSome := by
    rintro f g t u ⟨e, e', he, -⟩
    exact Option.isSome_of_eq_some he
  have hleft := h.left.nodup_operations (hregistered hbase) hu s.rootTypes
  have hright := h.right.nodup_operations (hregistered hbase.symm) (h.unshared hbase hu) s.rootTypes
  have hperm : ((f.subtypes base).filterMap (f.operation? s.rootTypes)).Perm
      ((g.subtypes base').filterMap (g.operation? s.rootTypes)) := by
    rw [List.perm_ext_iff_of_nodup (List.Nodup.of_map _ hleft) (List.Nodup.of_map _ hright)]
    exact fun op => ⟨h.mem_operations hbase, h.symm.mem_operations hbase.symm⟩
  have henum : f.registry.enumType s.sentinel = g.registry.enumType s.sentinel := by
    funext name
    rw [Registry.enumType, Registry.enumType, h.rawMembers]
  simp only [Forest.discovered, Settings.arrange_congr byName hleft hperm, henum]

end Forest

end OpCatalog
