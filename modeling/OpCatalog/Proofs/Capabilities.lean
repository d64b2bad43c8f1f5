import OpCatalog.Proofs.Extension
import OpCatalog.Proofs.RegistrationOrder
import OpCatalog.Proofs.Registrations

/-!
# Capabilities and fundamental types

The kind of a type is that of the first capability that it has, and where it has none that of its
fundamental type. Above the standard types no type comes to have two capabilities, so that the
order in which they are tried does not matter, and the fundamental type that a registration takes
over from the parent is the one that was given last on the way down from the root.
`classified_of_stocked` says both of every type that is registered.
-/
namespace OpCatalog

namespace Traits

/-- The kind, if the capabilities are tried in the given order. -/
def kindBy (order : List Capability) (traits : Traits) : Kind :=
  match order.find? traits.has with
  | some c => c.kind
  | none =>
    if traits.isEnum then .enum
    else if traits.isFlags then .flags
    else traits.fundamental.kind

theorem kindBy_all (traits : Traits) : traits.kindBy Capability.all = traits.kind := rfl

variable {traits : Traits} {order order' : List Capability} {c : Capability}

/-- No type has two capabilities. -/
def Exclusive (traits : Traits) : Prop :=
  ∀ c c', traits.has c = true → traits.has c' = true → c = c'

theorem kindBy_of_has (h : traits.Exclusive) (horder : ∀ c, c ∈ order) (hc : traits.has c = true) :
    traits.kindBy order = c.kind := by
  cases hfind : order.find? traits.has with
  | none => exact absurd hc (List.find?_eq_none.1 hfind c (horder c))
  | some first =>
    rw [kindBy, hfind, h first c (List.find?_some hfind) hc]

theorem kindBy_of_none (h : ∀ c, traits.has c = false) (order order' : List Capability) :
    traits.kindBy order = traits.kindBy order' := by
  have hnone : ∀ order : List Capability, order.find? traits.has = none := by
    intro order
    simp [List.find?_eq_none, h]
  rw [kindBy, kindBy, hnone, hnone]

theorem Exclusive.kindBy_eq (h : traits.Exclusive) (horder : ∀ c, c ∈ order) :
    traits.kindBy order = traits.kind := by
  rw [← kindBy_all]
  by_cases hnone : ∀ c, traits.has c = false
  · exact kindBy_of_none hnone _ _
  · obtain ⟨c, hc⟩ := not_forall.1 hnone
    have hhas := eq_true_of_ne_false hc
    rw [kindBy_of_has h horder hhas, kindBy_of_has h Capability.mem_all hhas]

end Traits

/-- The kind of a type that has nothing but its fundamental type. -/
def Fundamental.bareKind : Fundamental → Kind
  | .enum => .enum
  | .flags => .flags
  | .float | .double => .double
  | .int | .uint | .long | .ulong | .int64 | .uint64 => .int
  | .boolean => .bool
  | .string => .string
  | .object | .boxed | .pointer | .other => .unknown

theorem Fundamental.bareKind_eq_unknown_iff {x : Fundamental} :
    x.bareKind = .unknown ↔ x ∈ [.object, .boxed, .pointer, .other] := by
  cases x <;> decide

theorem Traits.kind_eq_bareKind {has : Capability → Bool} (h : ∀ c, has c = false)
    (x : Fundamental) : Traits.kind { has := has, fundamental := x } = x.bareKind := by
  have hnone : Capability.all.find? has = none := by simp [List.find?_eq_none, h]
  simp only [Traits.kind, hnone]
  cases x <;> rfl

namespace Forest

variable {f : Forest} {t u : TypeHandle} {e : TypeEntry} {ds : List TypeDefinition}
  {x : Fundamental} {c c' : Capability}

/-! ## Capabilities -/

theorem WellFormed.has_iff (hf : f.WellFormed) (ht : (f.entry? t).isSome) :
    f.has t c = true ↔ ∃ u, f.lookup? c.typeName = some u ∧ f.Descends t u := by
  rw [has, Option.any_eq_true]
  exact exists_congr fun u => and_congr_right fun _ => hf.isA_iff ht

/-- Of the standard types that stand for capabilities, none derives from another. -/
theorem eq_of_standard_has (hl : standard.lookup? c.typeName = some u)
    (h : standard.has u c' = true) : c = c' := by
  have hall : ∀ c ∈ Capability.all, ∀ c' ∈ Capability.all,
      ((standard.lookup? c.typeName).any fun u => standard.has u c') = true → c = c' := by
    decide +kernel
  exact hall c c.mem_all c' c'.mem_all (by rw [hl]; exact h)

theorem isSome_standard_lookup? (c : Capability) : (standard.lookup? c.typeName).isSome := by
  cases c <;> rfl

namespace Extends

variable (h : standard.Extends f)
include h

theorem eq_of_descends {w w' : TypeHandle} (hl : f.lookup? c.typeName = some w)
    (hl' : f.lookup? c'.typeName = some w') (hdesc : f.Descends w w') : c = c' := by
  obtain ⟨u, hu⟩ := Option.isSome_iff_exists.1 (isSome_standard_lookup? c)
  have hw := h.lookup hu
  cases hl.symm.trans hw
  have hstandard := h.old.isSome_entry?_of_lookup? hu
  refine eq_of_standard_has hu ?_
  rw [← h.has hstandard, h.extended.has_iff (h.isSome_entry? hstandard)]
  exact ⟨w', hl', hdesc⟩

/-- Two ancestors of a type stand above each other, which no two of those do that give a
capability. -/
theorem exclusive (ht : (f.entry? t).isSome) {traits : Traits} (htraits : traits.has = f.has t) :
    traits.Exclusive := by
  intro c c' hc hc'
  rw [htraits, h.extended.has_iff ht] at hc hc'
  obtain ⟨w, hl, hw⟩ := hc
  obtain ⟨w', hl', hw'⟩ := hc'
  rcases hw.comparable hw' with hdesc | hdesc
  · exact h.eq_of_descends hl hl' hdesc
  · exact (h.eq_of_descends hl' hl hdesc).symm

end Extends

/-! ## Fundamental types -/

/-- The fundamental type that is given for a type or, where none is, for the nearest type above it
for which one is; it is `other` if there is none. The definitions stand in the order of handles. -/
inductive Settles (f : Forest) (ds : List TypeDefinition) : TypeHandle → Fundamental → Prop
  | given {i : Nat} {d : TypeDefinition} {x : Fundamental} :
    ds[i]? = some d → d.fundamental = some x → Settles f ds ⟨i + 1⟩ x
  | inherited {i : Nat} {d : TypeDefinition} {p : TypeHandle} {x : Fundamental} :
    ds[i]? = some d → d.fundamental = none → f.parent? ⟨i + 1⟩ = some p → Settles f ds p x →
      Settles f ds ⟨i + 1⟩ x
  | unsaid {i : Nat} {d : TypeDefinition} :
    ds[i]? = some d → d.fundamental = none → f.parent? ⟨i + 1⟩ = none →
      Settles f ds ⟨i + 1⟩ .other

theorem Records.fundamental_eq (h : f.Records ds) {i : Nat} {d : TypeDefinition}
    (hd : ds[i]? = some d) (he : f.entry? ⟨i + 1⟩ = some e) :
    e.fundamental = d.fundamental.getD
      ((((f.parent? ⟨i + 1⟩).bind f.entry?).map (·.fundamental)).getD .other) := by
  obtain ⟨e', he', hreal⟩ := h.realizes hd
  cases he.symm.trans he'
  rw [parent?, he, Option.bind_some]
  exact hreal.fundamental

theorem Records.settles (h : f.Records ds) (hf : f.WellFormed) (he : f.entry? t = some e) :
    f.Settles ds t e.fundamental := by
  induction t using hf.wellFounded_parent?.induction generalizing e with
  | h t ih =>
    obtain ⟨hpos, hle⟩ := isSome_entry?_iff.1 (Option.isSome_of_eq_some he)
    obtain ⟨i, rfl⟩ : ∃ i, t = ⟨i + 1⟩ := ⟨t.raw - 1, by rw [Nat.sub_add_cancel hpos]⟩
    have hlt : i < ds.length := h.size_eq ▸ Nat.lt_of_succ_le hle
    have hd := List.getElem?_eq_getElem hlt
    rw [h.fundamental_eq hd he]
    cases hx : ds[i].fundamental with
    | some x => exact Settles.given hd hx
    | none =>
      cases hp : f.parent? ⟨i + 1⟩ with
      | none => exact Settles.unsaid hd hx hp
      | some p =>
        obtain ⟨above, habove⟩ := Option.isSome_iff_exists.1 (hf.parent_lt hp).1
        rw [Option.bind_some, habove]
        exact Settles.inherited hd hx hp (ih p hp habove)

theorem Records.eq_of_settles (h : f.Records ds) (hf : f.WellFormed) (hs : f.Settles ds t x)
    (he : f.entry? t = some e) : x = e.fundamental := by
  induction hs generalizing e with
  | given hd hx => rw [h.fundamental_eq hd he, hx, Option.getD_some]
  | inherited hd hx hp _ ih =>
    obtain ⟨above, habove⟩ := Option.isSome_iff_exists.1 (hf.parent_lt hp).1
    rw [h.fundamental_eq hd he, hx, hp, Option.bind_some, habove]
    exact ih habove
  | unsaid hd hx hp =>
    rw [h.fundamental_eq hd he, hx, hp]
    rfl

/-! ## Kinds -/

/-- What is known of the kind of a type. -/
structure Classified (f : Forest) (ds : List TypeDefinition) (t : TypeHandle) (traits : Traits) :
    Prop where
  traits_eq : f.registry.traits? t = some traits
  /-- A capability comes from the type itself or from one above it. -/
  has_iff : ∀ c, traits.has c = true ↔ ∃ u, f.lookup? c.typeName = some u ∧ f.Descends t u
  exclusive : traits.Exclusive
  kindBy_eq : ∀ order, (∀ c, c ∈ order) → traits.kindBy order = f.registry.kindOf t
  kind_of_has : ∀ c, traits.has c = true → f.registry.kindOf t = c.kind
  settles_iff : ∀ x, f.Settles ds t x ↔ x = traits.fundamental
  kind_of_none : (∀ c, traits.has c = false) →
    f.registry.kindOf t = traits.fundamental.bareKind
  unknown_iff : (∀ c, traits.has c = false) →
    (f.registry.kindOf t = .unknown ↔ traits.fundamental ∈ [.object, .boxed, .pointer, .other])

theorem Records.classified (h : f.Records ds) (hext : standard.Extends f)
    (he : f.entry? t = some e) :
    f.Classified ds t { has := f.has t, fundamental := e.fundamental } := by
  have hf := hext.extended
  have ht := Option.isSome_of_eq_some he
  have htraits : f.registry.traits? t = some { has := f.has t, fundamental := e.fundamental } := by
    simp only [registry, traits?, he, Option.map_some]
  have hkind : f.registry.kindOf t =
      Traits.kind { has := f.has t, fundamental := e.fundamental } := by
    rw [Registry.kindOf, htraits]
  have hexclusive : Traits.Exclusive { has := f.has t, fundamental := e.fundamental } :=
    hext.exclusive ht rfl
  have hbare : (∀ c, f.has t c = false) → f.registry.kindOf t = e.fundamental.bareKind :=
    fun hnone => hkind.trans (Traits.kind_eq_bareKind hnone e.fundamental)
  exact
    { traits_eq := htraits
      has_iff := fun c => hf.has_iff ht
      exclusive := hexclusive
      kindBy_eq := fun order horder => (hexclusive.kindBy_eq horder).trans hkind.symm
      kind_of_has := fun c hc => hkind.trans (Traits.kindBy_of_has hexclusive Capability.mem_all hc)
      settles_iff := fun x => ⟨fun hs => h.eq_of_settles hf hs he, fun hx => hx ▸ h.settles hf he⟩
      kind_of_none := hbare
      unknown_iff := fun hnone => hbare hnone ▸ Fundamental.bareKind_eq_unknown_iff }

end Forest

namespace Host

variable {h : Host} {ds : List TypeDefinition} {t : TypeHandle}

/-- The hosts that registrations lead to from the standard types, each with the definitions of its
types in the order of their handles. -/
inductive Stocked : Host → List TypeDefinition → Prop
  | standard : Stocked standard Forest.standardDefinitions
  | accepted {h h' : Host} {ds : List TypeDefinition} {d : TypeDefinition} {t : TypeHandle} :
    Stocked h ds → h.register d = (.ok t, h') → Stocked h' (ds ++ [d])
  | refused {h h' : Host} {ds : List TypeDefinition} {d : TypeDefinition} {r : Refusal} :
    Stocked h ds → h.register d = (.error r, h') → Stocked h' ds

theorem Stocked.records (stocked : h.Stocked ds) :
    h.forest.Records ds ∧ Forest.standard.Extends h.forest := by
  induction stocked with
  | standard => exact ⟨Forest.records_standard, .refl Forest.wellFormed_standard⟩
  | accepted _ hd ih =>
    obtain ⟨f, hr, rfl⟩ := ok_of_register hd
    exact ⟨ih.1.register hr, ih.2.trans (ih.2.extended.extends_register hr)⟩
  | refused _ hd ih =>
    obtain ⟨-, rfl⟩ := error_of_register hd
    exact ih

theorem Stocked.registerAll {h' : Host} {ds' : List TypeDefinition} (stocked : h.Stocked ds)
    (hall : h.registerAll ds' = (.ok (), h')) : h'.Stocked (ds ++ ds') := by
  rcases hr : h.forest.registerAll ds' with ⟨result, g⟩
  simp only [Host.registerAll, hr, Prod.mk.injEq] at hall
  obtain ⟨rfl, rfl⟩ := hall
  refine Forest.registerAll_accepted (P := fun ds f => Stocked { h with forest := f } ds) ?_
    stocked hr
  intro ds f d r hf hd
  exact hf.accepted (by rw [Host.register, hd])

/-- Above the standard types, a type has at most one capability, which decides its kind whatever
is declared for it, and a type without any has the kind of the fundamental type that is given for
it or for the nearest type above it. -/
theorem classified_of_stocked (stocked : h.Stocked ds) (registered : (h.forest.entry? t).isSome) :
    ∃ traits, h.forest.Classified ds t traits := by
  obtain ⟨e, he⟩ := Option.isSome_iff_exists.1 registered
  obtain ⟨hrecords, hext⟩ := stocked.records
  exact ⟨_, hrecords.classified hext he⟩

/-- A picture that is declared to be an enumeration, a type about which nothing is said, one below
it that counts, and one below that. -/
def dialTypes : List TypeDefinition :=
  [((TypeDefinition.named "Picture").withParent "VipsImage").withFundamental .enum,
    TypeDefinition.named "Plain",
    ((TypeDefinition.named "Counter").withParent "Plain").withFundamental .int,
    (TypeDefinition.named "Dial").withParent "Counter"]

/-- A host with these types, of which the last was registered twice, and in vain the second time. -/
def dials : Host :=
  ((standard.registerAll dialTypes).2.register
    ((TypeDefinition.named "Dial").withFundamental .string)).2

theorem classified_of_stocked_dials :
    dials.forest.registry.kindOf ⟨28⟩ = .image ∧
      dials.forest.Settles (Forest.standardDefinitions ++ dialTypes) ⟨28⟩ .enum ∧
      dials.forest.registry.kindOf ⟨29⟩ = .unknown ∧
      dials.forest.registry.kindOf ⟨31⟩ = .int := by
  have loaded : (standard.registerAll dialTypes).2.Stocked
      (Forest.standardDefinitions ++ dialTypes) :=
    Stocked.standard.registerAll rfl
  have stocked : dials.Stocked (Forest.standardDefinitions ++ dialTypes) :=
    loaded.refused (d := (TypeDefinition.named "Dial").withFundamental .string)
      (r := .duplicateName "Dial") rfl
  obtain ⟨picture, hpicture⟩ := classified_of_stocked (t := ⟨28⟩) stocked rfl
  obtain ⟨plain, hplain⟩ := classified_of_stocked (t := ⟨29⟩) stocked rfl
  obtain ⟨dial, hdial⟩ := classified_of_stocked (t := ⟨31⟩) stocked rfl
  have hothers : ∀ {t traits}, dials.forest.Classified (Forest.standardDefinitions ++ dialTypes) t
      traits → (∀ c, dials.forest.has t c = false) → ∀ c, traits.has c = false := by
    intro t traits h hnone c
    obtain ⟨e, -, rfl⟩ := Option.map_eq_some_iff.1 h.traits_eq
    exact hnone c
  refine ⟨hpicture.kind_of_has .image ?_, .given (i := 27) rfl rfl, ?_, ?_⟩
  · exact (hpicture.has_iff .image).2 ⟨⟨4⟩, rfl, .step rfl (.refl _)⟩
  · rw [hplain.kind_of_none (hothers hplain fun c => by cases c <;> rfl),
      ← (hplain.settles_iff .other).1 (.unsaid (i := 28) rfl rfl rfl)]
    rfl
  · have hsettles : dials.forest.Settles (Forest.standardDefinitions ++ dialTypes) ⟨31⟩ .int :=
      .inherited (i := 30) rfl rfl rfl (.given (i := 29) rfl rfl)
    rw [hdial.kind_of_none (hothers hdial fun c => by cases c <;> rfl),
      ← (hdial.settles_iff .int).1 hsettles]
    rfl

end Host

end OpCatalog
