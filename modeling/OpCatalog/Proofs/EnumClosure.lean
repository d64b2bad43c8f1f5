import OpCatalog.Proofs.ByteOrder
import OpCatalog.Proofs.Validity

/-!
# The enumerated types of a discovery

A discovered catalogue lists an enumerated type for each name that its arguments mention and
for no other, in the order of the names as bytes. In a forest, names lead back to the types
that the arguments are of, so it is also known what members each of them has.
-/
namespace OpCatalog

namespace Catalog

/-- Some argument of some operation draws from an enumerated type of this name. -/
def Mentions (c : Catalog) (n : String) : Prop :=
  ∃ op ∈ c.operations, ∃ a ∈ op.arguments, a.enumType = some n

theorem mem_referencedEnums_iff {c : Catalog} {n : String} :
    n ∈ c.referencedEnums ↔ n ≠ "" ∧ c.Mentions n := by
  simp only [referencedEnums, OpCatalog.referencedEnums, Text.mem_sortedNames, List.mem_filter,
    List.mem_filterMap, List.mem_flatMap, Mentions]
  constructor
  · rintro ⟨⟨a, ⟨op, hop, ha⟩, hn⟩, hne⟩
    exact ⟨by simpa using hne, op, hop, a, ha, hn⟩
  · rintro ⟨hne, op, hop, a, ha, hn⟩
    exact ⟨⟨a, ⟨op, hop, ha⟩, hn⟩, by simpa using hne⟩

theorem pairwise_referencedEnums (c : Catalog) : c.referencedEnums.Pairwise (· < ·) :=
  Text.pairwise_sortedNames _

/-- Neither order nor repetition matters, only which names are mentioned. -/
theorem referencedEnums_congr {c c' : Catalog} (h : ∀ n, c'.Mentions n ↔ c.Mentions n) :
    c'.referencedEnums = c.referencedEnums := by
  apply Text.eq_of_pairwise_lt (pairwise_referencedEnums c') (pairwise_referencedEnums c)
  intro n
  rw [mem_referencedEnums_iff, mem_referencedEnums_iff, h]

/-- The enumerated types of a catalogue are those that its arguments mention, each resolved by
the registry. -/
structure EnumClosed {σ : Type} (c : Catalog) (reg : Registry σ) (s : Settings) : Prop where
  ascending : c.enums.Pairwise fun a b => Text.bytes a.name < Text.bytes b.name
  mentioned : ∀ n, n ∈ c.enums.map (·.name) ↔ n ≠ "" ∧ c.Mentions n
  referenced : ∀ c' : Catalog, (∀ n, c'.Mentions n ↔ c.Mentions n) →
    c.enums.map (·.name) = c'.referencedEnums
  resolved : ∀ n, n ≠ "" → c.Mentions n →
    ∃ e, c.enum? n = some e ∧ reg.resolveEnum s.sentinel s.limits.enumMembers n = .ok e
  nick_ne : ∀ e ∈ c.enums, ∀ m ∈ e.members, m.nick ≠ s.sentinel

end Catalog

namespace World

variable {σ : Type} {reg : Registry σ} {s : Settings} {w : World σ} {c : Catalog}

theorem names_of_introspect (h : (w.introspect reg s).1 = .ok c) :
    c.enums.map (·.name) = c.referencedEnums := by
  rw [(enums_of_introspect h).1, List.map_map]
  exact List.map_id _

theorem enum?_of_introspect (h : (w.introspect reg s).1 = .ok c) {n : String} (hne : n ≠ "")
    (hn : c.Mentions n) : c.enum? n = some (reg.enumType s.sentinel n) := by
  have hmem : reg.enumType s.sentinel n ∈ c.enums := by
    rw [(enums_of_introspect h).1]
    exact List.mem_map_of_mem (Catalog.mem_referencedEnums_iff.2 ⟨hne, hn⟩)
  have hnodup : (c.enums.map (·.name)).Nodup := by
    rw [names_of_introspect h]
    exact Text.nodup_of_pairwise_lt (Catalog.pairwise_referencedEnums c)
  exact find?_eq_some_of_nodup hnodup hmem

theorem enumClosed_of_introspect (h : (w.introspect reg s).1 = .ok c) : c.EnumClosed reg s := by
  obtain ⟨henums, hfew⟩ := enums_of_introspect h
  have hnames := names_of_introspect h
  refine ⟨?_, ?_, ?_, ?_, ?_⟩
  · have hsorted := Text.pairwise_bytes (Catalog.pairwise_referencedEnums c)
    rw [← hnames, List.pairwise_map] at hsorted
    exact hsorted
  · intro n
    rw [hnames, Catalog.mem_referencedEnums_iff]
  · intro c' hc'
    rw [hnames, Catalog.referencedEnums_congr hc']
  · intro n hne hn
    have he := enum?_of_introspect h hne hn
    exact ⟨_, he, Registry.resolveEnum_eq_ok_iff.2 ⟨rfl, hfew _ (List.mem_of_find?_eq_some he)⟩⟩
  · exact (sound_of_introspect h).nick_ne

end World

/-! ## Forests -/

/-- A type whose values are enumerated is an enumeration exactly if their kind is that of one. -/
theorem Traits.isEnum_iff {traits : Traits} (h : traits.kind.namesEnum = true) :
    traits.isEnum = true ↔ traits.kind = .enum := by
  rw [kind] at *
  cases hc : Capability.all.find? traits.has with
  | some c =>
    rw [hc] at h
    cases c <;> cases h
  | none =>
    simp only [hc] at h ⊢
    cases he : traits.isEnum with
    | true => simp
    | false =>
      simp only [he, Bool.false_eq_true, if_false, false_iff] at h ⊢
      split
      · simp
      · cases traits.fundamental <;>
          simp [Fundamental.kind, Fundamental.isFloating, Fundamental.isInteger]

namespace Forest

variable {f : Forest} {t : TypeHandle} {e : TypeEntry}

/-- A name leads back to the type that has it, and its members are listed if it is an
enumeration that is not abstract. -/
theorem WellFormed.rawMembers?_eq (hf : f.WellFormed) (he : f.entry? t = some e) :
    f.registry.rawMembers? e.name =
      if e.fundamental = .enum ∧ e.isAbstract = false then some e.members else none := by
  have hlookup : f.registry.lookup? e.name = some t := hf.lookup?_of_entry? he
  have htraits : f.registry.traits? t = some { has := f.has t, fundamental := e.fundamental } := by
    simp [registry, traits?, he]
  have hmembers : f.registry.members? t =
      if e.fundamental = .enum ∧ e.isAbstract = false then some e.members else none := by
    simp [registry, members?, he]
  simp only [Registry.rawMembers?, hlookup, htraits, hmembers, Option.bind_eq_bind,
    Option.bind_some, beq_iff_eq]
  by_cases henum : e.fundamental = .enum
  · rw [if_pos henum]
  · rw [if_neg henum, if_neg (mt And.left henum)]

/-- The members that a type gives to the arguments of its kind. -/
theorem WellFormed.members_enumType (hf : f.WellFormed) (he : f.entry? t = some e)
    (hk : (f.registry.kindOf t).namesEnum = true) (sentinel : String) :
    (f.registry.enumType sentinel e.name).members =
      if f.registry.kindOf t = .enum ∧ e.isAbstract = false then keptMembers sentinel e.members
      else [] := by
  have hkind : f.registry.kindOf t =
      Traits.kind { has := f.has t, fundamental := e.fundamental } := by
    simp only [Registry.kindOf, registry, traits?, he, Option.map_some]
  have hisEnum : e.fundamental = .enum ↔ f.registry.kindOf t = .enum := by
    rw [hkind] at hk ⊢
    rw [← Traits.isEnum_iff hk, beq_iff_eq]
  simp only [Registry.enumType, hf.rawMembers?_eq he, hisEnum]
  split <;> rfl

/-- An argument that draws from an enumerated type is of the type that its name leads to, and the
catalogue lists the members of that type. -/
theorem WellFormed.enum?_of_introspect (hf : f.WellFormed) {s : Settings} {w : World Process}
    {c : Catalog} (h : (w.introspect f.registry s).1 = .ok c) {op : Operation}
    (hop : op ∈ c.operations) {a : Argument} (ha : a ∈ op.arguments)
    (hk : a.kind.namesEnum = true) :
    ∃ spec entry, f.registry.Offers spec ∧ a = f.registry.classify spec ∧
      f.entry? spec.valueType = some entry ∧ a.enumType = some entry.name ∧
      c.enum? entry.name = some ⟨entry.name,
        if a.kind = .enum ∧ entry.isAbstract = false then
          (entry.members.filter (·.nick ≠ some s.sentinel)).map EnumMember.ofRaw
        else []⟩ := by
  obtain ⟨spec, hoffers, rfl⟩ := World.exists_offers_of_introspect h hop ha
  obtain ⟨name, hname, hne⟩ := hf.namesType_of_offers hoffers
  obtain ⟨entry, hentry, rfl⟩ := Option.map_eq_some_iff.1 hname
  have hmention : (f.registry.classify spec).enumType = some entry.name := by
    simp only [Registry.classify] at hk ⊢
    rw [if_pos hk, hname, Option.getD_some]
  have henum := World.enum?_of_introspect h hne ⟨op, hop, _, ha, hmention⟩
  have hsentinel : s.sentinel ≠ "" := by
    have := (Settings.fault?_eq_none_iff.1 (World.ok_of_introspect h).1).2.1
    simpa using this
  -- A missing nick is read as an empty one, which a valid sentinel is not.
  have hmembers := hf.members_enumType hentry hk s.sentinel
  rw [keptMembers_eq hsentinel] at hmembers
  refine ⟨spec, entry, hoffers, rfl, hentry, hmention, ?_⟩
  rw [henum, Registry.classify, ← hmembers]
  rfl

end Forest

/-- A discovered catalogue lists the enumerated types that its arguments mention and no others.
In a forest an argument of kind `enum` whose type is concrete finds the members of the type there,
the sentinel apart; all other arguments that draw from an enumerated type find one without
members. -/
theorem enumClosed_and_members_of_introspect :
    (∀ {σ : Type} (reg : Registry σ) (s : Settings) (w : World σ) (c : Catalog),
      (w.introspect reg s).1 = .ok c → c.EnumClosed reg s) ∧
    ∀ h : Host, h.forest.Grown → ∀ (s : Settings) (c : Catalog),
      (h.world.introspect h.forest.registry s).1 = .ok c →
        ∀ op ∈ c.operations, ∀ a ∈ op.arguments, a.kind.namesEnum = true →
          ∃ spec entry e, h.forest.registry.Offers spec ∧ a = h.forest.registry.classify spec ∧
            h.forest.entry? spec.valueType = some entry ∧ a.enumType = some entry.name ∧
            c.enum? entry.name = some e ∧
            ((a.kind = .flags ∨ entry.isAbstract = true) → e.members = []) ∧
            (a.kind = .enum → entry.isAbstract = false → e.members =
              (entry.members.filter (·.nick ≠ some s.sentinel)).map EnumMember.ofRaw) := by
  constructor
  · intro σ reg s w c h
    exact World.enumClosed_of_introspect h
  · intro host grown s c h op hop a ha hk
    obtain ⟨spec, entry, hoffers, rfl, hentry, hmention, henum⟩ :=
      grown.wellFormed.enum?_of_introspect h hop ha hk
    refine ⟨spec, entry, _, hoffers, rfl, hentry, hmention, henum, ?_, ?_⟩
    · rintro (hflags | habstract)
      · exact if_neg (by simp [hflags])
      · exact if_neg (by simp [habstract])
    · intro henumKind hconcrete
      exact if_pos ⟨henumKind, hconcrete⟩

/-- An enumeration with a nameless member and a sentinel, flags, and an operation with both. -/
def aligningTypes : List TypeDefinition :=
  [{ TypeDefinition.enumeration "VipsAlign" with
      members := [⟨none, some "low", 0⟩, ⟨some "VIPS_ALIGN_LAST", some "last", 1⟩] },
    (TypeDefinition.flagsType "VipsHints").addMember "VIPS_HINTS_FAST" "fast" 1,
    ((TypeDefinition.named "VipsJoin").withParent "VipsOperation").withNickname "join"
      |>.addArgument { name := "hints", typeName := "VipsHints", flags := ParamFlag.optionalInput }
      |>.addArgument { name := "align", typeName := "VipsAlign", flags := ParamFlag.optionalInput }]

def Host.aligning : Host := (Host.standard.registerAll aligningTypes).2

/-- The table mentions only the empty name; the forest lists both types, one without members. -/
theorem enumClosed_and_members_of_introspect_samples :
    (∃ c, (World.introspect namelessTable.registry {} ⟨{}, {}⟩).1 = .ok c ∧ c.Mentions "" ∧
      c.EnumClosed namelessTable.registry {}) ∧
    ∃ c, (Host.aligning.world.introspect Host.aligning.forest.registry {}).1 = .ok c ∧
      c.enums = [⟨"VipsAlign", [⟨"", "low", 0⟩]⟩, ⟨"VipsHints", []⟩] ∧
      c.EnumClosed Host.aligning.forest.registry {} ∧
      ∃ op ∈ c.operations, ∃ a ∈ op.arguments, a.kind = .flags ∧
        ∃ n e, a.enumType = some n ∧ c.enum? n = some e ∧ e.members = [] := by
  obtain ⟨closed, members⟩ := enumClosed_and_members_of_introspect
  constructor
  · refine ⟨_, rfl, ⟨_, List.mem_cons_self, _, List.mem_cons_self, rfl⟩, ?_⟩
    exact closed namelessTable.registry {} ⟨{}, {}⟩ _ rfl
  · have grown : Host.aligning.forest.Grown := Forest.Grown.standard.registerAll aligningTypes
    have hints : ∃ c op a, (Host.aligning.world.introspect Host.aligning.forest.registry {}).1 =
        .ok c ∧ op ∈ c.operations ∧ a ∈ op.arguments ∧ a.kind = .flags := by
      exact ⟨_, _, _, rfl, List.mem_cons_self, List.mem_cons_self, rfl⟩
    obtain ⟨c, op, a, hok, hop, ha, hflags⟩ := hints
    have hnames : a.kind.namesEnum = true := by rw [hflags]; rfl
    obtain ⟨_, entry, e, -, -, -, hmention, henum, hnone, -⟩ :=
      members Host.aligning grown {} c hok op hop a ha hnames
    have henums :
        (Host.aligning.world.introspect Host.aligning.forest.registry {}).1.map (·.enums) =
          .ok [⟨"VipsAlign", [⟨"", "low", 0⟩]⟩, ⟨"VipsHints", []⟩] := by rfl
    rw [hok] at henums
    exact ⟨c, hok, Except.ok.inj henums, closed _ {} _ c hok, op, hop, a, ha, hflags, entry.name, e,
      hmention, henum, hnone (Or.inl hflags)⟩

end OpCatalog
