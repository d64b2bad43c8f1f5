import OpCatalog.Catalog.Validity
import OpCatalog.Proofs.Arrangement
import OpCatalog.Proofs.Enumeration
import OpCatalog.Proofs.Forest
import OpCatalog.Proofs.Inspection

/-!
# Validity of what is discovered

A discovered catalogue breaks at most one of the rules that `Catalog.check` enforces: the
registry may fail to name an enumerated type. Each of the other rules is established by one
stage of the discovery and left intact by the stages after it. A forest names all its
types, so what is discovered there breaks no rule.
-/
namespace OpCatalog

/-! ## Catalogues that can only lack names of enumerated types -/

/-- Everything that `check` asks for, except that enumerated types are named. -/
structure Catalog.Sound (c : Catalog) (sentinel : String) : Prop where
  nodup_names : (c.operations.map (·.name)).Nodup
  category_ne : ∀ op ∈ c.operations, op.category ≠ ""
  nodup_arguments : ∀ op ∈ c.operations, (op.arguments.map (·.name)).Nodup
  bounds_zero : ∀ op ∈ c.operations, ∀ a ∈ op.arguments, a.kind.isNumeric = false →
    a.bounds.isZero = true
  nick_ne : ∀ e ∈ c.enums, ∀ m ∈ e.members, m.nick ≠ sentinel

/-- An argument names an enumerated type exactly if its kind asks for one. -/
def Argument.EnumAgrees (a : Argument) : Prop := a.kind.namesEnum = a.hasEnumName

namespace Catalog

theorem checkArguments_cases (operation : String) {seen : List String} {args : List Argument}
    (fresh : ∀ a ∈ args, a.name ∉ seen) (hn : (args.map (·.name)).Nodup)
    (hz : ∀ a ∈ args, a.kind.isNumeric = false → a.bounds.isZero = true) :
    ((∀ a ∈ args, a.EnumAgrees) ∧ checkArguments operation seen args = .ok ()) ∨
      ∃ a ∈ args, ¬a.EnumAgrees ∧
        checkArguments operation seen args = .error (.enumNameMismatch operation a.name) := by
  induction args generalizing seen with
  | nil => exact Or.inl ⟨by simp, rfl⟩
  | cons a args ih =>
    rw [List.map_cons, List.nodup_cons] at hn
    have hfresh : ∀ b ∈ args, b.name ∉ a.name :: seen := by
      intro b hb hm
      rcases List.mem_cons.1 hm with he | hm
      · exact hn.1 (he ▸ List.mem_map_of_mem hb)
      · exact fresh b (List.mem_cons_of_mem _ hb) hm
    have hbounds : (!a.kind.isNumeric && !a.bounds.isZero) = false := by
      cases hk : a.kind.isNumeric with
      | false => simp [hz a List.mem_cons_self hk]
      | true => rfl
    rw [checkArguments, if_neg (by simpa using fresh a List.mem_cons_self),
      if_neg (by simp [hbounds])]
    by_cases ha : a.EnumAgrees
    · rw [if_neg (by simpa [Argument.EnumAgrees] using ha)]
      rcases ih hfresh hn.2 (fun b hb => hz b (List.mem_cons_of_mem _ hb)) with
        ⟨hall, hok⟩ | ⟨b, hb, hne, herr⟩
      · refine Or.inl ⟨?_, hok⟩
        intro b hb
        rcases List.mem_cons.1 hb with rfl | hb
        · exact ha
        · exact hall b hb
      · exact Or.inr ⟨b, List.mem_cons_of_mem _ hb, hne, herr⟩
    · rw [if_pos (by simpa [Argument.EnumAgrees] using ha)]
      exact Or.inr ⟨a, List.mem_cons_self, ha, rfl⟩

theorem checkOperations_cases {seen : List String} {ops : List Operation}
    (fresh : ∀ op ∈ ops, op.name ∉ seen) (hn : (ops.map (·.name)).Nodup)
    (hc : ∀ op ∈ ops, op.category ≠ "") (ha : ∀ op ∈ ops, (op.arguments.map (·.name)).Nodup)
    (hz : ∀ op ∈ ops, ∀ a ∈ op.arguments, a.kind.isNumeric = false → a.bounds.isZero = true) :
    ((∀ op ∈ ops, ∀ a ∈ op.arguments, a.EnumAgrees) ∧ checkOperations seen ops = .ok ()) ∨
      ∃ op ∈ ops, ∃ a ∈ op.arguments, ¬a.EnumAgrees ∧
        checkOperations seen ops = .error (.enumNameMismatch op.name a.name) := by
  induction ops generalizing seen with
  | nil => exact Or.inl ⟨by simp, rfl⟩
  | cons op ops ih =>
    rw [List.map_cons, List.nodup_cons] at hn
    have hfresh : ∀ other ∈ ops, other.name ∉ op.name :: seen := by
      intro other ho hm
      rcases List.mem_cons.1 hm with he | hm
      · exact hn.1 (he ▸ List.mem_map_of_mem ho)
      · exact fresh other (List.mem_cons_of_mem _ ho) hm
    rw [checkOperations, if_neg (by simpa using fresh op List.mem_cons_self),
      if_neg (by simpa using hc op List.mem_cons_self)]
    have hnew : ∀ a ∈ op.arguments, a.name ∉ ([] : List String) := by simp
    rcases checkArguments_cases op.name hnew (ha op List.mem_cons_self)
        (hz op List.mem_cons_self) with ⟨hargs, hok⟩ | ⟨a, hmem, hne, herr⟩
    · rw [hok]
      rcases ih hfresh hn.2 (fun o ho => hc o (List.mem_cons_of_mem _ ho))
          (fun o ho => ha o (List.mem_cons_of_mem _ ho))
          (fun o ho => hz o (List.mem_cons_of_mem _ ho)) with
        ⟨hall, hrest⟩ | ⟨other, ho, a, hmem, hne, herr⟩
      · refine Or.inl ⟨?_, hrest⟩
        intro other ho
        rcases List.mem_cons.1 ho with rfl | ho
        · exact hargs
        · exact hall other ho
      · exact Or.inr ⟨other, List.mem_cons_of_mem _ ho, a, hmem, hne, herr⟩
    · rw [herr]
      exact Or.inr ⟨op, List.mem_cons_self, a, hmem, hne, rfl⟩

theorem checkEnums_eq_ok {sentinel : String} {es : List EnumType}
    (h : ∀ e ∈ es, ∀ m ∈ e.members, m.nick ≠ sentinel) : checkEnums sentinel es = .ok () := by
  induction es with
  | nil => rfl
  | cons e es ih =>
    have hnone : e.byNick? sentinel = none := by
      rw [EnumType.byNick?, List.find?_eq_none]
      intro m hm
      simpa using h e List.mem_cons_self m hm
    rw [checkEnums, hnone]
    exact ih fun e' he' => h e' (List.mem_cons_of_mem _ he')

theorem Sound.check_cases {c : Catalog} {sentinel : String} (h : c.Sound sentinel) :
    ((∀ op ∈ c.operations, ∀ a ∈ op.arguments, a.EnumAgrees) ∧ c.check sentinel = .ok ()) ∨
      ∃ op ∈ c.operations, ∃ a ∈ op.arguments, ¬a.EnumAgrees ∧
        c.check sentinel = .error (.enumNameMismatch op.name a.name) := by
  rw [check]
  have hnew : ∀ op ∈ c.operations, op.name ∉ ([] : List String) := by simp
  rcases checkOperations_cases hnew h.nodup_names h.category_ne h.nodup_arguments
      h.bounds_zero with ⟨hall, hok⟩ | ⟨op, hop, a, ha, hne, herr⟩
  · rw [hok]
    exact Or.inl ⟨hall, checkEnums_eq_ok h.nick_ne⟩
  · rw [herr]
    exact Or.inr ⟨op, hop, a, ha, hne, rfl⟩

end Catalog

/-! ## What a registry lists -/

namespace Registry

variable {σ : Type}

/-- Some object that the registry makes has the parameter. -/
def Offers (reg : Registry σ) (spec : ParamSpec) : Prop :=
  ∃ t state object state',
    reg.instantiate t state = (some object, state') ∧ spec ∈ reg.parameters object state'

/-- The registry gives the type a name that is not empty. -/
def NamesType (reg : Registry σ) (t : TypeHandle) : Prop :=
  ∃ name, reg.typeName? t = some name ∧ name ≠ ""

/-- Every argument that draws from an enumerated type has a value type with a name. -/
def NamesValueTypes (reg : Registry σ) (c : Catalog) : Prop :=
  ∀ op ∈ c.operations, ∀ a ∈ op.arguments, a.kind.namesEnum = true →
    ∃ spec, reg.Offers spec ∧ a = reg.classify spec ∧ reg.NamesType spec.valueType

theorem enumAgrees_classify_iff (reg : Registry σ) (spec : ParamSpec) :
    (reg.classify spec).EnumAgrees ↔
      ((reg.classify spec).kind.namesEnum → reg.NamesType spec.valueType) := by
  simp only [Argument.EnumAgrees, Argument.hasEnumName, classify, NamesType]
  cases hk : (reg.kindOf spec.valueType).namesEnum with
  | false => simp
  | true =>
    cases hn : reg.typeName? spec.valueType with
    | none => simp
    | some name => simp

theorem isZero_bounds_classify (reg : Registry σ) (spec : ParamSpec)
    (h : (reg.classify spec).kind.isNumeric = false) :
    (reg.classify spec).bounds.isZero = true := by
  simp only [classify] at h ⊢
  simp only [ParamValue.bounds, h]
  rfl

theorem ne_of_categoryOfAncestor? {name category : String}
    (h : categoryOfAncestor? name = some category) : category ≠ "" := by
  have hall : ∀ row ∈ ancestorCategories, row.2 ≠ "" := by decide
  obtain ⟨before, after, heq, -⟩ := List.lookup_eq_some_iff.1 h
  exact hall (name, category) (heq ▸ by simp)

theorem ne_of_categoryFrom? {reg : Registry σ} {roots : List TypeHandle} {fuel : Nat}
    {visited : List TypeHandle} {next : Option TypeHandle} {category : String}
    (h : reg.categoryFrom? roots fuel visited next = some category) : category ≠ "" := by
  induction fuel generalizing visited next with
  | zero => cases h
  | succ fuel ih =>
    cases next with
    | none => cases h
    | some t =>
      rw [categoryFrom?] at h
      split at h
      · cases h
      · cases ht : reg.tabledCategory? t with
        | none => exact ih (by simpa only [ht] using h)
        | some found =>
          obtain ⟨name, -, hname⟩ := Option.bind_eq_some_iff.1 ht
          simp only [ht, Option.some.injEq] at h
          exact h ▸ ne_of_categoryOfAncestor? hname

theorem category_ne (reg : Registry σ) (rootNames : List String) (t : TypeHandle) {name : String}
    (h : name ≠ "") : reg.category rootNames t name ≠ "" := by
  rw [category]
  cases ha : reg.ancestorCategory? rootNames t with
  | none => exact h
  | some category => exact ne_of_categoryFrom? ha

end Registry

theorem Settings.override_ne {s : Settings} (valid : s.fault? = none) {name category : String}
    (h : s.overrides.lookup name = some category) : category ≠ "" := by
  obtain ⟨-, -, -, -, hall⟩ := Settings.fault?_eq_none_iff.1 valid
  obtain ⟨before, after, heq, -⟩ := List.lookup_eq_some_iff.1 h
  have hblank := hall (name, category) (heq ▸ by simp)
  rintro rfl
  cases hblank

/-! ## Discovered catalogues -/

namespace World

variable {σ : Type} {reg : Registry σ} {s : Settings} {w : World σ} {c : Catalog}

/-- Every argument of a discovered catalogue classifies a parameter that the registry offers. -/
theorem exists_offers_of_introspect (h : (w.introspect reg s).1 = .ok c) {op : Operation}
    (hop : op ∈ c.operations) {a : Argument} (ha : a ∈ op.arguments) :
    ∃ spec, reg.Offers spec ∧ a = reg.classify spec := by
  obtain ⟨found, t, name, state, rfl, -, hi⟩ := exists_inspect_of_introspect h hop
  obtain ⟨object, state', hobject, rfl, -⟩ := Registry.ok_of_inspect hi
  have hmem := (s.arguments_arrangeOperation_perm _).mem_iff.1 ha
  obtain ⟨spec, hspec, rfl⟩ := List.mem_map.1 hmem
  exact ⟨spec, ⟨t, state, object, state', hobject, mem_of_mem_keptParameters hspec⟩, rfl⟩

theorem nodup_arguments_of_introspect (h : (w.introspect reg s).1 = .ok c) {op : Operation}
    (hop : op ∈ c.operations) : (op.arguments.map (·.name)).Nodup := by
  obtain ⟨found, t, name, state, rfl, -, hi⟩ := exists_inspect_of_introspect h hop
  obtain ⟨object, state', -, rfl, -⟩ := Registry.ok_of_inspect hi
  rw [((s.arguments_arrangeOperation_perm _).map (·.name)).nodup_iff, Registry.described,
    List.map_map]
  exact nodup_keptParameters _

theorem category_ne_of_introspect (h : (w.introspect reg s).1 = .ok c) {op : Operation}
    (hop : op ∈ c.operations) : op.category ≠ "" := by
  obtain ⟨found, t, name, state, rfl, hne, hi⟩ := exists_inspect_of_introspect h hop
  obtain ⟨object, state', -, rfl, -⟩ := Registry.ok_of_inspect hi
  simp only [Settings.arrangeOperation, Registry.described]
  cases ho : s.overrides.lookup name with
  | none => exact reg.category_ne s.rootTypes t hne
  | some category => exact Settings.override_ne (ok_of_introspect h).1 ho

theorem sound_of_introspect (h : (w.introspect reg s).1 = .ok c) : c.Sound s.sentinel where
  nodup_names := nodup_of_introspect h
  category_ne := fun _ hop => category_ne_of_introspect h hop
  nodup_arguments := fun _ hop => nodup_arguments_of_introspect h hop
  bounds_zero := by
    intro op hop a ha hk
    obtain ⟨spec, -, rfl⟩ := exists_offers_of_introspect h hop ha
    exact reg.isZero_bounds_classify spec hk
  nick_ne := by
    intro e he m hm
    rw [(enums_of_introspect h).1] at he
    obtain ⟨name, -, rfl⟩ := List.mem_map.1 he
    exact nick_ne_of_mem_keptMembers hm

theorem namesValueTypes_iff (h : (w.introspect reg s).1 = .ok c) :
    reg.NamesValueTypes c ↔ ∀ op ∈ c.operations, ∀ a ∈ op.arguments, a.EnumAgrees := by
  refine forall₄_congr fun op hop a ha => ?_
  obtain ⟨spec, hoffers, rfl⟩ := exists_offers_of_introspect h hop ha
  rw [reg.enumAgrees_classify_iff]
  constructor
  · intro hnamed hk
    -- Of two parameters with one classification, both value types have names or neither has.
    obtain ⟨other, -, heq, hname⟩ := hnamed hk
    have hagrees := (reg.enumAgrees_classify_iff other).2 fun _ => hname
    rw [← heq] at hagrees
    exact (reg.enumAgrees_classify_iff spec).1 hagrees hk
  · intro hname hk
    exact ⟨spec, hoffers, rfl, hname hk⟩

end World

/-! ## Forests -/

namespace Forest

variable {f : Forest}

theorem exists_entry?_of_mem_lineageFrom {fuel : Nat} {next : Option TypeHandle} {e : TypeEntry}
    (h : e ∈ f.lineageFrom fuel next) : ∃ t, f.entry? t = some e := by
  induction fuel generalizing next with
  | zero => simp [lineageFrom] at h
  | succ fuel ih =>
    cases next with
    | none => simp [lineageFrom] at h
    | some t =>
      rw [lineageFrom] at h
      cases he : f.entry? t with
      | none => simp [he] at h
      | some own =>
        rw [he] at h
        rcases List.mem_cons.1 h with rfl | h
        · exact ⟨t, he⟩
        · exact ih h

/-- The value type of a parameter that some type has is registered. -/
theorem WellFormed.isSome_valueType (hf : f.WellFormed) {t : TypeHandle} {spec : ParamSpec}
    (h : spec ∈ f.parametersOf t) : (f.entry? spec.valueType).isSome := by
  obtain ⟨e, he, hspec⟩ := List.mem_flatMap.1 h
  obtain ⟨u, hu⟩ := exists_entry?_of_mem_lineageFrom (List.mem_reverse.1 he)
  exact (hf.valueType_lt hu hspec).1

theorem WellFormed.namesType (hf : f.WellFormed) {t : TypeHandle} {spec : ParamSpec}
    (h : spec ∈ f.parametersOf t) : f.registry.NamesType spec.valueType := by
  obtain ⟨own, hown⟩ := Option.isSome_iff_exists.1 (hf.isSome_valueType h)
  refine ⟨own.name, by simp [registry, hown], ?_⟩
  intro hempty
  exact hf.name_ne (hempty ▸ List.mem_map_of_mem (mem_entries_of_some hown))

/-- A new object has the parameters of the type that it is made of. -/
theorem parameters_of_instantiate {t : TypeHandle} {p p' : Process} {object : InstanceHandle}
    (h : f.registry.instantiate t p = (some object, p')) :
    f.isInstantiable t = true ∧ p'.typeOf? object = some t := by
  simp only [registry] at h
  split at h
  · next hi =>
    simp only [Prod.mk.injEq, Option.some.injEq] at h
    rw [← h.1, ← h.2]
    exact ⟨hi, Process.typeOf?_create t p⟩
  · simp at h

theorem WellFormed.namesType_of_offers (hf : f.WellFormed) {spec : ParamSpec}
    (h : f.registry.Offers spec) : f.registry.NamesType spec.valueType := by
  obtain ⟨t, p, object, p', hobject, hspec⟩ := h
  have htype := (parameters_of_instantiate hobject).2
  simp only [registry, htype] at hspec
  exact hf.namesType hspec

end Forest

/-- What is discovered passes the check, unless the registry leaves the value type of some
argument without the name that is asked for, which a forest never does. -/
theorem check_of_introspect :
    (∀ {σ : Type} (reg : Registry σ) (s : Settings) (w : World σ) (c : Catalog),
      (w.introspect reg s).1 = .ok c →
        (∀ op ∈ c.operations, ∀ a ∈ op.arguments, ∃ spec, reg.Offers spec ∧ a = reg.classify spec) ∧
        (reg.NamesValueTypes c → c.check s.sentinel = .ok ()) ∧
        (¬reg.NamesValueTypes c → ∃ op ∈ c.operations, ∃ a ∈ op.arguments,
          c.check s.sentinel = .error (.enumNameMismatch op.name a.name))) ∧
    ∀ h : Host, h.forest.Grown → ∀ (s : Settings) (c : Catalog),
      (h.world.introspect h.forest.registry s).1 = .ok c → c.check s.sentinel = .ok () := by
  constructor
  · intro σ reg s w c h
    refine ⟨fun op hop a ha => World.exists_offers_of_introspect h hop ha, ?_⟩
    rw [World.namesValueTypes_iff h]
    rcases (World.sound_of_introspect h).check_cases with ⟨hall, hok⟩ | ⟨op, hop, a, ha, hne, herr⟩
    · exact ⟨fun _ => hok, fun hnot => absurd hall hnot⟩
    · exact ⟨fun hall => absurd (hall op hop a ha) hne, fun _ => ⟨op, hop, a, ha, herr⟩⟩
  · intro host grown s c h
    rcases (World.sound_of_introspect h).check_cases with ⟨-, hok⟩ | ⟨op, hop, a, ha, hne, -⟩
    · exact hok
    · obtain ⟨spec, hoffers, rfl⟩ := World.exists_offers_of_introspect h hop ha
      have hname := grown.wellFormed.namesType_of_offers hoffers
      exact absurd ((Registry.enumAgrees_classify_iff _ spec).2 fun _ => hname) hne

/-- The one operation takes a value of an enumerated type that has no name. -/
def namelessTable : Table where
  types :=
    [{ handle := ⟨1⟩, nickname := some "flip", isInstantiable := true,
       parameters := [⟨"direction", ⟨2⟩, .ofNames [.construct, .input], 0, .enum 1⟩] },
      { handle := ⟨2⟩, traits := some { has := fun _ => false, fundamental := .enum } }]
  names := [("VipsOperation", ⟨1⟩)]
  subtypes := [⟨1⟩]

def namedTypes : List TypeDefinition :=
  [(TypeDefinition.enumeration "VipsDirection").addMember "VIPS_DIRECTION_LAST" "last" 2,
    ((TypeDefinition.named "VipsFlip").withParent "VipsOperation").withNickname "flip"
      |>.addArgument
        { name := "direction", typeName := "VipsDirection", flags := [.construct, .input] }]

/-- The one operation takes a value of an enumeration. -/
def namingHost : Host := (Host.standard.registerAll namedTypes).2

/-- Both outcomes occur: a name is missing in the table and none is in the forest. -/
theorem check_of_introspect_samples :
    (∃ c, (World.introspect namelessTable.registry {} ⟨{}, {}⟩).1 = .ok c ∧
      ∃ op ∈ c.operations, ∃ a ∈ op.arguments,
        c.check "last" = .error (.enumNameMismatch op.name a.name)) ∧
    ∃ c, (namingHost.world.introspect namingHost.forest.registry {}).1 = .ok c ∧
      c.operations.map (·.name) = ["flip"] ∧ c.check "last" = .ok () := by
  constructor
  · have hnone : ∀ t, namelessTable.registry.typeName? t = none := by
      intro t
      have hall : ∀ r ∈ namelessTable.types, r.name = none := by simp [namelessTable]
      cases hr : namelessTable.record? t with
      | none => simp only [Table.registry, hr, Option.bind_none]
      | some r =>
        simp only [Table.registry, hr, Option.bind_some, hall r (List.mem_of_find?_eq_some hr)]
    refine ⟨_, rfl, (check_of_introspect.1 namelessTable.registry {} ⟨{}, {}⟩ _ rfl).2.2 ?_⟩
    intro hnames
    obtain ⟨spec, -, -, name, hname, -⟩ :=
      hnames _ List.mem_cons_self _ List.mem_cons_self rfl
    rw [hnone] at hname
    cases hname
  · have grown : namingHost.forest.Grown := Forest.Grown.standard.registerAll namedTypes
    exact ⟨_, rfl, rfl, check_of_introspect.2 namingHost grown {} _ rfl⟩

end OpCatalog
