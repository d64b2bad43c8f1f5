import OpCatalog.Proofs.Extension
import OpCatalog.Proofs.History
import OpCatalog.Proofs.InTurn
import OpCatalog.Proofs.RegistrationOrder

/-!
# Admission

A definition fits if its name is new and everything that it refers to by name is there already.
Registration looks at one definition after another, each time at the types that it has made of the
definitions before. `registerAll_admission` says that it accepts exactly the lists whose
definitions fit in turn, what it adds for them, and that the first one that does not fit leaves
nothing behind.
-/
namespace OpCatalog

namespace TypeDefinition

/-- The definition fits among types with these names. -/
structure Admissible (known : List String) (d : TypeDefinition) : Prop where
  name_ne : d.name ≠ ""
  name_fresh : d.name ∉ known
  parent_known : ∀ parent, d.parent = some parent → parent ∈ known
  types_known : ∀ a ∈ d.arguments, a.typeName ∈ known

/-- Each definition fits among the types with these names and those defined before it. -/
def AdmissibleInTurn (known : List String) (ds : List TypeDefinition) : Prop :=
  InTurn (fun before d => d.Admissible (known ++ before.map (·.name))) ds

/-- The parent, unless it is known. -/
def parentRefusals (known : List String) (d : TypeDefinition) : List Refusal :=
  d.parent.toList.flatMap fun parent =>
    if parent ∉ known then [.unknownParent d.name parent] else []

/-- The arguments whose types are not known, in order. -/
def argumentRefusals (known : List String) (owner : String) (as : List ArgumentDefinition) :
    List Refusal :=
  as.flatMap fun a =>
    if a.typeName ∉ known then [.unknownArgumentType a.name owner a.typeName] else []

/-- All that keeps the definition from fitting: the name first, and the arguments last. -/
def refusals (known : List String) (d : TypeDefinition) : List Refusal :=
  (if d.name = "" then [.emptyName] else []) ++
    ((if d.name ∈ known then [.duplicateName d.name] else []) ++
      (d.parentRefusals known ++ argumentRefusals known d.name d.arguments))

theorem refusals_eq_nil_iff {known : List String} {d : TypeDefinition} :
    d.refusals known = [] ↔ d.Admissible known := by
  simp only [refusals, parentRefusals, argumentRefusals, List.append_eq_nil_iff,
    List.flatMap_eq_nil_iff, ite_singleton_eq_nil_iff, Option.mem_toList, not_not]
  constructor
  · rintro ⟨hne, hfresh, hparent, htypes⟩
    exact ⟨hne, hfresh, hparent, htypes⟩
  · intro h
    exact ⟨h.name_ne, h.name_fresh, h.parent_known, h.types_known⟩

end TypeDefinition

open TypeDefinition (AdmissibleInTurn argumentRefusals)

namespace Forest

variable {f g : Forest} {d : TypeDefinition} {ds before : List TypeDefinition}
  {known : List String} {n : String} {r : Refusal}

/-! ## One definition -/

theorem WellFormed.mem_names_of_lookup? (hf : f.WellFormed) {t : TypeHandle}
    (h : f.lookup? n = some t) : n ∈ f.names := by
  by_contra hn
  rw [hf.lookup?_eq_none_iff.2 hn] at h
  cases h

theorem WellFormed.verdict_parentOf (hf : f.WellFormed) :
    verdict (f.parentOf d) = firstOf (d.parentRefusals f.names) := by
  rw [parentOf, TypeDefinition.parentRefusals]
  cases d.parent with
  | none => rfl
  | some n =>
    cases hl : f.lookup? n with
    | none => simp [hl, hf.lookup?_eq_none_iff.1 hl, firstOf]
    | some t => simp [hl, hf.mem_names_of_lookup? hl, firstOf]

theorem WellFormed.verdict_parameter (hf : f.WellFormed) {owner : String}
    {a : ArgumentDefinition} :
    verdict (f.parameter owner a) = firstOf (argumentRefusals f.names owner [a]) := by
  rw [parameter, argumentRefusals]
  cases hl : f.lookup? a.typeName with
  | none => simp [hf.lookup?_eq_none_iff.1 hl, firstOf]
  | some t => simp [hf.mem_names_of_lookup? hl, firstOf]

theorem WellFormed.verdict_parameters (hf : f.WellFormed) {owner : String}
    {as : List ArgumentDefinition} :
    verdict (f.parameters owner as) = firstOf (argumentRefusals f.names owner as) := by
  induction as with
  | nil => rfl
  | cons a as ih =>
    have hbind : f.parameters owner (a :: as) =
        f.parameter owner a >>= fun p => (f.parameters owner as).map (p :: ·) := by
      rw [parameters]
      cases f.parameter owner a <;> rfl
    have hsplit : argumentRefusals f.names owner (a :: as) =
        argumentRefusals f.names owner [a] ++ argumentRefusals f.names owner as := by
      simp only [argumentRefusals, List.flatMap_cons, List.flatMap_nil, List.append_nil]
    rw [hbind, hsplit]
    exact verdict_bind hf.verdict_parameter fun p => (verdict_map _ _).trans ih

/-- A definition is refused for the first of all that keeps it from fitting. -/
theorem WellFormed.verdict_register (hf : f.WellFormed) :
    verdict (f.register d) = firstOf (d.refusals f.names) := by
  rw [Forest.register, verdict_map, entryOf, TypeDefinition.refusals, firstOf_ite_append,
    firstOf_ite_append, apply_ite verdict, apply_ite verdict]
  refine if_congr String.isEmpty_iff rfl (if_congr ?_ rfl ?_)
  · constructor
    · intro h
      obtain ⟨t, ht⟩ := Option.isSome_iff_exists.1 h
      exact hf.mem_names_of_lookup? ht
    · intro h
      exact Option.isSome_iff_ne_none.2 fun hnone => hf.lookup?_eq_none_iff.1 hnone h
  · refine verdict_bind hf.verdict_parentOf fun parent => ?_
    rw [← List.append_nil (argumentRefusals f.names d.name d.arguments)]
    exact verdict_bind hf.verdict_parameters fun specs => rfl

theorem WellFormed.exists_register_iff (hf : f.WellFormed) :
    (∃ r, f.register d = .ok r) ↔ d.Admissible f.names := by
  rw [← TypeDefinition.refusals_eq_nil_iff, ← firstOf_eq_ok_iff, ← hf.verdict_register]
  cases f.register d <;> simp

theorem names_register {r : TypeHandle × Forest} (h : f.register d = .ok r) :
    r.2.names = f.names ++ [d.name] := by
  obtain ⟨e, -, -, hreal, -, rfl⟩ := ok_of_register h
  rw [names_insert, hreal.name]

/-! ## A list of definitions -/

theorem WellFormed.registerAll_eq_firstOf_of_names (hf : f.WellFormed)
    (hnames : f.names = known ++ before.map (·.name)) :
    (f.registerAll ds).1 =
      firstOf (reports (fun before d => d.refusals (known ++ before.map (·.name))) before ds) := by
  induction ds generalizing f before with
  | nil => rfl
  | cons d ds ih =>
    have hd := hf.verdict_register (d := d)
    rw [registerAll, reports, firstOf_append, ← hnames, ← hd]
    cases hr : f.register d with
    | error r => rfl
    | ok r =>
      have hnext : r.2.names = known ++ (before ++ [d]).map (·.name) := by
        rw [names_register hr, hnames, List.map_append, List.append_assoc]
        rfl
      exact ih (hf.register hr) hnext

theorem WellFormed.registerAll_eq_firstOf (hf : f.WellFormed) (ds : List TypeDefinition) :
    (f.registerAll ds).1 = firstOf
      (reports (fun before d => d.refusals (f.names ++ before.map (·.name))) [] ds) :=
  hf.registerAll_eq_firstOf_of_names (List.append_nil _).symm

theorem WellFormed.registerAll_eq_ok_iff (hf : f.WellFormed) :
    (f.registerAll ds).1 = .ok () ↔ AdmissibleInTurn f.names ds := by
  rw [hf.registerAll_eq_firstOf, firstOf_eq_ok_iff, reports_eq_nil_iff]
  simp only [TypeDefinition.refusals_eq_nil_iff, List.nil_append]
  rfl

theorem registerAll_append (f : Forest) (ds ds' : List TypeDefinition) :
    f.registerAll (ds ++ ds') =
      match f.registerAll ds with
      | (.ok (), g) => g.registerAll ds'
      | (.error r, g) => (.error r, g) := by
  induction ds generalizing f with
  | nil => rfl
  | cons d ds ih =>
    rw [List.cons_append, registerAll, registerAll]
    cases f.register d with
    | error r => rfl
    | ok r => exact ih r.2

theorem names_registerAll (hr : f.registerAll ds = (.ok (), g)) :
    g.names = f.names ++ ds.map (·.name) := by
  have hstart : f.names = f.names ++ ([] : List TypeDefinition).map (·.name) :=
    (List.append_nil _).symm
  exact registerAll_accepted (P := fun ds g => g.names = f.names ++ ds.map (·.name))
    (fun hnames hd => by simp [names_register hd, hnames]) hstart hr

theorem size_eq_length_names (f : Forest) : f.size = f.names.length := by
  rw [names, List.length_map, size]

/-! ## What is added -/

/-- The handles of the next types. -/
def upcoming (f : Forest) (count : Nat) : List TypeHandle :=
  (List.range count).map fun i => ⟨f.size + i + 1⟩

/-- The second forest has the types of the first and after them one for each definition. -/
structure Appends (f : Forest) (ds : List TypeDefinition) (g : Forest) : Prop where
  wellFormed : g.WellFormed
  names_eq : g.names = f.names ++ ds.map (·.name)
  handles_eq : g.handles = f.handles ++ f.upcoming ds.length
  /-- An earlier type has its new children after the others and is as it was otherwise. -/
  entry_eq : ∀ {t e}, f.entry? t = some e → g.entry? t = some
    { e with children := e.children ++ (f.upcoming ds.length).filter fun c => g.parent? c = some t }
  realizes : ∀ {i d}, ds[i]? = some d → ∃ e, g.entry? ⟨f.size + i + 1⟩ = some e ∧ g.Realizes d e

theorem Grown.exists_records (hf : f.Grown) : ∃ ds, f.Records ds := by
  induction hf with
  | empty => exact ⟨[], records_empty⟩
  | standard => exact ⟨standardDefinitions, records_standard⟩
  | @register f d t f' _ hd ih =>
    obtain ⟨ds, hrec⟩ := ih
    exact ⟨ds ++ [d], hrec.register hd⟩

theorem Extends.children_eq (h : f.Extends g) {added : List TypeHandle}
    (hadded : g.handles = f.handles ++ added) {t : TypeHandle} {e : TypeEntry}
    (he : f.entry? t = some e) : g.entry? t = some
      { e with children := e.children ++ added.filter fun c => g.parent? c = some t } := by
  obtain ⟨children, he'⟩ := h.entry he
  have hall := h.extended.children_eq he'
  have hold : (f.handles.filter fun c => g.parent? c = some t) = e.children := by
    rw [h.old.children_eq he]
    refine List.filter_congr fun c hc => ?_
    rw [h.parent? (mem_handles_iff.1 hc)]
  rw [hadded, List.filter_append, hold] at hall
  rw [he', ← hall]

theorem Grown.appends (hf : f.Grown) (hr : f.registerAll ds = (.ok (), g)) : f.Appends ds g := by
  have hnames := names_registerAll hr
  have hext : f.Extends (f.registerAll ds).2 :=
    registerAll_induction (P := f.Extends) (fun h hd => h.trans (h.extended.extends_register hd))
      (.refl hf.wellFormed) ds
  rw [hr] at hext
  have hhandles : g.handles = f.handles ++ f.upcoming ds.length := by
    have hsize : g.size = f.size + ds.length := by
      rw [size_eq_length_names, size_eq_length_names, hnames, List.length_append, List.length_map]
    rw [handles, handles, upcoming, hsize, List.range_add, List.map_append, List.map_map]
    rfl
  refine ⟨hext.extended, hnames, hhandles, hext.children_eq hhandles, ?_⟩
  intro i d hd
  obtain ⟨earlier, hrec⟩ := hf.exists_records
  rw [hrec.size_eq]
  refine (hrec.registerAll hr).realizes ?_
  rw [List.getElem?_append_right (Nat.le_add_right _ _), Nat.add_sub_cancel_left]
  exact hd

/-! ## What is refused -/

/-- The definitions before the first that does not fit are registered, and nothing else is. -/
theorem WellFormed.registerAll_refused (hf : f.WellFormed) (after : List TypeDefinition)
    (hbefore : AdmissibleInTurn f.names before)
    (hd : ¬d.Admissible (f.names ++ before.map (·.name))) :
    (f.registerAll before).1 = .ok () ∧
      (f.registerAll (before ++ d :: after)).2 = (f.registerAll before).2 := by
  have hok := hf.registerAll_eq_ok_iff.2 hbefore
  refine ⟨hok, ?_⟩
  have hg : (f.registerAll before).2.WellFormed :=
    registerAll_induction (P := WellFormed) (fun hf hr => hf.register hr) hf before
  rcases hr : f.registerAll before with ⟨result, g⟩
  rw [hr] at hok hg
  cases hok
  rw [← names_registerAll hr, ← hg.exists_register_iff] at hd
  rw [registerAll_append, hr]
  simp only [registerAll]
  cases hlast : g.register d with
  | error r => rfl
  | ok r => exact absurd ⟨r, hlast⟩ hd

end Forest

namespace Host

variable {h : Host} {d : TypeDefinition}

theorem admissible_of_register (hf : h.forest.WellFormed) {t : TypeHandle}
    (hr : (h.register d).1 = .ok t) :
    d.Admissible h.forest.names ∧ t = ⟨h.forest.size + 1⟩ := by
  obtain ⟨f, hd, -⟩ := ok_of_register (Prod.ext hr rfl)
  obtain ⟨e, -, -, -, -, hinsert⟩ := Forest.ok_of_register hd
  exact ⟨hf.exists_register_iff.1 ⟨_, hd⟩, congrArg Prod.fst hinsert⟩

theorem unchanged_of_register (hf : h.forest.WellFormed) {r : Refusal}
    (hr : (h.register d).1 = .error r) :
    (d.refusals h.forest.names).head? = some r ∧ (h.register d).2 = h := by
  obtain ⟨hd, hsame⟩ := error_of_register (Prod.ext hr rfl)
  refine ⟨?_, hsame⟩
  rw [← firstOf_eq_error_iff, ← hf.verdict_register, verdict_eq_error_iff]
  exact hd

/-- A list of definitions is accepted exactly if each fits in turn. Then there is one more type for
each, in order, and nothing else has changed. Otherwise the refusal is the first of the first
definition that does not fit, and the host is the one to which only those before it were given. -/
theorem registerAll_admission (reachable : h.Reachable) (ds : List TypeDefinition) :
    ((h.registerAll ds).1 = .ok () ↔ AdmissibleInTurn h.forest.names ds) ∧
    ((h.registerAll ds).1 = .ok () →
      h.forest.Appends ds (h.registerAll ds).2.forest ∧ (h.registerAll ds).2.world = h.world) ∧
    (∀ r, (h.registerAll ds).1 = .error r →
      ∃ before d after, ds = before ++ d :: after ∧
        AdmissibleInTurn h.forest.names before ∧
        (d.refusals (h.forest.names ++ before.map (·.name))).head? = some r ∧
        (h.registerAll before).1 = .ok () ∧ (h.registerAll ds).2 = (h.registerAll before).2) ∧
    (∀ d t, (h.register d).1 = .ok t →
      d.Admissible h.forest.names ∧ t = ⟨h.forest.size + 1⟩) ∧
    (∀ d r, (h.register d).1 = .error r →
      (d.refusals h.forest.names).head? = some r ∧ (h.register d).2 = h) ∧
    ∀ s : Snapshot, (∃ loaded, s.load = .ok loaded) ↔
      AdmissibleInTurn Forest.standard.names s.types := by
  have hf := reachable.grown.wellFormed
  refine ⟨hf.registerAll_eq_ok_iff, ?_, ?_, fun _ _ => admissible_of_register hf,
    fun _ _ => unchanged_of_register hf, ?_⟩
  · intro hok
    exact ⟨reachable.grown.appends (Prod.ext hok rfl), rfl⟩
  · intro r hr
    have hfirst := (hf.registerAll_eq_firstOf ds).symm.trans hr
    obtain ⟨before, d, after, rfl, hbefore, hd⟩ :=
      exists_of_head?_reports (firstOf_eq_error_iff.1 hfirst)
    simp only [List.nil_append, TypeDefinition.refusals_eq_nil_iff] at hbefore hd
    have hinadmissible : ¬d.Admissible (h.forest.names ++ before.map (·.name)) := by
      intro hadmissible
      rw [TypeDefinition.refusals_eq_nil_iff.2 hadmissible] at hd
      cases hd
    obtain ⟨hok, hforest⟩ := hf.registerAll_refused after hbefore hinadmissible
    exact ⟨before, d, after, rfl, hbefore, hd, hok, congrArg (Host.mk · h.world) hforest⟩
  · intro s
    rw [← Forest.wellFormed_standard.registerAll_eq_ok_iff]
    constructor
    · rintro ⟨loaded, hloaded⟩
      rw [(Snapshot.ok_of_load hloaded).1]
    · intro hok
      have hall : standard.registerAll s.types = (.ok (), (standard.registerAll s.types).2) :=
        Prod.ext hok rfl
      exact ⟨_, by rw [Snapshot.load, hall]⟩

/-- An enumeration, an operation that takes it, an operation of which neither the parent nor what
it takes is there, and the enumeration that it takes. -/
def turnTypes : List TypeDefinition :=
  [TypeDefinition.enumeration "VipsDirection",
    ((TypeDefinition.named "VipsFlip").withParent "VipsOperation").addArgument
      { name := "direction", typeName := "VipsDirection" },
    ((TypeDefinition.named "VipsRot").withParent "VipsBinary").addArgument
      { name := "angle", typeName := "VipsAngle" },
    TypeDefinition.enumeration "VipsAngle"]

theorem registerAll_admission_turn :
    standard.forest.Appends (turnTypes.take 2) (standard.registerAll (turnTypes.take 2)).2.forest ∧
      ¬AdmissibleInTurn standard.forest.names turnTypes ∧
      ∃ before d after, turnTypes = before ++ d :: after ∧
        (d.refusals (standard.forest.names ++ before.map (·.name))).head? =
          some (.unknownParent "VipsRot" "VipsBinary") ∧
        (standard.registerAll turnTypes).2 = (standard.registerAll before).2 := by
  obtain ⟨-, happends, -⟩ := registerAll_admission .standard (turnTypes.take 2)
  obtain ⟨hadmissible, -, hrefused, -⟩ := registerAll_admission .standard turnTypes
  have herror : (standard.registerAll turnTypes).1 =
    .error (.unknownParent "VipsRot" "VipsBinary") := rfl
  obtain ⟨before, d, after, hsplit, -, hfirst, -, hhost⟩ := hrefused _ herror
  refine ⟨(happends rfl).1, ?_, before, d, after, hsplit, hfirst, hhost⟩
  rw [← hadmissible, herror]
  nofun

end Host

end OpCatalog
