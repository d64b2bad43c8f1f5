import OpCatalog.Proofs.Arrangement
import OpCatalog.Proofs.Enumeration
import OpCatalog.Proofs.Inspection
import OpCatalog.Proofs.Preorder

/-!
# Completeness of discovery

Without limits nothing that a forest offers is lost: a discovery is a function of the forest
alone, whatever its process has done before. `introspect_eq_discovered` gives the function;
`introspect_complete` says which operations it lists and in which order.
-/
namespace OpCatalog

namespace Forest

variable {f : Forest} {s : Settings} {t base : TypeHandle} {n : String} {order : List TypeHandle}

/-- An object type, neither abstract nor broken, with a nickname that is not empty. -/
def Carries (f : Forest) (t : TypeHandle) (n : String) : Prop :=
  ∃ e, f.entry? t = some e ∧ e.isAbstract = false ∧ e.isBroken = false ∧
    e.fundamental = .object ∧ e.nickname = some n ∧ n ≠ ""

/-- Of the types in the list, this is the first to carry the nickname. -/
def FirstToCarry (f : Forest) (order : List TypeHandle) (t : TypeHandle) (n : String) : Prop :=
  f.Carries t n ∧ ∃ before after, order = before ++ t :: after ∧ ∀ u ∈ before, ¬f.Carries u n

/-- A type as an operation of the given name. -/
def describe (f : Forest) (rootNames : List String) (t : TypeHandle) (n : String) : Operation where
  name := n
  description := ((f.entry? t).bind (·.description)).getD ""
  category := f.registry.category rootNames t n
  arguments := (keptParameters (f.parametersOf t)).map f.registry.classify

/-- The nickname that a type carries, if it carries one. -/
def carried? (f : Forest) (t : TypeHandle) : Option String :=
  if f.isInstantiable t then ((f.entry? t).bind (·.nickname)).filter (!·.isEmpty) else none

/-- The operation that a type is, if it carries a nickname. -/
def operation? (f : Forest) (rootNames : List String) (t : TypeHandle) : Option Operation :=
  (f.carried? t).map (f.describe rootNames t)

/-- The catalogue of a type and everything derived from it. -/
def discovered (f : Forest) (s : Settings) (base : TypeHandle) : Catalog :=
  let ops := s.arrange ((f.subtypes base).filterMap (f.operation? s.rootTypes))
  ⟨ops, (referencedEnums ops).map (f.registry.enumType s.sentinel)⟩

theorem carried?_eq_some_iff : f.carried? t = some n ↔ f.Carries t n := by
  cases he : f.entry? t with
  | none => simp [carried?, isInstantiable, Carries, he]
  | some e =>
    cases hn : e.nickname with
    | none => simp [carried?, Carries, he, hn]
    | some m =>
      simp only [carried?, isInstantiable, Carries, he, hn, Option.any_some, Option.bind_some,
        Option.some.injEq, exists_eq_left']
      constructor
      · intro h
        split at h
        · next hi =>
          simp only [Bool.and_eq_true, Bool.not_eq_true', beq_iff_eq] at hi
          obtain ⟨rfl, hne⟩ := Option.filter_eq_some_iff.1 h |>.imp_left Option.some.inj
          exact ⟨hi.1.1, hi.1.2, hi.2, rfl, by simpa using hne⟩
        · cases h
      · rintro ⟨ha, hb, ho, rfl, hne⟩
        simp [ha, hb, ho, hne]

/-- Only what is inspected and can be instantiated carries its nickname. -/
theorem carried?_eq (f : Forest) (t : TypeHandle) :
    f.carried? t = if f.isInstantiable t then f.registry.operationName? t else none := by
  rw [carried?]
  by_cases hi : f.isInstantiable t
  · rw [if_pos hi, if_pos hi, Registry.operationName?]
    cases he : f.entry? t with
    | none => simp [isInstantiable, he] at hi
    | some e =>
      have hconcrete : e.isAbstract = false := by
        simp only [isInstantiable, he, Option.any_some, Bool.and_eq_true, Bool.not_eq_true'] at hi
        exact hi.1.1
      simp [registry, he, hconcrete]
  · rw [if_neg hi, if_neg hi]

theorem operation?_eq_some_iff {rootNames : List String} {op : Operation} :
    f.operation? rootNames t = some op ↔ ∃ n, f.Carries t n ∧ op = f.describe rootNames t n := by
  rw [operation?, Option.map_eq_some_iff]
  exact exists_congr fun n => and_congr carried?_eq_some_iff eq_comm

theorem isSome_of_carries (h : f.Carries t n) : (f.entry? t).isSome := by
  obtain ⟨e, he, -⟩ := h
  exact Option.isSome_of_eq_some he

/-! ## One type -/

/-- What an inspection comes to does not depend on the state of the process. -/
theorem inspect_registry (f : Forest) (rootNames : List String) (limit : Option Nat)
    (t : TypeHandle) (n : String) (p : Process) :
    (f.registry.inspect rootNames limit t n p).1 =
      if f.isInstantiable t then
        if limit.all ((f.describe rootNames t n).arguments.length ≤ ·) then
          .ok (some (f.describe rootNames t n))
        else .error (.limitExceeded .arguments n (limit.getD 0))
      else .ok none := by
  rw [Registry.inspect]
  by_cases hi : f.isInstantiable t
  · have hobject : f.registry.instantiate t p = (some (p.create t).1, (p.create t).2) := by
      simp only [registry, hi, if_true]
    have htype := Process.typeOf?_create t p
    have hdescribed : f.registry.described rootNames t n (p.create t).1 (p.create t).2 =
        f.describe rootNames t n := by
      simp only [Registry.described, describe, registry, htype]
      rfl
    simp only [hobject, Registry.describeOperation_eq, hdescribed, if_pos hi]
    split <;> rfl
  · have hobject : f.registry.instantiate t p = (none, p) := by
      simp only [registry, hi, if_false, Bool.false_eq_true]
    simp only [hobject, if_neg hi]

theorem inspect_eq_ok {rootNames : List String} {limit : Option Nat} {p p' : Process}
    {found : Option Operation} (h : f.registry.inspect rootNames limit t n p = (.ok found, p')) :
    found = if f.isInstantiable t then some (f.describe rootNames t n) else none := by
  have hfst := f.inspect_registry rootNames limit t n p
  rw [h] at hfst
  split at hfst
  · next hi =>
    rw [if_pos hi]
    split at hfst
    · exact Except.ok.inj hfst
    · cases hfst
  · next hi =>
    rw [if_neg hi]
    exact Except.ok.inj hfst

theorem isSome_of_inspect {rootNames : List String} {limit : Option Nat} {p p' : Process}
    {found : Option Operation} (h : f.registry.inspect rootNames limit t n p = (.ok found, p')) :
    found.isSome = f.isInstantiable t := by
  rw [inspect_eq_ok h]
  by_cases hi : f.isInstantiable t
  · simp [hi]
  · simp [hi]

theorem operation?_of_unnamed {rootNames : List String} (h : f.registry.operationName? t = none) :
    f.operation? rootNames t = none := by
  rw [operation?, carried?_eq, h, ite_self]
  rfl

theorem operation?_of_named {rootNames : List String} (h : f.registry.operationName? t = some n) :
    f.operation? rootNames t =
      if f.isInstantiable t then some (f.describe rootNames t n) else none := by
  rw [operation?, carried?_eq, h]
  split <;> rfl

/-! ## All types -/

/-- Whatever the limits, what a collection finds are the operations of the types. -/
theorem operations_of_collects {found : Nat} {ts : List TypeHandle} {p after : Process}
    {ops : List Operation} (h : f.registry.Collects s found ts p ops after) :
    ops = ts.filterMap (f.operation? s.rootTypes) := by
  induction h with
  | nil => rfl
  | unnamed hname _ ih => rw [List.filterMap_cons, operation?_of_unnamed hname, ih]
  | refused hname _ hi _ ih =>
    rw [List.filterMap_cons, operation?_of_named hname, ← inspect_eq_ok hi, ih]
  | inspected hname _ hi _ ih =>
    rw [List.filterMap_cons, operation?_of_named hname, ← inspect_eq_ok hi, ← ih]

theorem exists_collects (f : Forest) (unlimited : s.limits = {}) (found : Nat)
    (ts : List TypeHandle) (p : Process) :
    ∃ ops after, f.registry.Collects s found ts p ops after := by
  have hroom : ∀ found, ¬s.limits.operations.any (· ≤ found) := by simp [unlimited]
  induction ts generalizing found p with
  | nil => exact ⟨_, _, Registry.Collects.nil⟩
  | cons t ts ih =>
    cases hname : f.registry.operationName? t with
    | none =>
      obtain ⟨ops, after, hrest⟩ := ih found p
      exact ⟨ops, after, Registry.Collects.unnamed hname hrest⟩
    | some n =>
      have hfst := f.inspect_registry s.rootTypes s.limits.arguments t n p
      rw [unlimited, Option.all_none, if_pos rfl] at hfst
      rcases hi : f.registry.inspect s.rootTypes s.limits.arguments t n p with ⟨e | _ | op, p'⟩
      · rw [unlimited] at hi
        rw [hi] at hfst
        split at hfst <;> cases hfst
      · obtain ⟨ops, after, hrest⟩ := ih found p'
        exact ⟨ops, after, Registry.Collects.refused hname (hroom found) hi hrest⟩
      · obtain ⟨ops, after, hrest⟩ := ih (found + 1) p'
        exact ⟨op :: ops, after, Registry.Collects.inspected hname (hroom found) hi hrest⟩

theorem catalog_registry (f : Forest) (unlimited : s.limits = {}) (p : Process) :
    (f.registry.catalog s p).1 =
      match f.lookup? s.baseType with
      | none => .error (.unknownBaseType s.baseType)
      | some base => .ok (f.discovered s base) := by
  have hlookup : f.registry.lookup? s.baseType = f.lookup? s.baseType := rfl
  have hmembers : s.limits.enumMembers = none := by rw [unlimited]
  simp only [Registry.catalog, Registry.operations, hlookup, hmembers]
  cases f.lookup? s.baseType with
  | none => rfl
  | some base =>
    obtain ⟨ops, after, hsteps⟩ := f.exists_collects unlimited 0 (f.registry.subtypes base) p
    simp only [hsteps.collect_eq, operations_of_collects hsteps, Except.map,
      Registry.resolveEnums_none]
    rfl

/-- Without limits, a discovery that starts is a function of the forest and the settings. -/
theorem introspect_eq_discovered (f : Forest) (w : World Process) (valid : s.fault? = none)
    (unlimited : s.limits = {}) (started : (w.start f.registry).1 = .started) :
    (w.introspect f.registry s).1 =
      match f.lookup? s.baseType with
      | none => .error (.unknownBaseType s.baseType)
      | some base => .ok (f.discovered s base) := by
  rw [World.introspect_of_started valid started]
  exact f.catalog_registry unlimited _

/-- Limits or none, what is discovered is a function of the forest and the settings. -/
theorem ok_of_introspect {w : World Process} {c : Catalog}
    (h : (w.introspect f.registry s).1 = .ok c) :
    ∃ base, f.lookup? s.baseType = some base ∧ c = f.discovered s base := by
  obtain ⟨-, p, hc⟩ := World.ok_of_introspect h
  obtain ⟨hops, henums⟩ := Registry.ok_of_catalog hc
  obtain ⟨base, found, hbase, hcollect, ho⟩ := Registry.ok_of_operations hops
  rw [operations_of_collects (Registry.collects_of_collect hcollect)] at ho
  obtain ⟨he, -⟩ := Registry.resolveEnums_eq_ok_iff.1 henums
  refine ⟨base, hbase, ?_⟩
  cases c with
  | mk ops enums =>
    simp only at ho he
    rw [he, ho]
    rfl

/-! ## First carriers -/

/-- The types of a list that carry a nickname, each with its nickname. -/
def carriers (f : Forest) (order : List TypeHandle) : List (TypeHandle × String) :=
  order.filterMap fun t => (f.carried? t).map (t, ·)

/-- The first carrier of each nickname. -/
def firstCarriers (f : Forest) (order : List TypeHandle) : List (TypeHandle × String) :=
  firstOfEach Prod.snd [] (f.carriers order)

theorem filterMap_operation? (f : Forest) (rootNames : List String) (order : List TypeHandle) :
    order.filterMap (f.operation? rootNames) =
      (f.carriers order).map fun r => f.describe rootNames r.1 r.2 := by
  rw [carriers, List.map_filterMap]
  congr 1
  funext t
  rw [operation?, Option.map_map]
  rfl

theorem carriers_sublist (f : Forest) (order : List TypeHandle) :
    ((f.carriers order).map Prod.fst).Sublist order := by
  induction order with
  | nil => exact List.Sublist.refl []
  | cons t order ih =>
    rw [carriers, List.filterMap_cons]
    cases hc : f.carried? t with
    | none => exact ih.cons t
    | some n => exact ih.cons_cons t

theorem firstCarriers_sublist (f : Forest) (order : List TypeHandle) :
    ((f.firstCarriers order).map Prod.fst).Sublist order :=
  ((firstOfEach_sublist Prod.snd [] (f.carriers order)).map Prod.fst).trans
    (f.carriers_sublist order)

theorem find?_carriers (f : Forest) (order : List TypeHandle) (n : String) :
    (f.carriers order).find? (·.2 = n) =
      (order.find? fun t => f.carried? t = some n).map (·, n) := by
  induction order with
  | nil => rfl
  | cons t order ih =>
    rw [carriers, List.filterMap_cons]
    cases hc : f.carried? t with
    | none =>
      rw [List.find?_cons_of_neg (by simp [hc])]
      exact ih
    | some m =>
      by_cases hm : m = n
      · subst hm
        rw [List.find?_cons_of_pos (by simp [hc])]
        simp
      · rw [List.find?_cons_of_neg (by simp [hc, hm])]
        simp only [Option.map_some]
        rw [List.find?_cons_of_neg (by simpa using hm)]
        exact ih

theorem find?_carried_iff :
    (order.find? fun t => f.carried? t = some n) = some t ↔ f.FirstToCarry order t n := by
  rw [List.find?_eq_some_iff_append, FirstToCarry, ← carried?_eq_some_iff]
  simp only [decide_eq_true_eq, Bool.not_eq_true', decide_eq_false_iff_not, carried?_eq_some_iff]

theorem mem_firstCarriers_iff : (t, n) ∈ f.firstCarriers order ↔ f.FirstToCarry order t n := by
  rw [firstCarriers, mem_firstOfEach_iff, find?_carriers, ← find?_carried_iff]
  simp

/-- Every nickname that is carried is carried by a first one. -/
theorem exists_firstToCarry (ht : t ∈ order) (h : f.Carries t n) :
    ∃ u, f.FirstToCarry order u n := by
  cases hf : order.find? fun u => f.carried? u = some n with
  | none =>
    have hnot := List.find?_eq_none.1 hf t ht
    exact absurd (carried?_eq_some_iff.2 h) (by simpa using hnot)
  | some u => exact ⟨u, find?_carried_iff.1 hf⟩

theorem FirstToCarry.mem (h : f.FirstToCarry order t n) : t ∈ order := by
  obtain ⟨-, before, after, rfl, -⟩ := h
  simp

theorem exists_mem_firstCarriers_iff :
    (∃ t, (t, n) ∈ f.firstCarriers order) ↔ ∃ t ∈ order, f.Carries t n := by
  constructor
  · rintro ⟨t, ht⟩
    have hfirst := mem_firstCarriers_iff.1 ht
    exact ⟨t, hfirst.mem, hfirst.1⟩
  · rintro ⟨t, ht, hcarries⟩
    obtain ⟨u, hu⟩ := exists_firstToCarry ht hcarries
    exact ⟨u, mem_firstCarriers_iff.2 hu⟩

/-- Without orders and overrides the operations are the first carriers, described. -/
theorem operations_discovered (f : Forest) (base : TypeHandle) (plain : s.plain = s) :
    (f.discovered s base).operations =
      (f.firstCarriers (f.subtypes base)).map fun r => f.describe s.rootTypes r.1 r.2 := by
  have harrange := s.arrange_plain ((f.subtypes base).filterMap (f.operation? s.rootTypes))
  rw [plain] at harrange
  simp only [discovered]
  rw [harrange, filterMap_operation?]
  exact firstOfEach_map fun r => rfl

end Forest

/-- Without limits, orders and overrides a discovery finds one operation for each nickname that
is carried at or below the base type. It is the operation of the first type to carry it in the
depth-first preorder, and operations come in the order of these types. -/
theorem Host.introspect_complete {h : Host} {s : Settings} {base : TypeHandle}
    (grown : h.forest.Grown) (started : (h.world.start h.forest.registry).1 = .started)
    (valid : s.fault? = none) (unlimited : s.limits = {})
    (asRegistered : s.operationOrder = .registration) (asDiscovered : s.argumentOrder = .discovery)
    (unchanged : s.overrides = []) (registered : h.forest.lookup? s.baseType = some base) :
    ∃ (order : List TypeHandle) (firsts : List (TypeHandle × String)) (c : Catalog),
      h.forest.Preorder [base] order ∧ order.Nodup ∧ (∀ t, t ∈ order ↔ h.forest.Descends t base) ∧
      (firsts.map Prod.fst).Sublist order ∧
      (∀ t n, (t, n) ∈ firsts ↔ h.forest.FirstToCarry order t n) ∧
      (h.world.introspect h.forest.registry s).1 = .ok c ∧
      c.operations = firsts.map (fun r => h.forest.describe s.rootTypes r.1 r.2) ∧
      (c.operations.map (·.name)).Nodup ∧
      ∀ n, n ∈ c.operations.map (·.name) ↔
        ∃ t, h.forest.Descends t base ∧ h.forest.Carries t n := by
  have hf := grown.wellFormed
  obtain ⟨e, he, -⟩ := hf.entry?_of_lookup? registered
  have hbase := Option.isSome_of_eq_some he
  have hplain : s.plain = s := by
    rw [Settings.plain, ← asRegistered, ← asDiscovered, ← unchanged]
  have hok : (h.world.introspect h.forest.registry s).1 = .ok (h.forest.discovered s base) := by
    rw [h.forest.introspect_eq_discovered h.world valid unlimited started, registered]
  have hops := h.forest.operations_discovered base hplain
  refine ⟨h.forest.subtypes base, h.forest.firstCarriers (h.forest.subtypes base), _,
    hf.preorder_subtypes hbase, hf.nodup_subtypes base, fun t => hf.mem_subtypes_iff hbase,
    h.forest.firstCarriers_sublist _, fun t n => Forest.mem_firstCarriers_iff, hok, hops,
    World.nodup_of_introspect hok, ?_⟩
  intro n
  have hnames : n ∈ (h.forest.discovered s base).operations.map (·.name) ↔
      ∃ t, (t, n) ∈ h.forest.firstCarriers (h.forest.subtypes base) := by
    rw [hops, List.map_map]
    simp [Forest.describe]
  rw [hnames, Forest.exists_mem_firstCarriers_iff]
  simp only [hf.mem_subtypes_iff hbase]

/-- An abstract type, two types below it that share a nickname, and another type between them. -/
def sharingTypes : List TypeDefinition :=
  [((TypeDefinition.named "VipsBinary").withParent "VipsOperation").asAbstract,
    ((TypeDefinition.named "VipsAdd").withParent "VipsBinary").withNickname "add",
    ((TypeDefinition.named "VipsInvert").withParent "VipsOperation").withNickname "invert",
    ((TypeDefinition.named "VipsSum").withParent "VipsBinary").withNickname "add"]

def Host.sharing : Host := (Host.standard.registerAll sharingTypes).2

theorem Host.introspect_complete_sharing :
    ∃ c, (sharing.world.introspect sharing.forest.registry {}).1 = .ok c ∧
      c.operations.map (·.name) = ["add", "invert"] ∧ (c.operations.map (·.name)).Nodup ∧
      ∀ n, n ∈ c.operations.map (·.name) ↔
        ∃ t, sharing.forest.Descends t ⟨3⟩ ∧ sharing.forest.Carries t n := by
  have grown : sharing.forest.Grown := Forest.Grown.standard.registerAll sharingTypes
  have registered : sharing.forest.lookup? "VipsOperation" = some ⟨3⟩ := by rfl
  obtain ⟨order, firsts, c, -, -, -, -, -, hok, -, hnodup, hnames⟩ :=
    introspect_complete (s := {}) grown rfl rfl rfl rfl rfl rfl registered
  refine ⟨c, hok, ?_, hnodup, hnames⟩
  have hrun : (sharing.world.introspect sharing.forest.registry {}).1.map
      (·.operations.map (·.name)) = .ok ["add", "invert"] := by rfl
  rw [hok] at hrun
  exact Except.ok.inj hrun

end OpCatalog
