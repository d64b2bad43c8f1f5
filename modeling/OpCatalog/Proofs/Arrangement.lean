import OpCatalog.Proofs.Run
import OpCatalog.Registry.Tabulated
import Mathlib.Data.List.Forall2
import Mathlib.Data.List.Perm.Basic

/-!
# Orders and overrides as a view

Orders and overrides are applied to what has been found, before operations of one name are
reduced to the first. Nothing is lost by that: the catalogue is the one without orders
and overrides, looked at through them. `introspect_shows` is the statement for whole runs
of arbitrary registries; `arrange_eq_view` is the reason for it.
-/
namespace OpCatalog

/-- The entries of a list in ascending order of their keys, and where keys are equal in the
order that they had. -/
structure SortedStably {α κ : Type} [LE κ] [DecidableEq κ] (key : α → κ) (before after : List α) :
    Prop where
  perm : after.Perm before
  ascending : after.Pairwise fun a b => key a ≤ key b
  stable : ∀ k, after.filter (key · = k) = before.filter (key · = k)

namespace Settings

/-- The settings without orders and overrides. -/
def plain (s : Settings) : Settings :=
  { s with operationOrder := .registration, argumentOrder := .discovery, overrides := [] }

/-- What an operation becomes under the settings. -/
structure ShowsOperation (s : Settings) (found shown : Operation) : Prop where
  name : shown.name = found.name
  description : shown.description = found.description
  category : shown.category = (s.overrides.lookup found.name).getD found.category
  arguments :
    match s.argumentOrder with
    | .discovery => shown.arguments = found.arguments
    | .priority => SortedStably (·.priority.toInt) found.arguments shown.arguments

/-- What a list of operations becomes under the settings: one operation for each, in the
same order or in that of the names. -/
def Shows (s : Settings) (found shown : List Operation) : Prop :=
  match s.operationOrder with
  | .registration => List.Forall₂ s.ShowsOperation found shown
  | .name =>
    (∃ changed, List.Forall₂ s.ShowsOperation found changed ∧ shown.Perm changed) ∧
      shown.Pairwise (·.name < ·.name)

/-- Operations with names of their own as the settings show them. -/
def view (s : Settings) (ops : List Operation) : List Operation :=
  match s.operationOrder with
  | .registration => ops.map s.arrangeOperation
  | .name => sortOperations (ops.map s.arrangeOperation)

/-! ## Sorting -/

theorem priority_trans (a b c : Argument) :
    decide (a.priority.toInt ≤ b.priority.toInt) → decide (b.priority.toInt ≤ c.priority.toInt) →
      decide (a.priority.toInt ≤ c.priority.toInt) := by
  simp only [decide_eq_true_eq]
  omega

theorem priority_total (a b : Argument) :
    decide (a.priority.toInt ≤ b.priority.toInt) ||
      decide (b.priority.toInt ≤ a.priority.toInt) := by
  simp only [Bool.or_eq_true, decide_eq_true_eq]
  omega

theorem sortedStably_sortArguments (args : List Argument) :
    SortedStably (·.priority.toInt) args (sortArguments args) where
  perm := List.mergeSort_perm args _
  ascending :=
    (List.pairwise_mergeSort priority_trans priority_total args).imp fun h => of_decide_eq_true h
  stable := by
    intro k
    apply filter_mergeSort priority_trans priority_total
    intro a b ha hb
    have ha := of_decide_eq_true ha
    have hb := of_decide_eq_true hb
    exact decide_eq_true (by omega)

theorem name_trans (a b c : Operation) :
    decide (a.name ≤ b.name) → decide (b.name ≤ c.name) → decide (a.name ≤ c.name) := by
  simp only [decide_eq_true_eq]
  exact String.le_trans

theorem name_total (a b : Operation) :
    decide (a.name ≤ b.name) || decide (b.name ≤ a.name) := by
  simp only [Bool.or_eq_true, decide_eq_true_eq]
  exact String.le_total a.name b.name

theorem firstOfEach_sortOperations (ops : List Operation) :
    firstOfEach Operation.name [] (sortOperations ops) =
      sortOperations (firstOfEach Operation.name [] ops) := by
  apply firstOfEach_mergeSort name_trans name_total
  · intro a b he
    exact decide_eq_true (he ▸ String.le_refl a.name)
  · intro a b hab hba
    exact String.le_antisymm (of_decide_eq_true hab) (of_decide_eq_true hba)

/-- Where names differ, operations sorted by name have strictly ascending names. -/
theorem pairwise_sortOperations {ops : List Operation} (h : (ops.map (·.name)).Nodup) :
    (sortOperations ops).Pairwise (·.name < ·.name) := by
  have hsorted := List.pairwise_mergeSort name_trans name_total ops
  have hperm := (List.mergeSort_perm ops fun a b => decide (a.name ≤ b.name)).map (·.name)
  have hne := List.pairwise_map.1 (hperm.nodup_iff.2 h)
  refine hsorted.imp₂ ?_ hne
  intro a b hle hne
  exact Std.lt_of_le_of_ne (of_decide_eq_true hle) hne

theorem sortOperations_congr {ops ops' : List Operation} (h : (ops.map (·.name)).Nodup)
    (hperm : ops.Perm ops') : sortOperations ops = sortOperations ops' := by
  have hsorted : (sortOperations ops).Perm (sortOperations ops') :=
    (List.mergeSort_perm ops _).trans (hperm.trans (List.mergeSort_perm ops' _).symm)
  have h' := (hperm.map (·.name)).nodup_iff.1 h
  refine hsorted.eq_of_pairwise ?_ (pairwise_sortOperations h) (pairwise_sortOperations h')
  intro a b _ _ hab hba
  exact absurd (String.lt_trans hab hba) (String.lt_irrefl a.name)

/-! ## One operation -/

@[simp] theorem arrangeOperation_name (s : Settings) (op : Operation) :
    (s.arrangeOperation op).name = op.name := rfl

theorem arrangeOperation_plain (s : Settings) (op : Operation) :
    s.plain.arrangeOperation op = op := by
  simp [arrangeOperation, plain]

theorem showsOperation_arrangeOperation (s : Settings) (op : Operation) :
    s.ShowsOperation op (s.arrangeOperation op) where
  name := rfl
  description := rfl
  category := rfl
  arguments := by
    cases h : s.argumentOrder with
    | discovery => simp [arrangeOperation, h]
    | priority =>
      simp only [arrangeOperation, h]
      exact sortedStably_sortArguments op.arguments

/-- The arguments are the same ones, in whatever order. -/
theorem arguments_arrangeOperation_perm (s : Settings) (op : Operation) :
    (s.arrangeOperation op).arguments.Perm op.arguments := by
  simp only [arrangeOperation]
  cases s.argumentOrder with
  | discovery => exact List.Perm.refl _
  | priority => exact List.mergeSort_perm op.arguments _

/-! ## Lists of operations -/

theorem arrange_plain (s : Settings) (ops : List Operation) :
    s.plain.arrange ops = firstOfEach Operation.name [] ops := by
  have hid : ops.map s.plain.arrangeOperation = ops :=
    List.map_id'' (arrangeOperation_plain s) ops
  simp only [arrange, hid]
  rfl

/-- Orders and overrides can wait until only the first operation of each name is left. -/
theorem arrange_eq_view (s : Settings) (ops : List Operation) :
    s.arrange ops = s.view (s.plain.arrange ops) := by
  have hmap : firstOfEach Operation.name [] (ops.map s.arrangeOperation) =
      (firstOfEach Operation.name [] ops).map s.arrangeOperation :=
    firstOfEach_map s.arrangeOperation_name
  rw [arrange_plain]
  cases h : s.operationOrder with
  | registration => simp only [arrange, view, h, hmap]
  | name => simp only [arrange, view, h, firstOfEach_sortOperations, hmap]

theorem nodup_arrange (s : Settings) (ops : List Operation) :
    ((s.arrange ops).map (·.name)).Nodup := nodup_firstOfEach Operation.name [] _

theorem exists_of_mem_arrange {s : Settings} {ops : List Operation} {op : Operation}
    (h : op ∈ s.arrange ops) : ∃ found ∈ ops, op = s.arrangeOperation found := by
  have hmem : op ∈ ops.map s.arrangeOperation := by
    have hsub := (firstOfEach_sublist _ _ _).subset h
    cases ho : s.operationOrder with
    | registration => simpa only [ho] using hsub
    | name => simpa only [ho, sortOperations, List.mem_mergeSort] using hsub
  obtain ⟨found, hfound, rfl⟩ := List.mem_map.1 hmem
  exact ⟨found, hfound, rfl⟩

theorem view_perm (s : Settings) (ops : List Operation) :
    (s.view ops).Perm (ops.map s.arrangeOperation) := by
  cases h : s.operationOrder with
  | registration => simp only [view, h]; exact List.Perm.refl _
  | name => simp only [view, h]; exact List.mergeSort_perm _ _

theorem length_arrange (s : Settings) (ops : List Operation) :
    (s.arrange ops).length = (firstOfEach Operation.name [] ops).length := by
  rw [arrange_eq_view, arrange_plain, (s.view_perm _).length_eq, List.length_map]

theorem shows_view (s : Settings) {ops : List Operation} (h : (ops.map (·.name)).Nodup) :
    s.Shows ops (s.view ops) := by
  have hall : List.Forall₂ s.ShowsOperation ops (ops.map s.arrangeOperation) := by
    rw [List.forall₂_map_right_iff, List.forall₂_same]
    exact fun op _ => s.showsOperation_arrangeOperation op
  have hnames : ((ops.map s.arrangeOperation).map (·.name)).Nodup := by
    rw [List.map_map]
    exact h
  cases ho : s.operationOrder with
  | registration => simpa only [Shows, view, ho] using hall
  | name =>
    simp only [Shows, view, ho]
    exact ⟨⟨_, hall, List.mergeSort_perm _ _⟩, pairwise_sortOperations hnames⟩

/-- In the order of the names it does not matter in which order operations were found. -/
theorem arrange_congr {s : Settings} (byName : s.operationOrder = .name) {ops ops' : List Operation}
    (h : (ops.map (·.name)).Nodup) (hperm : ops.Perm ops') : s.arrange ops = s.arrange ops' := by
  have hsorted : ∀ {ops : List Operation}, (ops.map (·.name)).Nodup →
      s.arrange ops = sortOperations (ops.map s.arrangeOperation) := by
    intro ops h
    rw [arrange_eq_view, arrange_plain, firstOfEach_of_nodup h (by simp), view, byName]
  rw [hsorted h, hsorted ((hperm.map _).nodup_iff.1 h)]
  exact sortOperations_congr (by rwa [List.map_map]) (hperm.map s.arrangeOperation)

/-- Looking at operations through settings leaves them with the enumerations that they mention. -/
theorem referencedEnums_view (s : Settings) (ops : List Operation) :
    referencedEnums (s.view ops) = referencedEnums ops := by
  have hperm : ((s.view ops).flatMap (·.arguments)).Perm (ops.flatMap (·.arguments)) := by
    apply ((s.view_perm ops).flatMap_right _).trans
    rw [List.flatMap_map]
    exact List.Perm.flatMap_left ops fun op _ => s.arguments_arrangeOperation_perm op
  apply Text.sortedNames_congr
  intro n
  exact ((hperm.filterMap (·.enumType)).filter _).mem_iff

theorem fault?_plain {s : Settings} (h : s.fault? = none) : s.plain.fault? = none := by
  obtain ⟨hb, hs, hr, hl, -⟩ := fault?_eq_none_iff.1 h
  exact fault?_eq_none_iff.2 ⟨hb, hs, hr, hl, by simp [plain]⟩

end Settings

/-! ## Whole runs -/

/-- A catalogue as the settings show it. -/
def Catalog.shownBy (s : Settings) (c : Catalog) : Catalog :=
  { c with operations := s.view c.operations }

namespace Registry

variable {σ : Type}

/-- What is found does not depend on orders and overrides. -/
theorem collect_plain (reg : Registry σ) (s : Settings) (found : Nat) (ts : List TypeHandle)
    (state : σ) : reg.collect s.plain found ts state = reg.collect s found ts state := by
  have hbase : s.plain.baseType = s.baseType := rfl
  have hroots : s.plain.rootTypes = s.rootTypes := rfl
  have hlimits : s.plain.limits = s.limits := rfl
  induction ts generalizing found state with
  | nil => rfl
  | cons t ts ih => simp only [collect, ih, hbase, hroots, hlimits]

theorem operations_eq_view (reg : Registry σ) (s : Settings) (state : σ) :
    reg.operations s state =
      ((reg.operations s.plain state).1.map s.view, (reg.operations s.plain state).2) := by
  have hbase : s.plain.baseType = s.baseType := rfl
  simp only [operations, hbase, collect_plain]
  cases reg.lookup? s.baseType with
  | none => rfl
  | some base =>
    cases h : (reg.collect s 0 (reg.subtypes base) state).1 with
    | error e => simp only [h]; rfl
    | ok ops => simp only [h, Except.map, s.arrange_eq_view ops]

theorem catalog_eq_shownBy (reg : Registry σ) (s : Settings) (state : σ) :
    reg.catalog s state =
      ((reg.catalog s.plain state).1.map (·.shownBy s), (reg.catalog s.plain state).2) := by
  have hsentinel : s.plain.sentinel = s.sentinel := rfl
  have hlimits : s.plain.limits = s.limits := rfl
  simp only [catalog, reg.operations_eq_view s, hsentinel, hlimits]
  rcases reg.operations s.plain state with ⟨e | ops, state⟩
  · rfl
  · simp only [Except.map, s.referencedEnums_view]
    cases reg.resolveEnums s.sentinel s.limits.enumMembers (referencedEnums ops) with
    | error e => rfl
    | ok enums => rfl

end Registry

namespace World

variable {σ : Type}

theorem introspect_eq_shownBy (reg : Registry σ) {s : Settings} (valid : s.fault? = none)
    (w : World σ) :
    w.introspect reg s =
      ((w.introspect reg s.plain).1.map (·.shownBy s), (w.introspect reg s.plain).2) := by
  rw [introspect_of_valid valid, introspect_of_valid (Settings.fault?_plain valid)]
  rcases h : w.start reg with ⟨_ | reason, w'⟩
  · simp only [started, h, reg.catalog_eq_shownBy s]
  · simp only [started, h]
    rfl

/-- Names are unique in every catalogue, whatever the settings. -/
theorem nodup_of_introspect {reg : Registry σ} {s : Settings} {w : World σ} {c : Catalog}
    (h : (w.introspect reg s).1 = .ok c) : (c.operations.map (·.name)).Nodup := by
  obtain ⟨-, state, hc⟩ := ok_of_introspect h
  obtain ⟨-, found, -, -, ho⟩ := Registry.ok_of_operations (Registry.ok_of_catalog hc).1
  rw [ho]
  exact s.nodup_arrange found

/-- Every operation of a discovered catalogue is what one inspection found, arranged. -/
theorem exists_inspect_of_introspect {reg : Registry σ} {s : Settings} {w : World σ}
    {c : Catalog} (h : (w.introspect reg s).1 = .ok c) {op : Operation}
    (hop : op ∈ c.operations) :
    ∃ found t name state, op = s.arrangeOperation found ∧ name ≠ "" ∧
      (reg.inspect s.rootTypes s.limits.arguments t name state).1 = .ok (some found) := by
  obtain ⟨-, state, hc⟩ := ok_of_introspect h
  obtain ⟨base, ops, -, hcollect, ho⟩ := Registry.ok_of_operations (Registry.ok_of_catalog hc).1
  rw [ho] at hop
  obtain ⟨found, hfound, rfl⟩ := Settings.exists_of_mem_arrange hop
  obtain ⟨t, name, state', hne, hi⟩ := (Registry.collects_of_collect hcollect).exists_inspect hfound
  exact ⟨found, t, name, state', rfl, hne, hi⟩

/-- Settings that differ in nothing but orders and overrides fail alike or show the same
operations and enumerations. -/
theorem introspect_shows (reg : Registry σ) (w : World σ) {s₁ s₂ : Settings}
    (same : s₁.plain = s₂.plain) (valid₁ : s₁.fault? = none) (valid₂ : s₂.fault? = none) :
    (w.introspect reg s₁).2 = (w.introspect reg s₂).2 ∧
    ((∃ e, (w.introspect reg s₁).1 = .error e ∧ (w.introspect reg s₂).1 = .error e) ∨
      ∃ c c₁ c₂, (w.introspect reg s₁.plain).1 = .ok c ∧
        (w.introspect reg s₁).1 = .ok c₁ ∧ (w.introspect reg s₂).1 = .ok c₂ ∧
        c₁.enums = c.enums ∧ c₂.enums = c.enums ∧
        s₁.Shows c.operations c₁.operations ∧ s₂.Shows c.operations c₂.operations) := by
  have h₁ := introspect_eq_shownBy reg valid₁ w
  have h₂ := introspect_eq_shownBy reg valid₂ w
  rw [← same] at h₂
  rw [h₁, h₂]
  refine ⟨rfl, ?_⟩
  cases h : (w.introspect reg s₁.plain).1 with
  | error e => exact Or.inl ⟨e, rfl, rfl⟩
  | ok c =>
    have hnodup := nodup_of_introspect h
    exact Or.inr ⟨c, c.shownBy s₁, c.shownBy s₂, rfl, rfl, rfl, rfl, rfl,
      s₁.shows_view hnodup, s₂.shows_view hnodup⟩

/-- Two of the types share a nickname, and the first of these lists two parameters. -/
def sharingTable : Table where
  types :=
    [{ handle := ⟨1⟩, nickname := some "sub", isInstantiable := true,
       parameters := [⟨"out", ⟨9⟩, .ofNames [.construct, .output], 2, .other⟩,
         ⟨"in", ⟨9⟩, .ofNames [.construct, .input], 1, .other⟩] },
      { handle := ⟨2⟩, nickname := some "add", isInstantiable := true },
      { handle := ⟨3⟩, nickname := some "sub", isInstantiable := true }]
  names := [("VipsOperation", ⟨1⟩)]
  subtypes := [⟨1⟩, ⟨2⟩, ⟨3⟩]

/-- Both orders, and a category for one operation. -/
def arrangedSettings : Settings where
  operationOrder := .name
  argumentOrder := .priority
  overrides := [("sub", "arithmetic")]

theorem introspect_shows_sharingTable :
    ∃ c c₁ c₂, (introspect sharingTable.registry {} ⟨{}, {}⟩).1 = .ok c ∧
      (introspect sharingTable.registry arrangedSettings ⟨{}, {}⟩).1 = .ok c₁ ∧
      (introspect sharingTable.registry {} ⟨{}, {}⟩).1 = .ok c₂ ∧
      c₁.enums = c.enums ∧ c₂.enums = c.enums ∧
      arrangedSettings.Shows c.operations c₁.operations ∧
      Settings.Shows {} c.operations c₂.operations := by
  have hrun : (introspect sharingTable.registry {} ⟨{}, {}⟩).1.toBool = true := by rfl
  have same : arrangedSettings.plain = Settings.plain {} := by rfl
  rcases (introspect_shows sharingTable.registry ⟨{}, {}⟩ same (by rfl) (by rfl)).2 with
    ⟨e, -, he⟩ | hshows
  · rw [he] at hrun
    cases hrun
  · exact hshows

end World

end OpCatalog
