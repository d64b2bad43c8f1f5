import OpCatalog.Proofs.Inspection
import OpCatalog.Registry.Tabulated

/-!
# Parameters in each other's way

The loop of an inspection looks at flags, names and numbers in one pass, and the order of these
checks decides which parameters stand in the way of others. Only one that is kept does: it takes
its name and a place under the limit. `inspect_outcome` says what an inspection comes to for it.
-/
namespace OpCatalog

variable {spec : ParamSpec} {before after : List ParamSpec}

/-- The parameter can be used, and none before it that can has the same name. -/
def ParamSpec.IsFirst (spec : ParamSpec) (before : List ParamSpec) : Prop :=
  spec.isUsable ∧ ∀ other ∈ before, other.isUsable → other.name ≠ spec.name

theorem keptParameters_append (before after : List ParamSpec) :
    keptParameters (before ++ after) =
      keptParameters before ++
        firstOfEach ParamSpec.name ((before.filter ParamSpec.isUsable).map ParamSpec.name)
          (after.filter ParamSpec.isUsable) := by
  rw [keptParameters, List.filter_append, firstOfEach_append, List.append_nil, keptParameters]

theorem name_mem_usable_iff :
    spec.name ∈ (before.filter ParamSpec.isUsable).map ParamSpec.name ↔
      ∃ other ∈ before, other.isUsable ∧ other.name = spec.name := by
  simp only [List.mem_map, List.mem_filter, and_assoc]

/-- A parameter that is not the first of its name to be usable might as well not be there. -/
theorem keptParameters_of_not_isFirst (h : ¬spec.IsFirst before) :
    keptParameters (before ++ spec :: after) = keptParameters (before ++ after) := by
  rw [keptParameters_append, keptParameters_append]
  congr 1
  by_cases hu : spec.isUsable
  · have hmem : spec.name ∈ (before.filter ParamSpec.isUsable).map ParamSpec.name := by
      rw [name_mem_usable_iff]
      simpa [ParamSpec.IsFirst, hu] using h
    rw [List.filter_cons_of_pos hu, firstOfEach, if_pos hmem]
  · rw [List.filter_cons_of_neg hu]

/-- The first usable parameter of a name is kept, next after those kept before it. -/
theorem exists_keptParameters_of_isFirst (h : spec.IsFirst before) (after : List ParamSpec) :
    ∃ later, keptParameters (before ++ spec :: after) = keptParameters before ++ spec :: later := by
  have hmem : spec.name ∉ (before.filter ParamSpec.isUsable).map ParamSpec.name := by
    rw [name_mem_usable_iff]
    rintro ⟨other, hother, hu, heq⟩
    exact h.2 other hother hu heq
  rw [keptParameters_append, List.filter_cons_of_pos h.1, firstOfEach, if_neg hmem]
  exact ⟨_, rfl⟩

namespace Registry

variable {σ : Type}

/-- An inspection passes over a type exactly if no object of it can be made. Otherwise it fails
exactly if more parameters are to be kept than a limit allows, and gives the operation with all of
them, in order, if not. What is to be kept does not change for parameters that cannot be used or
come after another of the same name, and the first that can be used is always kept. -/
theorem inspect_outcome (reg : Registry σ) (rootNames : List String) (limit : Option Nat)
    (t : TypeHandle) (name : String) (s : σ) :
    ((reg.inspect rootNames limit t name s).1 = .ok none ↔ (reg.instantiate t s).1 = none) ∧
    (∀ object s', reg.instantiate t s = (some object, s') →
      (∀ e, (reg.inspect rootNames limit t name s).1 = .error e ↔
        ∃ n, limit = some n ∧ n < (keptParameters (reg.parameters object s')).length ∧
          e = .limitExceeded .arguments name n) ∧
      (limit.all ((keptParameters (reg.parameters object s')).length ≤ ·) →
        ∃ op, (reg.inspect rootNames limit t name s).1 = .ok (some op) ∧ op.name = name ∧
          op.arguments = (keptParameters (reg.parameters object s')).map reg.classify)) ∧
    ∀ before spec after,
      (¬spec.IsFirst before →
        keptParameters (before ++ spec :: after) = keptParameters (before ++ after)) ∧
      (spec.IsFirst before → ∃ later,
        keptParameters (before ++ spec :: after) = keptParameters before ++ spec :: later) := by
  refine ⟨⟨?_, fun refused => by rw [inspect_of_refused refused]⟩, ?_, ?_⟩
  · intro hnone
    rcases hi : reg.instantiate t s with ⟨_ | object, s'⟩
    · rfl
    · rw [inspect_of_made hi] at hnone
      split at hnone
      · cases hnone
      · cases hnone
  · intro object s' made
    rw [inspect_of_made made]
    constructor
    · intro e
      cases limit with
      | none => simp
      | some n =>
        by_cases hfits : (keptParameters (reg.parameters object s')).length ≤ n
        · simp [hfits, Nat.not_lt.2 hfits]
        · simp [hfits, Nat.lt_of_not_le hfits, eq_comm]
    · intro hfits
      rw [if_pos hfits]
      exact ⟨_, rfl, rfl, rfl⟩
  · intro before spec after
    exact ⟨keptParameters_of_not_isFirst, fun h => exists_keptParameters_of_isFirst h after⟩

end Registry

/-- One type with five parameters of two names: a deprecated one and one that is not set at
construction come before usable ones of their names, and another usable one comes too late. -/
def shadowingTable : Table where
  types :=
    [{ handle := ⟨1⟩, isInstantiable := true,
       parameters :=
        [⟨"in", ⟨2⟩, .ofNames [.construct, .deprecated], 0, .other⟩,
          ⟨"in", ⟨2⟩, .ofNames [.construct, .input], 1, .other⟩,
          ⟨"out", ⟨2⟩, .ofNames [.output], 2, .other⟩,
          ⟨"in", ⟨2⟩, .ofNames [.construct, .output], 3, .other⟩,
          ⟨"out", ⟨2⟩, .ofNames [.construct, .output], 4, .other⟩] }]

/-- A limit of two leaves room for both arguments, which one of one does not, and the type that
the table does not know is passed over. -/
theorem Registry.inspect_outcome_shadowing :
    (∃ op, (shadowingTable.registry.inspect [] (some 2) ⟨1⟩ "copy" {}).1 = .ok (some op) ∧
      op.arguments.map (fun a => (a.name, a.priority)) = [("in", 1), ("out", 4)]) ∧
    (shadowingTable.registry.inspect [] (some 1) ⟨1⟩ "copy" {}).1 =
      .error (.limitExceeded .arguments "copy" 1) ∧
    (shadowingTable.registry.inspect [] (some 1) ⟨2⟩ "copy" {}).1 = .ok none := by
  have made : shadowingTable.registry.instantiate ⟨1⟩ {} = (some ⟨1⟩, Table.create ⟨1⟩ {}) := rfl
  refine ⟨?_, ?_, ?_⟩
  · obtain ⟨op, hop, -, harguments⟩ :=
      ((inspect_outcome shadowingTable.registry [] (some 2) ⟨1⟩ "copy" {}).2.1 _ _ made).2 rfl
    exact ⟨op, hop, by rw [harguments]; rfl⟩
  · exact (((inspect_outcome shadowingTable.registry [] (some 1) ⟨1⟩ "copy" {}).2.1 _ _ made).1
      _).2 ⟨1, rfl, by decide, rfl⟩
  · exact (inspect_outcome shadowingTable.registry [] (some 1) ⟨2⟩ "copy" {}).1.2 rfl

end OpCatalog
