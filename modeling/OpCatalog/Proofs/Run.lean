import OpCatalog.Discovery.Run
import OpCatalog.Proofs.Inspection
import OpCatalog.Proofs.Outcome

/-!
# Runs taken apart

What a successful run has gone through, from the whole down to the operation that
one type gives. Everything proved of catalogues starts from here.
-/
namespace OpCatalog

variable {σ : Type}

theorem Settings.fault?_eq_none_iff {s : Settings} :
    s.fault? = none ↔
      Text.isBlank s.baseType = false ∧ s.sentinel.isEmpty = false ∧
        (∀ root ∈ s.rootTypes, Text.isBlank root = false) ∧
        (∀ resource ∈ Resource.all, s.limits.get resource ≠ some 0) ∧
        ∀ row ∈ s.overrides, Text.isBlank row.2 = false := by
  rw [fault?]
  cases Text.isBlank s.baseType with
  | true => simp
  | false =>
    cases s.sentinel.isEmpty with
    | true => simp
    | false =>
      cases hr : s.rootTypes.find? Text.isBlank with
      | some root =>
        have hroot := List.find?_some hr
        have hmem := List.mem_of_find?_eq_some hr
        simp only [Bool.false_eq_true, if_false, reduceCtorEq, false_iff, true_and, not_and]
        intro hall
        rw [hall root hmem] at hroot
        cases hroot
      | none =>
        cases hl : Resource.all.find? (s.limits.get · == some 0) with
        | some resource =>
          have hzero := List.find?_some hl
          have hmem := List.mem_of_find?_eq_some hl
          simp only [Bool.false_eq_true, if_false, reduceCtorEq, false_iff, true_and, not_and]
          intro _ hall
          exact absurd (eq_of_beq hzero) (hall resource hmem)
        | none =>
          simp only [List.find?_eq_none] at hr hl
          simp only [Bool.false_eq_true, if_false, true_and, Option.map_eq_none_iff,
            List.find?_eq_none, Bool.not_eq_true]
          constructor
          · intro ho
            exact ⟨fun root h => by simpa using hr root h, fun r h => by simpa using hl r h, ho⟩
          · rintro ⟨-, -, ho⟩
            exact ho

namespace Registry

variable {reg : Registry σ} {s : Settings} {state : σ}

theorem checked_of_valid {α : Type} {run : σ → Except Failure α × σ} (valid : s.fault? = none) :
    checked s run = run := by
  funext state
  simp only [checked, valid]

theorem ok_of_operations {ops : List Operation} (h : (reg.operations s state).1 = .ok ops) :
    ∃ base found, reg.lookup? s.baseType = some base ∧
      (reg.collect s 0 (reg.subtypes base) state).1 = .ok found ∧ ops = s.arrange found := by
  rw [operations] at h
  cases hb : reg.lookup? s.baseType with
  | none => simp [hb] at h
  | some base =>
    simp only [hb] at h
    obtain ⟨found, hc, ho⟩ := map_eq_ok_iff.1 h
    exact ⟨base, found, rfl, hc, ho.symm⟩

theorem ok_of_catalog {c : Catalog} (h : (reg.catalog s state).1 = .ok c) :
    (reg.operations s state).1 = .ok c.operations ∧
      reg.resolveEnums s.sentinel s.limits.enumMembers (referencedEnums c.operations) =
        .ok c.enums := by
  rw [catalog] at h
  rcases ho : reg.operations s state with ⟨e | ops, state'⟩
  · simp [ho] at h
  · simp only [ho] at h
    obtain ⟨enums, he, rfl⟩ := map_eq_ok_iff.1 h
    exact ⟨rfl, he⟩

theorem ok_of_inspect {rootNames : List String} {limit : Option Nat} {t : TypeHandle}
    {name : String} {op : Operation}
    (h : (reg.inspect rootNames limit t name state).1 = .ok (some op)) :
    ∃ object state', reg.instantiate t state = (some object, state') ∧
      op = reg.described rootNames t name object state' ∧ limit.all (op.arguments.length ≤ ·) := by
  rw [inspect] at h
  rcases hi : reg.instantiate t state with ⟨_ | object, state'⟩
  · simp [hi] at h
  · simp only [hi] at h
    obtain ⟨found, hfound, heq⟩ := map_eq_ok_iff.1 h
    cases heq
    rw [describeOperation_eq] at hfound
    split at hfound
    · next hfew =>
      cases hfound
      exact ⟨object, state', rfl, rfl, hfew⟩
    · cases hfound

/-! ## Collecting -/

/-- The name under which a type is inspected, if the type is concrete and has one. -/
def operationName? (reg : Registry σ) (t : TypeHandle) : Option String :=
  if reg.isAbstract t then none else (reg.nickname? t).filter (!·.isEmpty)

theorem ne_of_operationName? {t : TypeHandle} {name : String}
    (h : reg.operationName? t = some name) : name ≠ "" := by
  rw [operationName?] at h
  split at h
  · cases h
  · rintro rfl
    simp [Option.filter_eq_some_iff] at h

/-- One round of a collection. -/
theorem collect_cons (reg : Registry σ) (s : Settings) (found : Nat) (t : TypeHandle)
    (ts : List TypeHandle) (state : σ) :
    reg.collect s found (t :: ts) state =
      match reg.operationName? t with
      | none => reg.collect s found ts state
      | some name =>
        if s.limits.operations.any (· ≤ found) then
          (.error (.limitExceeded .operations s.baseType (s.limits.operations.getD 0)), state)
        else match reg.inspect s.rootTypes s.limits.arguments t name state with
          | (.error e, state') => (.error e, state')
          | (.ok none, state') => reg.collect s found ts state'
          | (.ok (some op), state') =>
            ((reg.collect s (found + 1) ts state').1.map (op :: ·),
              (reg.collect s (found + 1) ts state').2) := by
  rw [collect, operationName?]
  by_cases ha : reg.isAbstract t
  · rw [if_pos ha, if_pos ha]
  · rw [if_neg ha, if_neg ha]
    cases (reg.nickname? t).filter (!·.isEmpty) with
    | none => rfl
    | some name =>
      cases s.limits.operations with
      | none => rfl
      | some limit =>
        by_cases hfull : limit ≤ found
        · simp [Option.filter, hfull]
        · rcases hi : reg.inspect s.rootTypes s.limits.arguments t name state with
            ⟨e | _ | op, state'⟩ <;> simp [Option.filter, hfull, hi]

/-- A collection that succeeds, type by type: what is not to be inspected and what cannot be
instantiated is passed over, and each operation found leaves one less of the limit. -/
inductive Collects (reg : Registry σ) (s : Settings) :
    Nat → List TypeHandle → σ → List Operation → σ → Prop
  | nil {found : Nat} {state : σ} : Collects reg s found [] state [] state
  | unnamed {found : Nat} {t : TypeHandle} {ts : List TypeHandle} {state after : σ}
    {ops : List Operation} :
    reg.operationName? t = none → Collects reg s found ts state ops after →
      Collects reg s found (t :: ts) state ops after
  | refused {found : Nat} {t : TypeHandle} {ts : List TypeHandle} {name : String}
    {state state' after : σ} {ops : List Operation} :
    reg.operationName? t = some name → ¬s.limits.operations.any (· ≤ found) →
      reg.inspect s.rootTypes s.limits.arguments t name state = (.ok none, state') →
      Collects reg s found ts state' ops after → Collects reg s found (t :: ts) state ops after
  | inspected {found : Nat} {t : TypeHandle} {ts : List TypeHandle} {name : String}
    {op : Operation} {state state' after : σ} {ops : List Operation} :
    reg.operationName? t = some name → ¬s.limits.operations.any (· ≤ found) →
      reg.inspect s.rootTypes s.limits.arguments t name state = (.ok (some op), state') →
      Collects reg s (found + 1) ts state' ops after →
      Collects reg s found (t :: ts) state (op :: ops) after

theorem collects_of_collect {found : Nat} {ts : List TypeHandle} {ops : List Operation}
    (h : (reg.collect s found ts state).1 = .ok ops) :
    reg.Collects s found ts state ops (reg.collect s found ts state).2 := by
  induction ts generalizing found state ops with
  | nil =>
    cases h
    exact Collects.nil
  | cons t ts ih =>
    rw [collect_cons] at h ⊢
    cases hname : reg.operationName? t with
    | none =>
      simp only [hname] at h
      exact Collects.unnamed hname (ih h)
    | some name =>
      by_cases hfull : s.limits.operations.any (· ≤ found)
      · simp [hname, hfull] at h
      · rcases hi : reg.inspect s.rootTypes s.limits.arguments t name state with
          ⟨e | _ | op, state'⟩
        · simp [hname, hfull, hi] at h
        · simp only [hname, if_neg hfull, hi] at h ⊢
          exact Collects.refused hname hfull hi (ih h)
        · simp only [hname, if_neg hfull, hi] at h ⊢
          obtain ⟨rest, hrest, rfl⟩ := map_eq_ok_iff.1 h
          exact Collects.inspected hname hfull hi (ih hrest)

theorem Collects.collect_eq {found : Nat} {ts : List TypeHandle} {ops : List Operation}
    {after : σ} (h : reg.Collects s found ts state ops after) :
    reg.collect s found ts state = (.ok ops, after) := by
  induction h with
  | nil => rfl
  | unnamed hname _ ih => rw [collect_cons, hname, ih]
  | refused hname hroom hi _ ih => simp only [collect_cons, hname, if_neg hroom, hi, ih]
  | inspected hname hroom hi _ ih =>
    simp only [collect_cons, hname, if_neg hroom, hi, ih, Except.map]

/-- Every operation collected was inspected under a name that is not empty. -/
theorem Collects.exists_inspect {found : Nat} {ts : List TypeHandle} {ops : List Operation}
    {after : σ} (h : reg.Collects s found ts state ops after) {op : Operation} (hop : op ∈ ops) :
    ∃ t name state', name ≠ "" ∧
      (reg.inspect s.rootTypes s.limits.arguments t name state').1 = .ok (some op) := by
  induction h with
  | nil => simp at hop
  | unnamed _ _ ih => exact ih hop
  | refused _ _ _ _ ih => exact ih hop
  | inspected hname _ hi _ ih =>
    rcases List.mem_cons.1 hop with rfl | hop
    · exact ⟨_, _, _, ne_of_operationName? hname, by rw [hi]⟩
    · exact ih hop

end Registry

namespace World

variable {reg : Registry σ} {s : Settings} {w : World σ}

theorem introspect_of_valid (valid : s.fault? = none) :
    w.introspect reg s = w.started reg (reg.catalog s) := by
  simp only [introspect, valid, Registry.discover, Registry.checked_of_valid valid]

theorem introspect_of_started (valid : s.fault? = none) (started : (w.start reg).1 = .started) :
    (w.introspect reg s).1 = (reg.catalog s (w.start reg).2.state).1 := by
  rw [introspect_of_valid valid, World.started]
  rcases hs : w.start reg with ⟨outcome, w'⟩
  rw [hs] at started
  simp only at started
  simp only [started]

theorem introspect_eq_ok_iff {c : Catalog} :
    (w.introspect reg s).1 = .ok c ↔
      s.fault? = none ∧ (w.start reg).1 = .started ∧
        (reg.catalog s (w.start reg).2.state).1 = .ok c := by
  constructor
  · intro h
    cases hf : s.fault? with
    | some fault => simp [introspect, hf] at h
    | none =>
      cases hs : (w.start reg).1 with
      | started =>
        rw [introspect_of_started hf hs] at h
        exact ⟨rfl, rfl, h⟩
      | failed reason =>
        rw [introspect_of_valid hf, World.started] at h
        rcases hw : w.start reg with ⟨outcome, w'⟩
        rw [hw] at hs
        simp only at hs
        simp [hw, hs] at h
  · rintro ⟨valid, started, h⟩
    rw [introspect_of_started valid started, h]

theorem ok_of_introspect {c : Catalog} (h : (w.introspect reg s).1 = .ok c) :
    s.fault? = none ∧ ∃ state, (reg.catalog s state).1 = .ok c := by
  obtain ⟨valid, -, hc⟩ := introspect_eq_ok_iff.1 h
  exact ⟨valid, _, hc⟩

end World

end OpCatalog
