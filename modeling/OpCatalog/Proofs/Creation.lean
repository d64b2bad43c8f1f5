import OpCatalog.Proofs.Footprint
import OpCatalog.Proofs.Run

/-!
# Questions that make objects

Where the state of a registry tells how many objects have been made, `Counts.asks_iff` says which
questions make one: those that come to a type of which one can be made. No other question is
answered with an operation.
-/
namespace OpCatalog

theorem Settings.arrange_nil (s : Settings) : s.arrange [] = [] := by
  rw [arrange]
  cases s.operationOrder with
  | registration => rfl
  | name => simp [sortOperations, firstOfEach]

namespace Registry

variable {σ : Type} {reg : Registry σ} {made : σ → Nat} {s : Settings}

/-- An object can be made of one of the types when they are tried in order, abstract and unnamed
ones left aside. -/
def makesAny (reg : Registry σ) : List TypeHandle → σ → Bool
  | [], _ => false
  | t :: ts, state =>
    if (reg.operationName? t).isNone then reg.makesAny ts state
    else (reg.instantiate t state).1.isSome || reg.makesAny ts (reg.instantiate t state).2

/-- An object can be made of one of the types below the base type. -/
def makesBelow (reg : Registry σ) (s : Settings) (state : σ) : Bool :=
  (reg.lookup? s.baseType).any fun base => reg.makesAny (reg.subtypes base) state

/-- The question comes to a type of which an object can be made. -/
def makes (reg : Registry σ) (state : σ) : Query → Bool
  | .catalog s | .operations s => s.fault?.isNone && reg.makesBelow s state
  | .enums _ _ => false
  | .inspect _ _ t _ => (reg.instantiate t state).1.isSome

/-- The operations that a question is answered with. -/
def found (reg : Registry σ) (state : σ) : Query → List Operation
  | .catalog s => ((reg.discover s state).1.toOption.map (·.operations)).getD []
  | .operations s => (reg.discoverOperations s state).1.toOption.getD []
  | .enums _ _ => []
  | .inspect rootNames limit t name =>
    ((reg.inspect rootNames limit t name state).1.toOption.bind id).toList

/-- The state tells how many objects have been made. -/
structure Counts (reg : Registry σ) (made : σ → Nat) : Prop where
  instantiate : ∀ t state, made (reg.instantiate t state).2 =
    made state + if (reg.instantiate t state).1.isSome then 1 else 0
  release : ∀ object state, made (reg.release object state) = made state

/-! ## One type -/

theorem Counts.inspect (h : reg.Counts made) (rootNames : List String) (limit : Option Nat)
    (t : TypeHandle) (name : String) (state : σ) :
    made (reg.inspect rootNames limit t name state).2 =
      made state + if (reg.instantiate t state).1.isSome then 1 else 0 := by
  rw [← h.instantiate]
  rcases hi : reg.instantiate t state with ⟨_ | object, state'⟩
  · rw [inspect_of_refused (by rw [hi]), hi]
  · rw [inspect_of_made hi]
    exact h.release object state'

/-- What has been made is not taken back. -/
theorem Counts.follows (h : reg.Counts made) : reg.Follows fun a b => made a ≤ made b where
  refl := fun _ => Nat.le_refl _
  trans := Nat.le_trans
  inspect := by
    intro rootNames limit t name state
    rw [h.inspect]
    exact Nat.le_add_right _ _

/-! ## Collecting -/

/-- A collection comes to a type of which an object can be made, or to the end of the types. -/
theorem Counts.collect (h : reg.Counts made) (room : s.limits.operations ≠ some 0)
    (ts : List TypeHandle) (state : σ) :
    (reg.makesAny ts state ∧ made state < made (reg.collect s 0 ts state).2) ∨
      (¬reg.makesAny ts state ∧ (reg.collect s 0 ts state).1 = .ok [] ∧
        made (reg.collect s 0 ts state).2 = made state) := by
  have hroom : ¬s.limits.operations.any (· ≤ 0) := by
    cases hl : s.limits.operations with
    | none => simp
    | some n => simpa [hl] using room
  induction ts generalizing state with
  | nil => exact Or.inr ⟨Bool.false_ne_true, rfl, rfl⟩
  | cons t ts ih =>
    rw [collect_cons, makesAny]
    cases hname : reg.operationName? t with
    | none => exact ih state
    | some name =>
      simp only [Option.isNone_some, Bool.false_eq_true, if_false, if_neg hroom]
      cases hi : (reg.instantiate t state).1 with
      | none =>
        have hsame : made (reg.instantiate t state).2 = made state := by
          rw [h.instantiate, hi]
          rfl
        rw [inspect_of_refused hi, Option.isSome_none, Bool.false_or, ← hsame]
        exact ih (reg.instantiate t state).2
      | some object =>
        refine Or.inl ⟨rfl, ?_⟩
        have hlt : made state <
            made (reg.inspect s.rootTypes s.limits.arguments t name state).2 := by
          rw [h.inspect, hi]
          exact Nat.lt_succ_self _
        rcases hx : reg.inspect s.rootTypes s.limits.arguments t name state with
          ⟨e | _ | op, state'⟩
        · rw [hx] at hlt
          exact hlt
        · rw [hx] at hlt
          exact Nat.lt_of_lt_of_le hlt (h.follows.collect s 0 ts state')
        · rw [hx] at hlt
          exact Nat.lt_of_lt_of_le hlt (h.follows.collect s 1 ts state')

theorem Counts.operations (h : reg.Counts made) (valid : s.fault? = none) (state : σ) :
    (reg.makesBelow s state ∧ made state < made (reg.operations s state).2) ∨
      (¬reg.makesBelow s state ∧ (∀ ops, (reg.operations s state).1 = .ok ops → ops = []) ∧
        made (reg.operations s state).2 = made state) := by
  have hroom : s.limits.operations ≠ some 0 :=
    (Settings.fault?_eq_none_iff.1 valid).2.2.2.1 .operations (by decide)
  rw [makesBelow, Registry.operations]
  cases reg.lookup? s.baseType with
  | none =>
    refine Or.inr ⟨Bool.false_ne_true, ?_, rfl⟩
    intro ops hops
    cases hops
  | some base =>
    obtain hmade | ⟨hnot, hnone, hsame⟩ := h.collect hroom (reg.subtypes base) state
    · exact Or.inl hmade
    · refine Or.inr ⟨hnot, ?_, hsame⟩
      intro ops hops
      simp only [hnone, Except.map, Except.ok.injEq, s.arrange_nil] at hops
      exact hops.symm

/-! ## Questions -/

theorem catalog_snd (reg : Registry σ) (s : Settings) (state : σ) :
    (reg.catalog s state).2 = (reg.operations s state).2 := by
  rw [catalog]
  rcases reg.operations s state with ⟨e | ops, state'⟩
  · rfl
  · rfl

theorem checked_of_fault {α : Type} {fault : Settings.Fault} (h : s.fault? = some fault)
    (run : σ → Except Failure α × σ) (state : σ) :
    checked s run state = (.error (.invalidSettings fault), state) := by
  simp only [checked, h]

theorem Counts.afterQuery (h : reg.Counts made) (state : σ) (q : Query) :
    (reg.makes state q ∧ made state < made (reg.afterQuery state q)) ∨
      (¬reg.makes state q ∧ reg.found state q = [] ∧
        made (reg.afterQuery state q) = made state) := by
  cases q with
  | catalog s =>
    rw [makes, found, Registry.afterQuery, discover]
    cases hf : s.fault? with
    | some fault =>
      rw [checked_of_fault hf]
      exact Or.inr ⟨Bool.false_ne_true, rfl, rfl⟩
    | none =>
      rw [checked_of_valid hf, catalog_snd]
      obtain hmade | ⟨hnot, hnone, hsame⟩ := h.operations hf state
      · exact Or.inl hmade
      · refine Or.inr ⟨hnot, ?_, hsame⟩
        cases hc : (reg.catalog s state).1 with
        | error e => rfl
        | ok c => exact hnone c.operations (ok_of_catalog hc).1
  | operations s =>
    rw [makes, found, Registry.afterQuery, discoverOperations]
    cases hf : s.fault? with
    | some fault =>
      rw [checked_of_fault hf]
      exact Or.inr ⟨Bool.false_ne_true, rfl, rfl⟩
    | none =>
      rw [checked_of_valid hf]
      obtain hmade | ⟨hnot, hnone, hsame⟩ := h.operations hf state
      · exact Or.inl hmade
      · refine Or.inr ⟨hnot, ?_, hsame⟩
        cases ho : (reg.operations s state).1 with
        | error e => rfl
        | ok ops => exact hnone ops ho
  | enums s names =>
    rw [found, Registry.afterQuery, discoverEnums]
    cases hf : s.fault? with
    | some fault =>
      rw [checked_of_fault hf]
      exact Or.inr ⟨Bool.false_ne_true, rfl, rfl⟩
    | none =>
      rw [checked_of_valid hf]
      exact Or.inr ⟨Bool.false_ne_true, rfl, rfl⟩
  | inspect rootNames limit t name =>
    rw [makes, Registry.afterQuery, h.inspect]
    cases hi : (reg.instantiate t state).1 with
    | none =>
      rw [found, inspect_of_refused hi]
      exact Or.inr ⟨Bool.false_ne_true, rfl, rfl⟩
    | some object => exact Or.inl ⟨rfl, Nat.lt_succ_self _⟩

/-- A question makes an object or finds an operation exactly if it comes to a type of which an
object can be made. -/
theorem Counts.asks_iff (h : reg.Counts made) {state : σ} {q : Query} :
    (made state < made (reg.afterQuery state q) ∨ reg.found state q ≠ []) ↔ reg.makes state q := by
  obtain ⟨hm, hlt⟩ | ⟨hm, hfound, hsame⟩ := h.afterQuery state q
  · exact iff_of_true (Or.inl hlt) hm
  · exact iff_of_false (by simp [hfound, hsame]) hm

end Registry

end OpCatalog
