import OpCatalog.Proofs.Enumeration
import OpCatalog.Proofs.Inspection
import OpCatalog.Proofs.Run

/-!
# What ends a discovery

Once the base type has been found only a limit can end a discovery, and then the failure gives
the limit that the settings set.
-/
namespace OpCatalog

/-- The failure tells of a limit that is set, and of its value. -/
def Failure.NamesLimit (e : Failure) (s : Settings) : Prop :=
  ∃ resource context limit, e = .limitExceeded resource context limit ∧
    s.limits.get resource = some limit

namespace Registry

variable {σ : Type} {reg : Registry σ} {s : Settings} {e : Failure}

theorem namesLimit_of_inspect {t : TypeHandle} {name : String} {state : σ}
    (h : (reg.inspect s.rootTypes s.limits.arguments t name state).1 = .error e) :
    e.NamesLimit s := by
  rw [inspect] at h
  rcases hi : reg.instantiate t state with ⟨_ | object, state'⟩
  · simp [hi] at h
  · simp only [hi, map_eq_error_iff, describeOperation_eq] at h
    split at h
    · cases h
    · next hmany =>
      cases h
      exact ⟨.arguments, name, _, rfl, eq_some_of_not_all hmany⟩

theorem namesLimit_of_collect {found : Nat} {ts : List TypeHandle} {state : σ}
    (h : (reg.collect s found ts state).1 = .error e) : e.NamesLimit s := by
  induction ts generalizing found state with
  | nil => simp [collect] at h
  | cons t ts ih =>
    rw [collect] at h
    split at h
    · exact ih h
    · split at h
      · exact ih h
      · next name _ =>
        split at h
        · next limit hlimit =>
          simp only [Except.error.injEq] at h
          exact ⟨.operations, s.baseType, limit, h.symm, (Option.filter_eq_some_iff.1 hlimit).1⟩
        · rcases hi : reg.inspect s.rootTypes s.limits.arguments t name state with
            ⟨e' | _ | op, state'⟩
          · simp only [hi, Except.error.injEq] at h
            exact namesLimit_of_inspect (t := t) (by rw [hi, h])
          · simp only [hi] at h
            exact ih h
          · simp only [hi, map_eq_error_iff] at h
            exact ih h

theorem namesLimit_of_resolveEnums {names : List String}
    (h : reg.resolveEnums s.sentinel s.limits.enumMembers names = .error e) : e.NamesLimit s := by
  induction names with
  | nil => simp [resolveEnums] at h
  | cons name names ih =>
    rw [resolveEnums] at h
    cases hr : reg.resolveEnum s.sentinel s.limits.enumMembers name with
    | ok found =>
      simp only [hr, map_eq_error_iff] at h
      exact ih h
    | error e' =>
      simp only [hr, Except.error.injEq] at h
      subst h
      rw [resolveEnum_eq] at hr
      split at hr
      · cases hr
      · next hmany =>
        cases hr
        exact ⟨.enumMembers, name, _, rfl, eq_some_of_not_all hmany⟩

/-- A discovery fails because the base type is missing or because there is too much of something. -/
theorem error_of_catalog {state : σ} (h : (reg.catalog s state).1 = .error e) :
    (reg.lookup? s.baseType = none ∧ e = .unknownBaseType s.baseType) ∨
      ((reg.lookup? s.baseType).isSome ∧ e.NamesLimit s) := by
  rw [catalog, operations] at h
  cases hb : reg.lookup? s.baseType with
  | none =>
    simp only [hb, Except.error.injEq] at h
    exact Or.inl ⟨rfl, h.symm⟩
  | some base =>
    refine Or.inr ⟨rfl, ?_⟩
    rcases hc : reg.collect s 0 (reg.subtypes base) state with ⟨e' | found, state'⟩
    · simp only [hb, hc, Except.map, Except.error.injEq] at h
      exact h ▸ namesLimit_of_collect (congrArg Prod.fst hc)
    · simp only [hb, hc, Except.map] at h
      exact namesLimit_of_resolveEnums (map_eq_error_iff.1 h)

end Registry

end OpCatalog
