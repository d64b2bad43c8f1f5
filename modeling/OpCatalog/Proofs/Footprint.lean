import OpCatalog.Discovery.Run

/-!
# The footprint of a discovery

A discovery reaches the state of the foreign side through inspections only. A preorder of states
that every inspection follows is therefore followed by every entry point, whatever its outcome.
-/
namespace OpCatalog

/-- The questions that are put to a registry once its runtime has been started. -/
inductive Query where
  | catalog (s : Settings)
  | operations (s : Settings)
  | enums (s : Settings) (names : List String)
  | inspect (rootNames : List String) (limit : Option Nat) (t : TypeHandle) (name : String)

namespace Registry

variable {σ : Type} {reg : Registry σ} {R : σ → σ → Prop}

/-- The state that a question leaves behind. -/
def afterQuery (reg : Registry σ) (state : σ) : Query → σ
  | .catalog s => (reg.discover s state).2
  | .operations s => (reg.discoverOperations s state).2
  | .enums s names => (reg.discoverEnums s names state).2
  | .inspect rootNames limit t name => (reg.inspect rootNames limit t name state).2

/-- `R` is a preorder, and an inspection leads from a state to a later one. -/
structure Follows (reg : Registry σ) (R : σ → σ → Prop) : Prop where
  refl : ∀ state, R state state
  trans : ∀ {a b c}, R a b → R b c → R a c
  inspect : ∀ rootNames limit t name state, R state (reg.inspect rootNames limit t name state).2

theorem Follows.collect (h : reg.Follows R) (s : Settings) (found : Nat) (ts : List TypeHandle)
    (state : σ) : R state (reg.collect s found ts state).2 := by
  induction ts generalizing found state with
  | nil => exact h.refl state
  | cons t ts ih =>
    rw [Registry.collect]
    split
    · exact ih found state
    · split
      · exact ih found state
      · next name _ =>
        split
        · exact h.refl state
        · have hfirst := h.inspect s.rootTypes s.limits.arguments t name state
          rcases hi : reg.inspect s.rootTypes s.limits.arguments t name state with
            ⟨e | _ | op, state'⟩
          · rw [hi] at hfirst
            exact hfirst
          · rw [hi] at hfirst
            exact h.trans hfirst (ih found state')
          · rw [hi] at hfirst
            exact h.trans hfirst (ih (found + 1) state')

theorem Follows.operations (h : reg.Follows R) (s : Settings) (state : σ) :
    R state (reg.operations s state).2 := by
  rw [Registry.operations]
  cases reg.lookup? s.baseType with
  | none => exact h.refl state
  | some base => exact h.collect s 0 (reg.subtypes base) state

theorem Follows.catalog (h : reg.Follows R) (s : Settings) (state : σ) :
    R state (reg.catalog s state).2 := by
  have hops := h.operations s state
  rw [Registry.catalog]
  rcases ho : reg.operations s state with ⟨e | ops, state'⟩
  · rw [ho] at hops
    exact hops
  · rw [ho] at hops
    exact hops

theorem Follows.checked {α : Type} (h : reg.Follows R) (s : Settings)
    {run : σ → Except Failure α × σ} (hrun : ∀ state, R state (run state).2) (state : σ) :
    R state (checked s run state).2 := by
  rw [Registry.checked]
  split
  · exact h.refl state
  · exact hrun state

theorem Follows.afterQuery (h : reg.Follows R) (state : σ) (q : Query) :
    R state (reg.afterQuery state q) := by
  cases q with
  | catalog s => exact h.checked s (h.catalog s) state
  | operations s => exact h.checked s (h.operations s) state
  | enums s names => exact h.checked s (fun state => h.refl state) state
  | inspect rootNames limit t name => exact h.inspect rootNames limit t name state

end Registry

/-- Beyond starting the runtime, an introspection does what one question does. -/
theorem World.introspect_snd {σ : Type} (reg : Registry σ) (s : Settings) (w : World σ) :
    (w.introspect reg s).2 =
      if s.fault?.isSome then w
      else if (w.start reg).1 = .started then
        { (w.start reg).2 with state := reg.afterQuery (w.start reg).2.state (.catalog s) }
      else (w.start reg).2 := by
  rw [introspect]
  cases s.fault? with
  | some fault => rfl
  | none =>
    rw [started]
    rcases w.start reg with ⟨_ | reason, w'⟩
    · rfl
    · rfl

end OpCatalog
