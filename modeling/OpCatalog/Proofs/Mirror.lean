import OpCatalog.Proofs.Footprint
import OpCatalog.Proofs.Run

/-!
# Registries that keep more

A registry may keep more in its state than another one and otherwise be the same, for instance a
record of what has been done through it. Nothing that a discovery gives shows the difference, and
the part of the state that both have goes through the same changes.
-/
namespace OpCatalog

namespace Registry

variable {σ τ : Type} {reg : Registry σ} {reg' : Registry τ} {view : τ → σ} {s : Settings}

/-- `reg'` does and says what `reg` does and says in the part of its state that `view` shows. -/
structure Mirrors (reg' : Registry τ) (reg : Registry σ) (view : τ → σ) : Prop where
  lookup : reg'.lookup? = reg.lookup?
  typeName : reg'.typeName? = reg.typeName?
  nickname : reg'.nickname? = reg.nickname?
  parent : reg'.parent? = reg.parent?
  isAbstract : reg'.isAbstract = reg.isAbstract
  subtypes : reg'.subtypes = reg.subtypes
  traits : reg'.traits? = reg.traits?
  members : reg'.members? = reg.members?
  size : reg'.size = reg.size
  instantiate : ∀ t state,
    (reg'.instantiate t state).map id view = reg.instantiate t (view state)
  release : ∀ object state, view (reg'.release object state) = reg.release object (view state)
  description : ∀ object state,
    reg'.description? object state = reg.description? object (view state)
  parameters : ∀ object state, reg'.parameters object state = reg.parameters object (view state)
  startUp : ∀ state, (reg'.startUp state).map id view = reg.startUp (view state)
  tearDown : ∀ state, view (reg'.tearDown state) = reg.tearDown (view state)

namespace Mirrors

/-! ## Questions about types -/

theorem category (h : reg'.Mirrors reg view) (rootNames : List String) (t : TypeHandle)
    (name : String) : reg'.category rootNames t name = reg.category rootNames t name := by
  have hwalk : ∀ roots fuel visited next,
      reg'.categoryFrom? roots fuel visited next = reg.categoryFrom? roots fuel visited next := by
    intro roots fuel
    induction fuel with
    | zero => exact fun _ _ => rfl
    | succ fuel ih =>
      intro visited next
      cases next with
      | none => rfl
      | some u =>
        simp only [categoryFrom?, tabledCategory?, h.typeName, h.parent, ih]
  simp only [Registry.category, ancestorCategory?, roots, h.lookup, h.size, h.parent, hwalk]

theorem classify (h : reg'.Mirrors reg view) : reg'.classify = reg.classify := by
  have hkind : reg'.kindOf = reg.kindOf := by
    funext t
    rw [kindOf, kindOf, h.traits]
  funext spec
  rw [Registry.classify, Registry.classify, hkind, h.typeName]

theorem resolveEnums (h : reg'.Mirrors reg view) (sentinel : String) (limit : Option Nat)
    (names : List String) :
    reg'.resolveEnums sentinel limit names = reg.resolveEnums sentinel limit names := by
  induction names with
  | nil => rfl
  | cons name names ih =>
    simp only [Registry.resolveEnums, resolveEnum, rawMembers?, h.lookup, h.traits, h.members, ih]

/-! ## Entry points -/

theorem inspect (h : reg'.Mirrors reg view) (rootNames : List String) (limit : Option Nat)
    (t : TypeHandle) (name : String) (state : τ) :
    (reg'.inspect rootNames limit t name state).map id view =
      reg.inspect rootNames limit t name (view state) := by
  have hmade := h.instantiate t state
  rw [Registry.inspect, Registry.inspect, ← hmade]
  rcases reg'.instantiate t state with ⟨_ | object, state'⟩
  · rfl
  · simp only [Prod.map, id, describeOperation, h.parameters, h.description, h.category, h.classify,
      h.release]

theorem collect (h : reg'.Mirrors reg view) (s : Settings) (found : Nat) (ts : List TypeHandle)
    (state : τ) :
    (reg'.collect s found ts state).map id view = reg.collect s found ts (view state) := by
  induction ts generalizing found state with
  | nil => rfl
  | cons t ts ih =>
    rw [Registry.collect, Registry.collect, h.isAbstract, h.nickname]
    split
    · exact ih found state
    · split
      · exact ih found state
      · next name _ =>
        split
        · rfl
        · rw [← h.inspect]
          rcases reg'.inspect s.rootTypes s.limits.arguments t name state with ⟨e | _ | op, state'⟩
          · rfl
          · exact ih found state'
          · simp only [Prod.map, id, ← ih]

theorem operations (h : reg'.Mirrors reg view) (s : Settings) (state : τ) :
    (reg'.operations s state).map id view = reg.operations s (view state) := by
  rw [Registry.operations, Registry.operations, h.lookup, h.subtypes]
  cases reg.lookup? s.baseType with
  | none => rfl
  | some base =>
    simp only [← h.collect]
    rfl

theorem catalog (h : reg'.Mirrors reg view) (s : Settings) (state : τ) :
    (reg'.catalog s state).map id view = reg.catalog s (view state) := by
  rw [Registry.catalog, Registry.catalog, ← h.operations]
  rcases reg'.operations s state with ⟨e | ops, state'⟩
  · rfl
  · simp only [Prod.map, id, h.resolveEnums]

theorem checked {α : Type} (s : Settings) {run : σ → Except Failure α × σ}
    {run' : τ → Except Failure α × τ}
    (hrun : ∀ state, (run' state).map id view = run (view state)) (state : τ) :
    (Registry.checked s run' state).map id view = Registry.checked s run (view state) := by
  rw [Registry.checked, Registry.checked]
  split
  · rfl
  · exact hrun state

theorem discover (h : reg'.Mirrors reg view) (s : Settings) (state : τ) :
    (reg'.discover s state).map id view = reg.discover s (view state) :=
  checked s (h.catalog s) state

theorem afterQuery (h : reg'.Mirrors reg view) (state : τ) (q : Query) :
    view (reg'.afterQuery state q) = reg.afterQuery (view state) q := by
  cases q with
  | catalog s => exact congrArg Prod.snd (h.discover s state)
  | operations s => exact congrArg Prod.snd (checked s (h.operations s) state)
  | enums s names =>
    have hrun : ∀ state,
        (reg'.resolveEnums s.sentinel s.limits.enumMembers names, state).map id view =
          (reg.resolveEnums s.sentinel s.limits.enumMembers names, view state) := by
      intro state
      rw [h.resolveEnums]
      rfl
    exact congrArg Prod.snd (checked s hrun state)
  | inspect rootNames limit t name =>
    exact congrArg Prod.snd (h.inspect rootNames limit t name state)

end Mirrors

end Registry

/-! ## Worlds -/

namespace World

variable {σ τ : Type} {reg : Registry σ} {reg' : Registry τ} {view : τ → σ}

/-- What is left of a world when its state is looked at through `view`. -/
def map (view : τ → σ) (w : World τ) : World σ := ⟨w.lifecycle, view w.state⟩

theorem map_start (h : reg'.Mirrors reg view) (w : World τ) :
    (w.start reg').map id (map view) = (w.map view).start reg := by
  have hup := h.startUp w.state
  obtain ⟨hs, hstart⟩ | ⟨hs, outcome, ho, hstart⟩ | ⟨hs, ho, hstart⟩ := w.start_cases reg'
  · rw [hstart, start_of_isShutDown (w := w.map view) hs]
    rfl
  · rw [hstart]
    simp [start, map, hs, ho]
  · rw [hstart]
    simp [start, map, hs, ho, ← hup]

theorem map_stop (h : reg'.Mirrors reg view) (w : World τ) :
    (w.stop reg').map view = (w.map view).stop reg := by
  cases hs : w.lifecycle.isShutDown with
  | true => simp [stop, map, hs]
  | false => simp [stop, map, hs, h.tearDown]

theorem map_introspect (h : reg'.Mirrors reg view) (s : Settings) (w : World τ) :
    (w.introspect reg' s).map id (map view) = (w.map view).introspect reg s := by
  rw [introspect, introspect]
  cases s.fault? with
  | some fault => rfl
  | none =>
    simp only [started, ← map_start h]
    rcases w.start reg' with ⟨_ | reason, w'⟩
    · simp only [Prod.map, id, map, ← h.discover]
    · rfl

end World

end OpCatalog
