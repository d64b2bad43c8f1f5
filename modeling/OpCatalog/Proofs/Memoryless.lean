import OpCatalog.Proofs.Release
import OpCatalog.Proofs.Completeness

/-!
# Discovery without memory

A discovery reads descriptions and parameters off objects that it has just made, through a table
that earlier discoveries and users have worked on. If no inspection finds anything else for that,
no discovery does; and the objects of a forest say what their types say, however many there have
been before.
-/
namespace OpCatalog

namespace Registry

variable {σ : Type} {reg : Registry σ}

/-- What an inspection finds does not depend on the state that it starts from. -/
def Memoryless (reg : Registry σ) : Prop :=
  ∀ rootNames limit t name state state',
    (reg.inspect rootNames limit t name state).1 = (reg.inspect rootNames limit t name state').1

theorem Memoryless.collect (h : reg.Memoryless) (s : Settings) (found : Nat)
    (ts : List TypeHandle) (state state' : σ) :
    (reg.collect s found ts state).1 = (reg.collect s found ts state').1 := by
  -- The states drift apart on the way, and only what is found stays the same.
  induction ts generalizing found state state' with
  | nil => rfl
  | cons t ts ih =>
    rw [collect_cons, collect_cons]
    cases reg.operationName? t with
    | none => exact ih found state state'
    | some name =>
      simp only
      split
      · rfl
      · have hfound := h s.rootTypes s.limits.arguments t name state state'
        rcases hi : reg.inspect s.rootTypes s.limits.arguments t name state with ⟨result, after⟩
        rcases hi' : reg.inspect s.rootTypes s.limits.arguments t name state' with
          ⟨result', after'⟩
        rw [hi, hi'] at hfound
        obtain rfl : result = result' := hfound
        rcases result with e | _ | op
        · rfl
        · exact ih found after after'
        · exact congrArg (Except.map (op :: ·)) (ih (found + 1) after after')

theorem Memoryless.operations (h : reg.Memoryless) (s : Settings) (state state' : σ) :
    (reg.operations s state).1 = (reg.operations s state').1 := by
  rw [Registry.operations, Registry.operations]
  cases reg.lookup? s.baseType with
  | none => rfl
  | some base =>
    exact congrArg (Except.map s.arrange) (h.collect s 0 (reg.subtypes base) state state')

theorem Memoryless.catalog (h : reg.Memoryless) (s : Settings) (state state' : σ) :
    (reg.catalog s state).1 = (reg.catalog s state').1 := by
  have hops := h.operations s state state'
  rw [Registry.catalog, Registry.catalog]
  rcases ho : reg.operations s state with ⟨result, after⟩
  rcases ho' : reg.operations s state' with ⟨result', after'⟩
  rw [ho, ho'] at hops
  obtain rfl : result = result' := hops
  cases result with
  | error e => rfl
  | ok ops => rfl

end Registry

theorem Forest.memoryless_registry (f : Forest) : f.registry.Memoryless := by
  intro rootNames limit t name p p'
  rw [f.inspect_registry, f.inspect_registry]

namespace Host

variable {h h' : Host}

/-- Hosts with the same types, both of which come up, give the same catalogue or fail alike under
the same settings, whatever else has been done to either of them. -/
theorem introspect_eq_of_forest_eq (same : h.forest = h'.forest)
    (started : (h.world.start h.forest.registry).1 = .started)
    (started' : (h'.world.start h'.forest.registry).1 = .started) (s : Settings) :
    (h.world.introspect h.forest.registry s).1 = (h'.world.introspect h'.forest.registry s).1 := by
  cases hf : s.fault? with
  | some fault => simp only [World.introspect, hf]
  | none =>
    rw [World.introspect_of_started hf started, World.introspect_of_started hf started', same]
    exact h'.forest.memoryless_registry.catalog s _ _

/-- A host that has seen an object come and go, another that stays, a discovery that was cut
short, one that was not, and two inspections. -/
def seasoned : Host :=
  [.release ⟨1⟩, .instantiate ⟨29⟩, .introspect { limits := { arguments := some 1 } },
    .introspect {}, .ask (.inspect [] none ⟨29⟩ "copy"),
    .ask (.inspect [] (some 1) ⟨29⟩ "copy")].foldl act crowded

/-- A host with the same types that nothing has been done to. -/
def unseasoned : Host := (standard.registerAll crowdedTypes).2

/-- The two hosts agree, on a catalogue as on a failure. -/
theorem introspect_eq_of_forest_eq_seasoned :
    seasoned.world.state.live = [(⟨2⟩, ⟨29⟩)] ∧ seasoned.world.state.instantiations = 8 ∧
      unseasoned.world.state.instantiations = 0 ∧
      (seasoned.world.introspect seasoned.forest.registry {}).1 =
        (unseasoned.world.introspect unseasoned.forest.registry {}).1 ∧
      (seasoned.world.introspect seasoned.forest.registry
          { limits := { operations := some 1 } }).1 =
        .error (.limitExceeded .operations "VipsOperation" 1) := by
  have hsame : ∀ s, (seasoned.world.introspect seasoned.forest.registry s).1 =
      (unseasoned.world.introspect unseasoned.forest.registry s).1 :=
    introspect_eq_of_forest_eq rfl rfl rfl
  refine ⟨rfl, rfl, rfl, hsame {}, ?_⟩
  rw [hsame]
  rfl

end Host

end OpCatalog
