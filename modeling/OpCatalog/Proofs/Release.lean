import OpCatalog.Proofs.History

/-!
# Release of objects

An inspection releases the object that it makes, so no discovery leaves an object behind and none
takes away one that was live before. The argument needs fresh handles: the release of an object
whose handle was taken already would drop the other one, too.
-/
namespace OpCatalog

namespace Process

variable {p p' p'' : Process} {t : TypeHandle}

/-- The later process has the same live objects, and has only gone on counting. -/
structure Restores (p p' : Process) : Prop where
  le : p.instantiations ≤ p'.instantiations
  numbered : p.Numbered → p'.Numbered
  same : p.Numbered → p'.instantiations < capacity →
    p' = { p with next := p'.next, instantiations := p'.instantiations }

theorem Restores.refl (p : Process) : p.Restores p := ⟨Nat.le_refl _, id, fun _ _ => rfl⟩

theorem Restores.trans (h : p.Restores p') (h' : p'.Restores p'') : p.Restores p'' where
  le := Nat.le_trans h.le h'.le
  numbered := fun hp => h'.numbered (h.numbered hp)
  same := by
    intro hp hfew
    have hfirst := h.same hp (Nat.lt_of_le_of_lt h'.le hfew)
    have hsecond := h'.same (h.numbered hp) hfew
    rw [hfirst] at hsecond
    exact hsecond

/-- Nothing is left of an object that is released as soon as it has been created. -/
theorem restores_release_create (p : Process) (t : TypeHandle) :
    p.Restores ((p.create t).2.release (p.create t).1) where
  le := Nat.le_succ p.instantiations
  numbered := fun hp => (hp.create t).release _
  same := by
    intro hp hfew
    have hlt : p.instantiations < capacity := Nat.lt_of_succ_lt hfew
    have hkept : p.live.filter (·.1 != p.next) = p.live := by
      rw [List.filter_eq_self]
      intro entry hentry
      simpa using hp.next_ne hlt hentry
    simp [release, create, hkept]

end Process

namespace Forest

theorem inspect_eq_of_not_isInstantiable {f : Forest} {t : TypeHandle}
    (h : ¬f.isInstantiable t) (rootNames : List String) (limit : Option Nat) (name : String)
    (p : Process) : f.registry.inspect rootNames limit t name p = (.ok none, p) := by
  have hobject : f.registry.instantiate t p = (none, p) := if_neg h
  simp only [Registry.inspect, hobject]

theorem inspect_snd_of_isInstantiable {f : Forest} {t : TypeHandle} (h : f.isInstantiable t)
    (rootNames : List String) (limit : Option Nat) (name : String) (p : Process) :
    (f.registry.inspect rootNames limit t name p).2 = (p.create t).2.release (p.create t).1 := by
  have hobject : f.registry.instantiate t p = (some (p.create t).1, (p.create t).2) := if_pos h
  simp only [Registry.inspect, hobject]
  rfl

/-- One inspection restores the process, whether it finds an operation, skips the type or fails. -/
theorem follows_restores (f : Forest) : f.registry.Follows Process.Restores where
  refl := Process.Restores.refl
  trans := Process.Restores.trans
  inspect := by
    intro rootNames limit t name p
    by_cases hi : f.isInstantiable t
    · rw [inspect_snd_of_isInstantiable hi]
      exact p.restores_release_create t
    · rw [inspect_eq_of_not_isInstantiable hi]
      exact Process.Restores.refl p

end Forest

namespace Host

variable {h : Host}

theorem numbered_start (f : Forest) {w : World Process} (hw : w.state.Numbered) :
    (w.start f.registry).2.state.Numbered := by
  obtain ⟨-, hstart⟩ | ⟨-, _, -, hstart⟩ | ⟨-, -, hstart⟩ := w.start_cases f.registry
  · rw [hstart]
    exact hw
  · rw [hstart]
    exact hw
  · rw [hstart]
    exact hw

theorem numbered_act (hn : h.world.state.Numbered) (a : Action) :
    (h.act a).world.state.Numbered := by
  cases a with
  | register d =>
    rw [act, register]
    cases h.forest.register d with
    | error e => exact hn
    | ok r => exact hn
  | instantiate t =>
    simp only [act, onProcess, Forest.registry]
    split
    · exact hn.create t
    · exact hn
  | release object => exact hn.release object
  | introspect s =>
    simp only [act, World.introspect_snd]
    have hstart := numbered_start h.forest hn
    split
    · exact hn
    · split
      · exact (h.forest.follows_restores.afterQuery _ _).numbered hstart
      · exact hstart
  | ask q => exact (h.forest.follows_restores.afterQuery h.world.state q).numbered hn
  | start => exact numbered_start h.forest hn
  | stop =>
    simp only [act, World.stop]
    split
    · exact hn
    · exact hn
  | failStart reason => exact hn

theorem Reachable.numbered (hr : h.Reachable) : h.world.state.Numbered := by
  induction hr with
  | empty => exact Process.numbered_empty
  | standard => exact Process.numbered_empty
  | act a _ ih => exact numbered_act ih a

/-- A start leaves its outcome and one more attempt. -/
theorem start_snd (f : Forest) (w : World Process) :
    ∃ outcome starts, (w.start f.registry).2 =
      ⟨{ w.lifecycle with outcome := outcome }, { w.state with starts := starts }⟩ := by
  obtain ⟨-, hstart⟩ | ⟨-, _, -, hstart⟩ | ⟨-, -, hstart⟩ := w.start_cases f.registry
  · exact ⟨w.lifecycle.outcome, w.state.starts, by rw [hstart]⟩
  · exact ⟨w.lifecycle.outcome, w.state.starts, by rw [hstart]⟩
  · exact ⟨some w.state.start.1, w.state.starts + 1, by rw [hstart]; rfl⟩

/-- The hosts differ in nothing but the outcome of the first start, the counts of starts and
objects, and the handle of the next object. -/
def DiffersInCounts (h h' : Host) : Prop :=
  ∃ outcome next instantiations starts, h' =
    { h with
      world :=
        ⟨{ h.world.lifecycle with outcome := outcome },
          { h.world.state with
            next := next, instantiations := instantiations, starts := starts }⟩ }

theorem differsInCounts_introspect (hn : h.world.state.Numbered) (s : Settings)
    (few : (h.act (.introspect s)).world.state.instantiations < Process.capacity) :
    h.DiffersInCounts (h.act (.introspect s)) := by
  obtain ⟨outcome, starts, hstart⟩ := start_snd h.forest h.world
  have hstarted := numbered_start h.forest hn
  have hrun := h.forest.follows_restores.afterQuery
    (h.world.start h.forest.registry).2.state (.catalog s)
  simp only [act, World.introspect_snd] at few ⊢
  by_cases hs : s.fault?.isSome
  · rw [if_pos hs]
    exact ⟨_, _, _, _, rfl⟩
  · rw [if_neg hs] at few ⊢
    by_cases ho : (h.world.start h.forest.registry).1 = .started
    · rw [if_pos ho] at few ⊢
      rw [hrun.same hstarted few, hstart]
      exact ⟨_, _, _, _, rfl⟩
    · rw [if_neg ho, hstart]
      exact ⟨_, _, _, _, rfl⟩

theorem differsInCounts_ask (hn : h.world.state.Numbered) (q : Query)
    (few : (h.act (.ask q)).world.state.instantiations < Process.capacity) :
    h.DiffersInCounts (h.act (.ask q)) := by
  have hrun := h.forest.follows_restores.afterQuery h.world.state q
  simp only [act, onProcess] at few ⊢
  rw [hrun.same hn few]
  exact ⟨_, _, _, _, rfl⟩

/-- After a discovery, successful or not, the types and the live objects are what they were before.
Only the counts of objects and of starts, the next handle and the outcome of the first start may
have changed. -/
theorem act_of_discovers (reachable : h.Reachable) {a : Action} (discovers : a.discovers)
    (few : (h.act a).world.state.instantiations < Process.capacity) :
    (h.act a).forest = h.forest ∧ (h.act a).world.state.live = h.world.state.live ∧
      h.DiffersInCounts (h.act a) := by
  have hcounts : h.DiffersInCounts (h.act a) := by
    cases a with
    | introspect s => exact differsInCounts_introspect reachable.numbered s few
    | ask q => exact differsInCounts_ask reachable.numbered q few
    | _ => cases discovers
  refine ⟨?_, ?_, hcounts⟩
  · obtain ⟨_, _, _, _, heq⟩ := hcounts
    rw [heq]
  · obtain ⟨_, _, _, _, heq⟩ := hcounts
    rw [heq]

/-- Two operations, the second of which has two parameters. -/
def crowdedTypes : List TypeDefinition :=
  [((TypeDefinition.named "VipsBlack").withParent "VipsOperation").withNickname "black",
    ((TypeDefinition.named "VipsCopy").withParent "VipsBlack").withNickname "copy"
      |>.addArgument { name := "in", typeName := "VipsImage", flags := ParamFlag.requiredInput }
      |>.addArgument { name := "out", typeName := "VipsImage", flags := ParamFlag.requiredOutput }]

/-- A host with both operations and a live object of the first. -/
def crowded : Host :=
  (crowdedTypes.map Action.register ++ [Action.instantiate ⟨28⟩]).foldl act standard

/-- The second operation has too many parameters for the limit, and its object is gone when the
discovery fails, while the object that was live before stays. -/
theorem act_of_discovers_crowded :
    (crowded.world.introspect crowded.forest.registry { limits := { arguments := some 1 } }).1 =
        .error (.limitExceeded .arguments "copy" 1) ∧
      crowded.world.state.live = [(⟨1⟩, ⟨28⟩)] ∧
      (crowded.act (.introspect { limits := { arguments := some 1 } })).world.state.live =
        [(⟨1⟩, ⟨28⟩)] ∧
      (crowded.act (.introspect { limits := { arguments := some 1 } })).world.state.instantiations =
        3 := by
  have reachable : crowded.Reachable := Reachable.standard.acts _
  have hcount : (crowded.act
      (.introspect { limits := { arguments := some 1 } })).world.state.instantiations = 3 := by rfl
  have hkept := act_of_discovers reachable (a := .introspect { limits := { arguments := some 1 } })
    rfl (by rw [hcount]; decide)
  refine ⟨rfl, rfl, ?_, hcount⟩
  rw [hkept.2.1]
  rfl

end Host

end OpCatalog
