import OpCatalog.Proofs.History
import OpCatalog.Proofs.Registrations
import OpCatalog.Proofs.Sessions

/-!
# The stages of an introspection

An introspection looks at the settings, asks for the runtime, looks up the base type and only then
begins to make objects. Each stage has a failure of its own and leaves its own trace;
`introspect_stages` says which, in every state that a host can come to.
-/
namespace OpCatalog

namespace Host

variable {h : Host} {s : Settings}

/-- Why the runtime of a host does not come up: it has been shut down, or the one attempt to start
it has failed or would fail now. -/
def refusal? (h : Host) : Option String :=
  if h.world.lifecycle.isShutDown then some World.afterShutdown
  else match h.world.lifecycle.outcome with
    | some outcome => outcome.refusal?
    | none => h.world.state.startFault

/-- The host after its runtime has been asked for: a first attempt is counted, and its outcome
recorded. -/
def asked (h : Host) : Host :=
  if h.world.lifecycle.isShutDown || h.world.lifecycle.isInitialized then h
  else
    { h with
      world :=
        { lifecycle := { h.world.lifecycle with outcome := some h.world.state.start.1 }
          state := { h.world.state with starts := h.world.state.starts + 1 } } }

/-- What an introspection answers, and the host that it leaves. -/
def introspected (h : Host) (s : Settings) : Except Failure Catalog × Host :=
  ((h.world.introspect h.forest.registry s).1, h.act (.introspect s))

theorem refusal?_start (p : Process) : p.start.1.refusal? = p.startFault := by
  rw [Process.start]
  cases p.startFault with
  | none => rfl
  | some reason => rfl

theorem start_eq (h : Host) :
    (h.world.start h.forest.registry).1.refusal? = h.refusal? ∧
      { h with world := (h.world.start h.forest.registry).2 } = h.asked := by
  rw [refusal?, asked, Lifecycle.isInitialized]
  obtain ⟨hs, hstart⟩ | ⟨hs, outcome, ho, hstart⟩ | ⟨hs, ho, hstart⟩ :=
    h.world.start_cases h.forest.registry
  · rw [hstart, hs]
    exact ⟨rfl, rfl⟩
  · rw [hstart, hs, ho]
    exact ⟨rfl, rfl⟩
  · rw [hstart, hs, ho]
    exact ⟨refusal?_start h.world.state, rfl⟩

theorem start_of_refusal?_eq_none (up : h.refusal? = none) :
    (h.world.start h.forest.registry).1 = .started := by
  rw [← h.start_eq.1] at up
  cases ho : (h.world.start h.forest.registry).1 with
  | started => rfl
  | failed reason => simp [ho, StartOutcome.refusal?] at up

theorem start_of_refusal?_eq_some {reason : String} (down : h.refusal? = some reason) :
    (h.world.start h.forest.registry).1 = .failed reason := by
  rw [← h.start_eq.1] at down
  cases ho : (h.world.start h.forest.registry).1 with
  | started => simp [ho, StartOutcome.refusal?] at down
  | failed reason' => simpa [ho, StartOutcome.refusal?] using down

/-- Asking for the runtime creates no object. -/
theorem asked_eq (h : Host) :
    h.asked.forest = h.forest ∧
      h.asked.world.state = { h.world.state with starts := h.asked.world.state.starts } := by
  rw [asked]
  split
  · exact ⟨rfl, rfl⟩
  · exact ⟨rfl, rfl⟩

theorem introspected_of_fault {fault : Settings.Fault} (invalid : s.fault? = some fault) :
    h.introspected s = (.error (.invalidSettings fault), h) := by
  simp only [introspected, act, World.introspect, invalid]

theorem introspected_of_refusal {reason : String} (valid : s.fault? = none)
    (down : h.refusal? = some reason) :
    h.introspected s = (.error (.runtimeStart reason), h.asked) := by
  have hfailed := start_of_refusal?_eq_some down
  rw [introspected, act, World.introspect_of_valid valid, World.started, ← h.start_eq.2]
  rcases hw : h.world.start h.forest.registry with ⟨outcome, w⟩
  rw [hw] at hfailed
  obtain rfl : outcome = .failed reason := hfailed
  rfl

theorem introspected_fst_of_up (valid : s.fault? = none) (up : h.refusal? = none) :
    (h.introspected s).1 =
      (h.forest.registry.catalog s (h.world.start h.forest.registry).2.state).1 :=
  World.introspect_of_started valid (start_of_refusal?_eq_none up)

theorem introspected_of_unknown (valid : s.fault? = none) (up : h.refusal? = none)
    (unknown : h.forest.lookup? s.baseType = none) :
    h.introspected s = (.error (.unknownBaseType s.baseType), h.asked) := by
  have hstarted := start_of_refusal?_eq_none up
  have hlookup : h.forest.registry.lookup? s.baseType = none := unknown
  have hcatalog : ∀ p,
      h.forest.registry.catalog s p = (.error (.unknownBaseType s.baseType), p) := by
    intro p
    simp only [Registry.catalog, Registry.operations, hlookup]
  rw [introspected, act, World.introspect_of_valid valid, World.started, ← h.start_eq.2]
  rcases hw : h.world.start h.forest.registry with ⟨outcome, w⟩
  rw [hw] at hstarted
  obtain rfl : outcome = .started := hstarted
  simp only [hcatalog]

/-- Once the base type is found, only a limit can be in the way of a catalogue. -/
theorem introspected_of_registered (valid : s.fault? = none) (up : h.refusal? = none)
    {base : TypeHandle} (registered : h.forest.lookup? s.baseType = some base) :
    (∃ c, (h.introspected s).1 = .ok c) ∨
      ∃ e, (h.introspected s).1 = .error e ∧ e.NamesLimit s := by
  rw [introspected_fst_of_up valid up]
  cases hc : (h.forest.registry.catalog s (h.world.start h.forest.registry).2.state).1 with
  | ok c => exact Or.inl ⟨c, rfl⟩
  | error e =>
    obtain ⟨hnone, -⟩ | ⟨-, hlimit⟩ := Registry.error_of_catalog hc
    · have hlookup : h.forest.registry.lookup? s.baseType = some base := registered
      rw [hlookup] at hnone
      cases hnone
    · exact Or.inr ⟨e, rfl, hlimit⟩

theorem not_namesLimit_of_unlimited (unlimited : s.limits = {}) (e : Failure) :
    ¬e.NamesLimit s := by
  rintro ⟨resource, context, limit, -, hlimit⟩
  rw [unlimited] at hlimit
  cases resource <;> cases hlimit

/-- Faulty settings are refused before anything is done. With valid ones a runtime that does not
come up is the failure, then a base type that is not registered, and up to there at most a first
start has left its record. With the base type found, the walk below it and all walks upward come to
an end, and the outcome is a catalogue or a limit that the settings set; without limits it is a
catalogue. -/
theorem introspect_stages (reachable : h.Reachable) (s : Settings) :
    (∀ fault, s.fault? = some fault →
      h.introspected s = (.error (.invalidSettings fault), h)) ∧
    (∀ reason, s.fault? = none → h.refusal? = some reason →
      h.introspected s = (.error (.runtimeStart reason), h.asked)) ∧
    (s.fault? = none → h.refusal? = none → h.forest.lookup? s.baseType = none →
      h.introspected s = (.error (.unknownBaseType s.baseType), h.asked)) ∧
    (∀ base, s.fault? = none → h.refusal? = none → h.forest.lookup? s.baseType = some base →
      h.forest.Preorder [base] (h.forest.subtypes base) ∧
      (WellFounded fun p t => h.forest.registry.parent? t = some p) ∧
      ((∃ c, (h.introspected s).1 = .ok c) ∨
        ∃ e, (h.introspected s).1 = .error e ∧ e.NamesLimit s) ∧
      (s.limits = {} → ∃ c, (h.introspected s).1 = .ok c)) ∧
    h.asked.forest = h.forest ∧
      h.asked.world.state = { h.world.state with starts := h.asked.world.state.starts } := by
  refine ⟨fun _ => introspected_of_fault, fun _ => introspected_of_refusal,
    introspected_of_unknown, ?_, h.asked_eq⟩
  intro base valid up registered
  have hf := reachable.grown.wellFormed
  have hbase := hf.isSome_entry?_of_lookup? registered
  have houtcome := introspected_of_registered valid up registered
  refine ⟨hf.preorder_subtypes hbase, hf.wellFounded_parent?, houtcome, ?_⟩
  intro unlimited
  rcases houtcome with hok | ⟨e, -, hlimit⟩
  · exact hok
  · exact absurd hlimit (not_namesLimit_of_unlimited unlimited e)

/-- A host whose foreign side cannot start. -/
def mute : Host := standard.act (.failStart "no display")

/-- A host that has been started and shut down. -/
def closed : Host := (standard.act .start).act .stop

/-- Each of the stages. The settings without a base type are refused also where the runtime would
not come up, and the runtime also where the base type is not registered. -/
theorem introspect_stages_mute :
    mute.introspected { baseType := " " } = (.error (.invalidSettings .emptyBaseType), mute) ∧
      mute.introspected { baseType := "Gone" } = (.error (.runtimeStart "no display"), mute.asked) ∧
      mute.asked.world.state.starts = 1 ∧
      closed.introspected {} = (.error (.runtimeStart World.afterShutdown), closed) ∧
      empty.introspected {} = (.error (.unknownBaseType "VipsOperation"), empty.asked) ∧
      empty.asked.world.state.instantiations = 0 ∧
      ∃ c, standard.introspected {} = (.ok c, standard.asked) := by
  have hmute := introspect_stages (.act (.failStart "no display") .standard)
  have hclosed := introspect_stages (.act .stop (.act .start .standard)) {}
  have hempty := introspect_stages Reachable.empty {}
  have hstandard := introspect_stages Reachable.standard {}
  refine ⟨(hmute _).1 _ rfl, (hmute _).2.1 _ rfl rfl, rfl, hclosed.2.1 _ rfl rfl,
    hempty.2.2.1 rfl rfl rfl, rfl, ?_⟩
  obtain ⟨-, -, -, hok⟩ := hstandard.2.2.2.1 ⟨3⟩ rfl rfl rfl
  obtain ⟨c, hc⟩ := hok rfl
  exact ⟨c, Prod.ext hc rfl⟩

end Host

end OpCatalog
