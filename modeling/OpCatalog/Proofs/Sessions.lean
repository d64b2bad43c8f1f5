import Mathlib.Data.List.Induction
import OpCatalog.InMemory.Host
import OpCatalog.Proofs.Faults
import OpCatalog.Proofs.Footprint

/-!
# Sessions

Any number of backends may share one runtime, and any number of handles may be held on it. The
calls that are made through them, in whatever order, start the runtime up at most once and tear it
down at most once, and every later start hears of the first one or of the end. Which call starts the
runtime up and which tears it down is read off the calls: the first that wants it up, and the first
shutdown by way of a handle that is held then.
-/
namespace OpCatalog

variable {ι σ : Type}

/-- What is done to the foreign side of a backend as a whole. -/
inductive Upkeep (ι : Type) where
  | startUp (backend : ι) (outcome : StartOutcome)
  | tearDown (backend : ι)
  deriving DecidableEq

namespace Registry

/-- The registry of a backend, with a record of its upkeep that the backends share. -/
def recorded (reg : Registry σ) (b : ι) : Registry (σ × List (Upkeep ι)) where
  lookup? := reg.lookup?
  typeName? := reg.typeName?
  nickname? := reg.nickname?
  parent? := reg.parent?
  isAbstract := reg.isAbstract
  subtypes := reg.subtypes
  traits? := reg.traits?
  members? := reg.members?
  instantiate t p := ((reg.instantiate t p.1).1, (reg.instantiate t p.1).2, p.2)
  release object p := (reg.release object p.1, p.2)
  description? object p := reg.description? object p.1
  parameters object p := reg.parameters object p.1
  startUp p :=
    ((reg.startUp p.1).1, (reg.startUp p.1).2, p.2 ++ [.startUp b (reg.startUp p.1).1])
  tearDown p := (reg.tearDown p.1, p.2 ++ [.tearDown b])
  size := reg.size
  parents_finite := reg.parents_finite

/-- A discovery is no upkeep. -/
theorem follows_recorded (reg : Registry σ) (b : ι) :
    (reg.recorded b).Follows fun p p' => p'.2 = p.2 where
  refl := fun _ => rfl
  trans := fun h h' => h'.trans h
  inspect := by
    intro rootNames limit t name p
    simp only [inspect, recorded]
    cases (reg.instantiate t p.1).1 with
    | none => rfl
    | some object => rfl

end Registry

/-- Why the runtime is not up, if it is not. -/
def StartOutcome.refusal? : StartOutcome → Option String
  | .started => none
  | .failed reason => some reason

/-- A call on a runtime. A handle is given by its place among those that are held. -/
inductive Call (ι : Type) where
  | init (backend : ι)
  | introspect (backend : ι) (settings : Settings)
  | ask (handle : Nat) (q : Query)
  | shutdown (handle : Nat)
  | drop (handle : Nat)

namespace Call

/-- The backend that the call wants to be up. An introspection whose settings are at fault does
not come that far. -/
def starts? : Call ι → Option ι
  | .init b => some b
  | .introspect b settings => if settings.fault?.isSome then none else some b
  | _ => none

inductive Answer where
  | init (outcome : StartOutcome)
  | introspect (result : Except Failure Catalog)

/-- Why the runtime did not start, if that is what the answer says. -/
def Answer.refusal? : Answer → Option String
  | .init outcome => outcome.refusal?
  | .introspect (.error (.runtimeStart reason)) => some reason
  | .introspect _ => none

end Call

structure Session (ι σ : Type) where
  world : World (σ × List (Upkeep ι))
  /-- The backends of the handles that are held, the oldest first. -/
  held : List ι := []

namespace Session

/-- A runtime that nothing has been done to. -/
def fresh (state : σ) : Session ι σ where
  world := { lifecycle := {}, state := (state, []) }

def record (s : Session ι σ) : List (Upkeep ι) := s.world.state.2

variable (backends : ι → Registry σ)

/-- The answer to a call, if it is one that can fail. -/
def answer? (s : Session ι σ) : Call ι → Option Call.Answer
  | .init b => some (.init (s.world.start ((backends b).recorded b)).1)
  | .introspect b settings =>
    some (.introspect (s.world.introspect ((backends b).recorded b) settings).1)
  | _ => none

/-- The session after a call. A handle comes of a start that succeeds, and goes when it is
dropped or when it is used to shut the runtime down. -/
def after (s : Session ι σ) : Call ι → Session ι σ
  | .init b =>
    let (outcome, world) := s.world.start ((backends b).recorded b)
    { world := world, held := if outcome = .started then s.held ++ [b] else s.held }
  | .introspect b settings =>
    { s with world := (s.world.introspect ((backends b).recorded b) settings).2 }
  | .ask handle q =>
    match s.held[handle]? with
    | none => s
    | some b =>
      let state := ((backends b).recorded b).afterQuery s.world.state q
      { s with world := { s.world with state := state } }
  | .shutdown handle =>
    match s.held[handle]? with
    | none => s
    | some b =>
      { world := s.world.stop ((backends b).recorded b), held := s.held.eraseIdx handle }
  | .drop handle => { s with held := s.held.eraseIdx handle }

def run (state : σ) (calls : List (Call ι)) : Session ι σ :=
  calls.foldl (after backends) (fresh state)

theorem run_append (state : σ) (calls later : List (Call ι)) :
    run backends state (calls ++ later) = later.foldl (after backends) (run backends state calls) :=
  List.foldl_append

theorem run_concat (state : σ) (calls : List (Call ι)) (call : Call ι) :
    run backends state (calls ++ [call]) = (run backends state calls).after backends call :=
  run_append backends state calls [call]

/-- The backend of the handle that the call shuts the runtime down by, if that handle is held. -/
def stop? (s : Session ι σ) : Call ι → Option ι
  | .shutdown handle => s.held[handle]?
  | _ => none

/-- The backend of the first handle that is used for a shutdown while it is held. -/
def firstStop? (s : Session ι σ) : List (Call ι) → Option ι
  | [] => none
  | call :: calls => (s.stop? call).or ((s.after backends call).firstStop? calls)

/-- What has come of the calls: `first` is the backend that was started up, with the outcome, and
`stopped` the one that was torn down. Each of them is named by the calls alone. -/
structure Orderly (state : σ) (calls : List (Call ι)) (first : Option (ι × StartOutcome))
    (stopped : Option ι) : Prop where
  first_eq : first.map Prod.fst = calls.findSome? Call.starts?
  stopped_eq : stopped = (fresh state).firstStop? backends calls
  record_eq : (run backends state calls).record =
    (first.map fun start => Upkeep.startUp start.1 start.2).toList ++
      (stopped.map Upkeep.tearDown).toList
  outcome_eq : (run backends state calls).world.lifecycle.outcome = first.map Prod.snd
  isShutDown_eq : (run backends state calls).world.lifecycle.isShutDown = stopped.isSome
  started_of_isShutDown : (run backends state calls).world.lifecycle.isShutDown = true →
    (run backends state calls).world.lifecycle.outcome = some .started
  started_of_held : (run backends state calls).held ≠ [] →
    (run backends state calls).world.lifecycle.outcome = some .started

/-! ## Shutdowns -/

section

variable {s : Session ι σ}

theorem firstStop?_append (calls later : List (Call ι)) :
    s.firstStop? backends (calls ++ later) =
      (s.firstStop? backends calls).or
        ((calls.foldl (after backends) s).firstStop? backends later) := by
  induction calls generalizing s with
  | nil => rfl
  | cons call calls ih => rw [List.cons_append, firstStop?, ih, firstStop?, Option.or_assoc]; rfl

theorem firstStop?_concat (state : σ) (calls : List (Call ι)) (call : Call ι) :
    (fresh state).firstStop? backends (calls ++ [call]) =
      ((fresh state).firstStop? backends calls).or ((run backends state calls).stop? call) := by
  rw [firstStop?_append, firstStop?, firstStop?, Option.or_none]
  rfl

theorem isSome_stop?_iff {call : Call ι} :
    (s.stop? call).isSome ↔ ∃ handle, call = .shutdown handle ∧ handle < s.held.length := by
  cases call with
  | shutdown handle => simp [stop?]
  | _ => simp [stop?]

/-- There is such a handle exactly if one of the calls is a shutdown by way of a handle that is
held then. -/
theorem isSome_firstStop?_iff {calls : List (Call ι)} :
    (s.firstStop? backends calls).isSome ↔
      ∃ before handle rest, calls = before ++ .shutdown handle :: rest ∧
        handle < (before.foldl (after backends) s).held.length := by
  induction calls generalizing s with
  | nil => simp [firstStop?]
  | cons call calls ih =>
    rw [firstStop?, Option.isSome_or, Bool.or_eq_true, isSome_stop?_iff, ih]
    constructor
    · rintro (⟨handle, rfl, held⟩ | ⟨before, handle, rest, rfl, held⟩)
      · exact ⟨[], handle, calls, rfl, held⟩
      · exact ⟨call :: before, handle, rest, rfl, held⟩
    · rintro ⟨before, handle, rest, heq, held⟩
      cases before with
      | nil =>
        obtain ⟨rfl, rfl⟩ := List.cons.inj heq
        exact Or.inl ⟨handle, rfl, held⟩
      | cons first before =>
        obtain ⟨rfl, rfl⟩ := List.cons.inj heq
        exact Or.inr ⟨before, handle, rest, rfl, held⟩

/-- Once a handle has been used for a shutdown, the runtime is down, and the handle is gone. -/
theorem after_shutdown {handle : Nat} (held : handle < s.held.length) :
    (s.after backends (.shutdown handle)).world.lifecycle.isShutDown ∧
      (s.after backends (.shutdown handle)).held = s.held.eraseIdx handle := by
  have hb := List.getElem?_eq_getElem held
  constructor
  · simp only [after, hb, World.stop]
    split
    · next shut => exact shut
    · rfl
  · simp only [after, hb]

end

/-! ## One call -/

variable {state : σ} {calls : List (Call ι)} {call : Call ι} {b : ι}
  {first : Option (ι × StartOutcome)} {stopped : Option ι}

/-- An introspection that is not refused starts the runtime, and what it does then is no upkeep. -/
theorem introspect_recorded (reg : Registry σ) (b : ι) {settings : Settings}
    (valid : settings.fault? = none) (w : World (σ × List (Upkeep ι))) :
    (Call.Answer.introspect (w.introspect (reg.recorded b) settings).1).refusal? =
        (w.start (reg.recorded b)).1.refusal? ∧
      (w.introspect (reg.recorded b) settings).2.lifecycle =
        (w.start (reg.recorded b)).2.lifecycle ∧
      (w.introspect (reg.recorded b) settings).2.state.2 =
        (w.start (reg.recorded b)).2.state.2 := by
  rw [World.introspect_of_valid valid, World.started]
  rcases w.start (reg.recorded b) with ⟨_ | reason, w'⟩
  · refine ⟨?_, rfl, (reg.follows_recorded b).catalog settings w'.state⟩
    cases hc : ((reg.recorded b).catalog settings w'.state).1 with
    | ok c => rfl
    | error e =>
      -- The runtime is up, so the discovery can fail for other reasons only.
      obtain ⟨-, rfl⟩ | ⟨-, resource, context, limit, rfl, -⟩ := Registry.error_of_catalog hc
      · rfl
      · rfl
  · exact ⟨rfl, rfl, rfl⟩

/-- A call that starts the runtime answers as the start does, and leaves what the start leaves. -/
theorem after_of_starts? (s : Session ι σ) (h : call.starts? = some b) :
    s.stop? call = none ∧
    (∃ answer, s.answer? backends call = some answer ∧
      answer.refusal? = (s.world.start ((backends b).recorded b)).1.refusal?) ∧
    (s.after backends call).world.lifecycle =
      (s.world.start ((backends b).recorded b)).2.lifecycle ∧
    (s.after backends call).record = (s.world.start ((backends b).recorded b)).2.state.2 ∧
    ((s.after backends call).held = s.held ∨
      (s.world.start ((backends b).recorded b)).1 = .started) := by
  cases call with
  | init b' =>
    obtain rfl : b' = b := by simpa [Call.starts?] using h
    refine ⟨rfl, ⟨_, rfl, rfl⟩, rfl, rfl, ?_⟩
    by_cases ho : (s.world.start ((backends b').recorded b')).1 = .started
    · exact Or.inr ho
    · exact Or.inl (by simp [after, ho])
  | introspect b' settings =>
    have hvalid : settings.fault? = none ∧ b' = b := by
      simpa [Call.starts?, Option.not_isSome_iff_eq_none] using h
    obtain ⟨valid, rfl⟩ := hvalid
    obtain ⟨hanswer, hlife, hrecord⟩ := introspect_recorded (backends b') b' valid s.world
    exact ⟨rfl, ⟨_, rfl, hanswer⟩, hlife, hrecord, Or.inl rfl⟩
  | _ => cases h

/-- Any other call leaves the runtime as it is, or shuts it down by way of a handle. -/
theorem after_of_not_starts? (s : Session ι σ) (h : call.starts? = none) :
    (s.stop? call = none ∧ (s.after backends call).world.lifecycle = s.world.lifecycle ∧
      (s.after backends call).record = s.record ∧
      (s.held = [] → (s.after backends call).held = [])) ∨
    ∃ b, s.stop? call = some b ∧ s.held ≠ [] ∧
      (s.after backends call).world = s.world.stop ((backends b).recorded b) := by
  cases call with
  | init b => cases h
  | introspect b settings =>
    have hfault : settings.fault?.isSome := by
      simpa [Call.starts?, Option.isSome_iff_ne_none] using h
    have hw : (s.after backends (.introspect b settings)).world = s.world := by
      rw [after, World.introspect_snd, if_pos hfault]
    exact Or.inl ⟨rfl, by rw [hw], by rw [record, hw]; rfl, id⟩
  | ask handle q =>
    rw [after]
    cases s.held[handle]? with
    | none => exact Or.inl ⟨rfl, rfl, rfl, id⟩
    | some b =>
      exact Or.inl ⟨rfl, rfl, ((backends b).follows_recorded b).afterQuery s.world.state q, id⟩
  | shutdown handle =>
    rw [after, stop?]
    cases hb : s.held[handle]? with
    | none => exact Or.inl ⟨rfl, rfl, rfl, id⟩
    | some b => exact Or.inr ⟨b, rfl, by rintro he; simp [he] at hb, rfl⟩
  | drop handle => exact Or.inl ⟨rfl, rfl, rfl, by intro he; simp [after, he]⟩

theorem orderly_nil (state : σ) : Orderly backends state [] none none where
  first_eq := rfl
  stopped_eq := rfl
  record_eq := rfl
  outcome_eq := rfl
  isShutDown_eq := rfl
  started_of_isShutDown := by
    intro h
    cases h
  started_of_held := by
    intro h
    exact absurd rfl h

variable {backends}

/-- A call that leaves the runtime alone, and neither starts nor stops anything for the first
time. -/
theorem Orderly.same (h : Orderly backends state calls first stopped)
    (hstarts : (calls ++ [call]).findSome? Call.starts? = calls.findSome? Call.starts?)
    (hstops : (fresh state).firstStop? backends (calls ++ [call]) =
      (fresh state).firstStop? backends calls)
    (hlife : ((run backends state calls).after backends call).world.lifecycle =
      (run backends state calls).world.lifecycle)
    (hrecord : ((run backends state calls).after backends call).record =
      (run backends state calls).record)
    (hheld : ((run backends state calls).after backends call).held ≠ [] →
      (run backends state calls).world.lifecycle.outcome = some .started) :
    Orderly backends state (calls ++ [call]) first stopped where
  first_eq := by rw [hstarts, h.first_eq]
  stopped_eq := by rw [hstops, h.stopped_eq]
  record_eq := by rw [run_concat, hrecord, h.record_eq]
  outcome_eq := by rw [run_concat, hlife, h.outcome_eq]
  isShutDown_eq := by rw [run_concat, hlife, h.isShutDown_eq]
  started_of_isShutDown := by
    rw [run_concat, hlife]
    exact h.started_of_isShutDown
  started_of_held := by
    rw [run_concat, hlife]
    exact hheld

theorem Orderly.start (h : Orderly backends state calls first stopped)
    (hc : call.starts? = some b) :
    ∃ first', Orderly backends state (calls ++ [call]) first' stopped := by
  obtain ⟨hstop, -, hlife, hrecord, hheld⟩ :=
    after_of_starts? backends (run backends state calls) hc
  have hstops : (fresh state).firstStop? backends (calls ++ [call]) =
      (fresh state).firstStop? backends calls := by
    rw [firstStop?_concat, hstop, Option.or_none]
  have hfind : (calls ++ [call]).findSome? Call.starts? =
      (first.map Prod.fst).or (some b) := by
    simp [List.findSome?_append, hc, h.first_eq]
  -- Unless it is the first start, there is an outcome already and the call has no part in it.
  have hlater {outcome : StartOutcome}
      (ho : (run backends state calls).world.lifecycle.outcome = some outcome) :
      (calls ++ [call]).findSome? Call.starts? = calls.findSome? Call.starts? := by
    rw [hfind, ← h.first_eq]
    cases first with
    | none => simp [h.outcome_eq] at ho
    | some start => rfl
  obtain ⟨hshut, hstart⟩ | ⟨-, outcome, ho, hstart⟩ | ⟨hshut, ho, hstart⟩ :=
    (run backends state calls).world.start_cases ((backends b).recorded b)
  · rw [hstart] at hlife hrecord
    have ho := h.started_of_isShutDown hshut
    exact ⟨first, h.same (hlater ho) hstops hlife hrecord fun _ => ho⟩
  · rw [hstart] at hlife hrecord hheld
    refine ⟨first, h.same (hlater ho) hstops hlife hrecord fun hne => ?_⟩
    rcases hheld with hheld | rfl
    · exact h.started_of_held (hheld ▸ hne)
    · exact ho
  · rw [hstart] at hlife hrecord hheld
    obtain rfl : first = none := by simpa [h.outcome_eq] using ho
    obtain rfl : stopped = none := by simpa [h.isShutDown_eq] using hshut
    refine ⟨some (b, ((backends b).startUp (run backends state calls).world.state.1).1),
      ?_, ?_, ?_, ?_, ?_, ?_, ?_⟩
    · rw [hfind]
      rfl
    · rw [hstops, h.stopped_eq]
    · have hempty : (run backends state calls).world.state.2 = [] := h.record_eq
      rw [run_concat, hrecord]
      simp [Registry.recorded, hempty]
    · rw [run_concat, hlife]
      rfl
    · rw [run_concat, hlife]
      exact hshut
    · rw [run_concat, hlife]
      intro hs
      rw [hshut] at hs
      cases hs
    · rw [run_concat]
      intro hne
      rw [hlife]
      rcases hheld with hheld | hstarted
      · have := h.started_of_held (hheld ▸ hne)
        rw [ho] at this
        cases this
      · exact congrArg some hstarted

theorem Orderly.other (h : Orderly backends state calls first stopped)
    (hc : call.starts? = none) :
    ∃ stopped', Orderly backends state (calls ++ [call]) first stopped' := by
  have hstarts : (calls ++ [call]).findSome? Call.starts? = calls.findSome? Call.starts? := by
    simp [List.findSome?_append, hc]
  have hstops := firstStop?_concat backends state calls call
  rw [← h.stopped_eq] at hstops
  obtain ⟨hstop, hlife, hrecord, hheld⟩ | ⟨b, hstop, hne, hworld⟩ :=
    after_of_not_starts? backends (run backends state calls) hc
  · rw [hstop, Option.or_none, h.stopped_eq] at hstops
    exact ⟨stopped, h.same hstarts hstops hlife hrecord fun hne =>
      h.started_of_held fun he => hne (hheld he)⟩
  · have ho := h.started_of_held hne
    have hshut := h.isShutDown_eq
    rw [World.stop] at hworld
    cases stopped with
    | some b' =>
      -- The runtime is down already, by way of another handle.
      rw [if_pos (by rw [hshut]; rfl)] at hworld
      rw [Option.some_or, h.stopped_eq] at hstops
      exact ⟨some b', h.same hstarts hstops (by rw [hworld]) (by rw [record, hworld]; rfl)
        fun _ => ho⟩
    | none =>
      rw [if_neg (by rw [hshut]; exact Bool.false_ne_true)] at hworld
      refine ⟨some b, ?_, ?_, ?_, ?_, ?_, ?_, ?_⟩
      · rw [hstarts, h.first_eq]
      · rw [hstops, hstop, Option.none_or]
      · have hrecord := h.record_eq
        rw [record] at hrecord
        rw [run_concat, record, hworld]
        simp [Registry.recorded, hrecord]
      · rw [run_concat, hworld, ← h.outcome_eq]
      · rw [run_concat, hworld]
        rfl
      · rw [run_concat, hworld]
        exact fun _ => ho
      · rw [run_concat, hworld]
        exact fun _ => ho

theorem Orderly.concat (h : Orderly backends state calls first stopped) (call : Call ι) :
    ∃ first' stopped', Orderly backends state (calls ++ [call]) first' stopped' := by
  cases hc : call.starts? with
  | some b =>
    obtain ⟨first', h'⟩ := h.start hc
    exact ⟨first', stopped, h'⟩
  | none =>
    obtain ⟨stopped', h'⟩ := h.other hc
    exact ⟨first, stopped', h'⟩

/-! ## Runs -/

variable (backends)

theorem exists_orderly (state : σ) (calls : List (Call ι)) :
    ∃ first stopped, Orderly backends state calls first stopped := by
  induction calls using List.reverseRecOn with
  | nil => exact ⟨none, none, orderly_nil backends state⟩
  | append_singleton calls call ih =>
    obtain ⟨first, stopped, h⟩ := ih
    exact h.concat call

/-- The runtime is down exactly if one of the calls is a shutdown by way of a handle that is held
then. -/
theorem isShutDown_run_iff (state : σ) (calls : List (Call ι)) :
    (run backends state calls).world.lifecycle.isShutDown ↔
      ∃ before handle rest, calls = before ++ .shutdown handle :: rest ∧
        handle < (run backends state before).held.length := by
  obtain ⟨first, stopped, h⟩ := exists_orderly backends state calls
  rw [h.isShutDown_eq, h.stopped_eq]
  exact isSome_firstStop?_iff backends

/-- What a runtime has been through, it has been through for good. -/
structure Keeps (l l' : Lifecycle) : Prop where
  outcome : ∀ {o}, l.outcome = some o → l'.outcome = some o
  isShutDown : l.isShutDown = true → l'.isShutDown = true

theorem keeps_after (s : Session ι σ) (call : Call ι) :
    Keeps s.world.lifecycle (s.after backends call).world.lifecycle := by
  cases hc : call.starts? with
  | some b =>
    obtain ⟨-, -, hlife, -⟩ := after_of_starts? backends s hc
    obtain ⟨-, hstart⟩ | ⟨-, _, -, hstart⟩ | ⟨-, ho, hstart⟩ :=
      s.world.start_cases ((backends b).recorded b)
    · rw [hlife, hstart]
      exact ⟨id, id⟩
    · rw [hlife, hstart]
      exact ⟨id, id⟩
    · rw [hlife, hstart]
      refine ⟨?_, id⟩
      intro o h
      rw [ho] at h
      cases h
  | none =>
    obtain ⟨-, hlife, -⟩ | ⟨b, -, -, hworld⟩ := after_of_not_starts? backends s hc
    · rw [hlife]
      exact ⟨id, id⟩
    · rw [hworld, World.stop]
      split
      · exact ⟨id, id⟩
      · exact ⟨id, fun _ => rfl⟩

theorem keeps_run (later : List (Call ι)) (s : Session ι σ) :
    Keeps s.world.lifecycle (later.foldl (after backends) s).world.lifecycle := by
  induction later generalizing s with
  | nil => exact ⟨id, id⟩
  | cons call later ih =>
    have hfirst := keeps_after backends s call
    have hrest := ih (s.after backends call)
    exact ⟨fun h => hrest.outcome (hfirst.outcome h),
      fun h => hrest.isShutDown (hfirst.isShutDown h)⟩

/-- A call that starts the runtime is refused after the end, and otherwise answered with the
outcome that the runtime then has. -/
theorem answer_of_starts? (s : Session ι σ) (hc : call.starts?.isSome) :
    ∃ answer, s.answer? backends call = some answer ∧
      if s.world.lifecycle.isShutDown then answer.refusal? = some World.afterShutdown
      else ∃ outcome, (s.after backends call).world.lifecycle.outcome = some outcome ∧
        answer.refusal? = outcome.refusal? := by
  obtain ⟨b, hc⟩ := Option.isSome_iff_exists.1 hc
  obtain ⟨-, ⟨answer, hanswer, hrefusal⟩, hlife, -⟩ := after_of_starts? backends s hc
  refine ⟨answer, hanswer, ?_⟩
  rw [hrefusal, hlife]
  obtain ⟨hshut, hstart⟩ | ⟨hshut, outcome, ho, hstart⟩ | ⟨hshut, -, hstart⟩ :=
    s.world.start_cases ((backends b).recorded b)
  · rw [hstart, if_pos hshut]
    rfl
  · rw [hstart, if_neg (by simp [hshut])]
    exact ⟨outcome, ho, rfl⟩
  · rw [hstart, if_neg (by simp [hshut])]
    exact ⟨_, rfl, rfl⟩

/-- An initialization that succeeds gives a handle, and handles go when they are dropped or used for
a shutdown. -/
theorem held_after (s : Session ι σ) (call : Call ι) :
    (∀ b, call = .init b → s.answer? backends call = some (.init .started) →
      (s.after backends call).held = s.held ++ [b]) ∧
    ∀ handle, call = .drop handle ∨ call = .shutdown handle →
      (s.after backends call).held = s.held.eraseIdx handle := by
  constructor
  · rintro b rfl hanswer
    have hstarted : (s.world.start ((backends b).recorded b)).1 = .started := by
      simpa [answer?] using hanswer
    simp [after, hstarted]
  · rintro handle (rfl | rfl)
    · rfl
    · rcases Nat.lt_or_ge handle s.held.length with held | hge
      · exact (after_shutdown backends held).2
      · rw [after, List.getElem?_eq_none hge, List.eraseIdx_of_length_le hge]

/-- However the calls come, the runtime is started up at most once, by the first call that wants it
up, and torn down at most once, by the first shutdown by way of a handle that is held, after a start
that succeeded. Until there has been such a shutdown every start hears the outcome of the first one,
and from then on every start is refused. What has been done to the runtime stays done, and a handle
that is dropped changes nothing about it. -/
theorem orderly_run (backends : ι → Registry σ) (state : σ) (calls : List (Call ι)) :
    ∃ first stopped, Orderly backends state calls first stopped ∧
      ∀ earlier call later, calls = earlier ++ call :: later →
        (call.starts?.isSome → ∃ answer,
          (run backends state earlier).answer? backends call = some answer ∧
          answer.refusal? =
            if (run backends state earlier).world.lifecycle.isShutDown then
              some World.afterShutdown
            else first.bind fun start => start.2.refusal?) ∧
        ((run backends state earlier).world.lifecycle.isShutDown ↔
          ∃ before handle rest, earlier = before ++ .shutdown handle :: rest ∧
            handle < (run backends state before).held.length) ∧
        ((run backends state earlier).world.lifecycle.isInitialized →
          (run backends state calls).world.lifecycle.isInitialized) ∧
        ((run backends state earlier).world.lifecycle.isShutDown →
          (run backends state calls).world.lifecycle.isShutDown) ∧
        (∀ b, call = .init b →
          (run backends state earlier).answer? backends call = some (.init .started) →
          (run backends state (earlier ++ [call])).held =
            (run backends state earlier).held ++ [b]) ∧
        (∀ handle, call = .drop handle ∨ call = .shutdown handle →
          (run backends state (earlier ++ [call])).held =
            (run backends state earlier).held.eraseIdx handle) ∧
        ∀ handle, call = .drop handle →
          (run backends state (earlier ++ [call])).world = (run backends state earlier).world := by
  obtain ⟨first, stopped, horderly⟩ := exists_orderly backends state calls
  refine ⟨first, stopped, horderly, ?_⟩
  rintro earlier call later rfl
  have hkeeps := keeps_run backends (call :: later) (run backends state earlier)
  rw [← run_append] at hkeeps
  obtain ⟨hgained, hlost⟩ := held_after backends (run backends state earlier) call
  rw [← run_concat] at hgained hlost
  refine ⟨?_, isShutDown_run_iff backends state earlier, ?_, hkeeps.isShutDown, hgained, hlost, ?_⟩
  · intro hc
    obtain ⟨answer, hanswer, hrefusal⟩ :=
      answer_of_starts? backends (run backends state earlier) hc
    refine ⟨answer, hanswer, ?_⟩
    split
    · next hshut => simpa [hshut] using hrefusal
    · next hshut =>
      simp only [hshut, Bool.false_eq_true, if_false] at hrefusal
      obtain ⟨outcome, ho, hrefusal⟩ := hrefusal
      have hlast := (keeps_run backends later _).outcome ho
      rw [← List.foldl_cons, ← run_append, horderly.outcome_eq] at hlast
      obtain ⟨start, rfl, rfl⟩ := Option.map_eq_some_iff.1 hlast
      exact hrefusal
  · intro hi
    obtain ⟨o, ho⟩ := Option.isSome_iff_exists.1 hi
    exact Option.isSome_iff_exists.2 ⟨o, hkeeps.outcome ho⟩
  · rintro handle rfl
    rw [run_concat]
    rfl

/-- Two backends and three handles, one of them dropped and the other two shut down. -/
def sharedCalls : List (Call Bool) :=
  [.init false, .drop 0, .init true, .init false, .shutdown 1, .shutdown 0, .init true]

/-- The first backend alone is started up, the one that is shut down first is torn down, and the
last start is refused since there has been a shutdown by way of a handle. -/
theorem orderly_run_shared :
    (run (fun _ => Forest.standard.registry) {} sharedCalls).record =
        [.startUp false .started, .tearDown false] ∧
      (run (fun _ => Forest.standard.registry) {} (sharedCalls.take 6)).world.lifecycle.isShutDown ∧
      ∃ answer,
        (run (fun _ => Forest.standard.registry) {} (sharedCalls.take 6)).answer?
          (fun _ => Forest.standard.registry) (.init true) = some answer ∧
        answer.refusal? = some World.afterShutdown := by
  obtain ⟨first, stopped, horderly, hcalls⟩ :=
    orderly_run (fun _ : Bool => Forest.standard.registry) {} sharedCalls
  obtain ⟨hanswer, hdown, -⟩ := hcalls (sharedCalls.take 6) (.init true) [] rfl
  have hshut := hdown.2 ⟨sharedCalls.take 4, 1, [.shutdown 0], rfl, by decide⟩
  obtain ⟨answer, hread, hrefusal⟩ := hanswer rfl
  rw [if_pos hshut] at hrefusal
  exact ⟨rfl, hshut, answer, hread, hrefusal⟩

end Session

end OpCatalog
