import OpCatalog.Registry.Basic

/-!
# Lifecycle of a foreign runtime

A runtime is started at most once: the outcome of the first attempt, success or
failure, is kept and given to every later one. It is shut down at most once, and
cannot be started again after that.
-/
namespace OpCatalog

structure Lifecycle where
  /-- How the first attempt to start ended, if there was one. -/
  outcome : Option StartOutcome := none
  isShutDown : Bool := false
  deriving DecidableEq, Repr, Inhabited

namespace Lifecycle

def isInitialized (l : Lifecycle) : Bool := l.outcome.isSome

end Lifecycle

/-- The foreign side as its users see it: how far it has come, and its own state. -/
structure World (σ : Type) where
  lifecycle : Lifecycle
  state : σ
  deriving Repr

namespace World

variable {σ : Type}

/-- Why a runtime that has been shut down does not start. -/
def afterShutdown : String := "runtime already shut down"

/-- Starts the runtime, or repeats the outcome of its first start. -/
def start (reg : Registry σ) (w : World σ) : StartOutcome × World σ :=
  if w.lifecycle.isShutDown then (.failed afterShutdown, w)
  else match w.lifecycle.outcome with
    | some outcome => (outcome, w)
    | none =>
      let (outcome, state) := reg.startUp w.state
      (outcome, ⟨{ w.lifecycle with outcome := some outcome }, state⟩)

/-- Shuts the runtime down, unless that has been done. -/
def stop (reg : Registry σ) (w : World σ) : World σ :=
  if w.lifecycle.isShutDown then w
  else ⟨{ w.lifecycle with isShutDown := true }, reg.tearDown w.state⟩

theorem start_of_isShutDown {reg : Registry σ} {w : World σ} (h : w.lifecycle.isShutDown = true) :
    w.start reg = (.failed afterShutdown, w) := by
  rw [start, if_pos h]

/-- What a start comes to: a refusal after the end, the outcome of the first start, or a first
start of its own. -/
theorem start_cases (reg : Registry σ) (w : World σ) :
    (w.lifecycle.isShutDown = true ∧ w.start reg = (.failed afterShutdown, w)) ∨
    (w.lifecycle.isShutDown = false ∧ ∃ outcome,
      w.lifecycle.outcome = some outcome ∧ w.start reg = (outcome, w)) ∨
    (w.lifecycle.isShutDown = false ∧ w.lifecycle.outcome = none ∧
      w.start reg =
        ((reg.startUp w.state).1,
          ⟨{ w.lifecycle with outcome := some (reg.startUp w.state).1 },
            (reg.startUp w.state).2⟩)) := by
  cases hs : w.lifecycle.isShutDown with
  | true => exact Or.inl ⟨rfl, start_of_isShutDown hs⟩
  | false =>
    cases ho : w.lifecycle.outcome with
    | some outcome => exact Or.inr (Or.inl ⟨rfl, outcome, rfl, by simp [start, hs, ho]⟩)
    | none => exact Or.inr (Or.inr ⟨rfl, rfl, by simp [start, hs, ho]⟩)

/-- Later starts repeat the first one. -/
theorem start_start (reg : Registry σ) (w : World σ) : (w.start reg).2.start reg = w.start reg := by
  obtain ⟨-, hstart⟩ | ⟨-, _, -, hstart⟩ | ⟨hs, -, hstart⟩ := w.start_cases reg
  · rw [hstart, hstart]
  · rw [hstart, hstart]
  · rw [hstart]
    simp [start, hs]

/-- A runtime that has been shut down stays as it is. -/
@[simp] theorem stop_stop (reg : Registry σ) (w : World σ) :
    (w.stop reg).stop reg = w.stop reg := by
  by_cases h : w.lifecycle.isShutDown = true
  · simp [stop, h]
  · simp [stop, h]

end World

end OpCatalog
