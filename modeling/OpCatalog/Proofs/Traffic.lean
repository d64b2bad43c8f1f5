import Mathlib.Data.List.Basic
import OpCatalog.Proofs.History
import OpCatalog.Proofs.Mirror

/-!
# The traffic of objects

What has been asked of a registry about objects, one event after another: which have been made,
which were refused and which were released. A registry that writes its traffic down is otherwise the
registry that it was, so that the record can be kept through any history without changing it.
-/
namespace OpCatalog

inductive Traffic where
  | made (t : TypeHandle) (object : InstanceHandle)
  | refused (t : TypeHandle)
  | released (object : InstanceHandle)
  deriving DecidableEq

namespace Traffic

variable {log : List Traffic} {event : Traffic} {object : InstanceHandle} {t : TypeHandle}

/-- What is written down when an object of the type has been asked for. -/
def ofAnswer (t : TypeHandle) : Option InstanceHandle → Traffic
  | some object => .made t object
  | none => .refused t

def issued? : Traffic → Option InstanceHandle
  | .made _ object => some object
  | _ => none

/-- The handles that have been given out, in order. -/
def issued (log : List Traffic) : List InstanceHandle := log.filterMap issued?

/-- The object has been made with this type, and has not been released since. -/
def Held (log : List Traffic) (object : InstanceHandle) (t : TypeHandle) : Prop :=
  ∃ before after, log = before ++ .made t object :: after ∧ .released object ∉ after

@[simp] theorem issued_made (log : List Traffic) (t : TypeHandle) (object : InstanceHandle) :
    issued (log ++ [.made t object]) = issued log ++ [object] := List.filterMap_append

@[simp] theorem issued_refused (log : List Traffic) (t : TypeHandle) :
    issued (log ++ [.refused t]) = issued log := by
  rw [issued, List.filterMap_append]
  exact List.append_nil _

@[simp] theorem issued_released (log : List Traffic) (object : InstanceHandle) :
    issued (log ++ [.released object]) = issued log := by
  rw [issued, List.filterMap_append]
  exact List.append_nil _

theorem not_held_nil : ¬Held [] object t := by
  rintro ⟨before, after, h, -⟩
  simp at h

/-- An object is held if it has been made just now, or was held and has not just been released. -/
theorem held_concat :
    Held (log ++ [event]) object t ↔
      event = .made t object ∨ Held log object t ∧ event ≠ .released object := by
  constructor
  · rintro ⟨before, after, h, hafter⟩
    rcases List.eq_nil_or_concat' after with rfl | ⟨after, last, rfl⟩
    · obtain ⟨-, hevent⟩ := List.append_inj' h rfl
      exact Or.inl (List.cons.inj hevent).1
    · rw [← List.cons_append, ← List.append_assoc] at h
      obtain ⟨hlog, hevent⟩ := List.append_inj' h rfl
      obtain rfl := (List.cons.inj hevent).1
      rw [List.mem_append, not_or, List.mem_singleton] at hafter
      exact Or.inr ⟨⟨before, after, hlog, hafter.1⟩, Ne.symm hafter.2⟩
  · rintro (rfl | ⟨⟨before, after, rfl, hafter⟩, hne⟩)
    · exact ⟨log, [], rfl, List.not_mem_nil⟩
    · refine ⟨before, after ++ [event], by simp, ?_⟩
      rw [List.mem_append, not_or, List.mem_singleton]
      exact ⟨hafter, Ne.symm hne⟩

theorem Held.mem_issued (h : Held log object t) : object ∈ issued log := by
  obtain ⟨before, after, rfl, -⟩ := h
  exact List.mem_filterMap.2 ⟨.made t object, by simp, rfl⟩

end Traffic

namespace Registry

variable {σ : Type}

/-- The registry, with its traffic written down. -/
def logged (reg : Registry σ) : Registry (σ × List Traffic) where
  lookup? := reg.lookup?
  typeName? := reg.typeName?
  nickname? := reg.nickname?
  parent? := reg.parent?
  isAbstract := reg.isAbstract
  subtypes := reg.subtypes
  traits? := reg.traits?
  members? := reg.members?
  instantiate t s :=
    ((reg.instantiate t s.1).1, (reg.instantiate t s.1).2,
      s.2 ++ [.ofAnswer t (reg.instantiate t s.1).1])
  release object s := (reg.release object s.1, s.2 ++ [.released object])
  description? object s := reg.description? object s.1
  parameters object s := reg.parameters object s.1
  startUp s := ((reg.startUp s.1).1, (reg.startUp s.1).2, s.2)
  tearDown s := (reg.tearDown s.1, s.2)
  size := reg.size
  parents_finite := reg.parents_finite

theorem mirrors_logged (reg : Registry σ) : reg.logged.Mirrors reg Prod.fst where
  lookup := rfl
  typeName := rfl
  nickname := rfl
  parent := rfl
  isAbstract := rfl
  subtypes := rfl
  traits := rfl
  members := rfl
  size := rfl
  instantiate := fun _ _ => rfl
  release := fun _ _ => rfl
  description := fun _ _ => rfl
  parameters := fun _ _ => rfl
  startUp := fun _ => rfl
  tearDown := fun _ => rfl

end Registry

/-! ## Histories -/

/-- A host whose traffic is written down. -/
structure LoggedHost where
  forest : Forest
  world : World (Process × List Traffic)

namespace LoggedHost

open Host (Action)

def host (l : LoggedHost) : Host := ⟨l.forest, l.world.map Prod.fst⟩

def log (l : LoggedHost) : List Traffic := l.world.state.2

/-- The host at the beginning of the record. -/
def ofHost (h : Host) : LoggedHost := ⟨h.forest, h.world.lifecycle, h.world.state, []⟩

def onState (l : LoggedHost) (change : Process × List Traffic → Process × List Traffic) :
    LoggedHost :=
  { l with world := { l.world with state := change l.world.state } }

def act (l : LoggedHost) : Action → LoggedHost
  | .register d =>
    match l.forest.register d with
    | .error _ => l
    | .ok (_, f) => { l with forest := f }
  | .instantiate t => l.onState fun s => (l.forest.registry.logged.instantiate t s).2
  | .release object => l.onState (l.forest.registry.logged.release object)
  | .introspect s => { l with world := (l.world.introspect l.forest.registry.logged s).2 }
  | .ask q => l.onState fun s => l.forest.registry.logged.afterQuery s q
  | .start => { l with world := (l.world.start l.forest.registry.logged).2 }
  | .stop => { l with world := l.world.stop l.forest.registry.logged }
  | .failStart reason => l.onState fun s => ({ s.1 with startFault := some reason }, s.2)

/-- The record has no part in what happens. -/
theorem host_act (l : LoggedHost) (a : Action) : (l.act a).host = l.host.act a := by
  have hmirrors := l.forest.registry.mirrors_logged
  cases a with
  | register d =>
    rw [act, Host.act, Host.register]
    cases hd : l.forest.register d with
    | error e => simp only [host, hd]
    | ok r => simp only [host, hd]
  | introspect s =>
    have hworld := congrArg Prod.snd (World.map_introspect hmirrors s l.world)
    exact congrArg (Host.mk l.forest) hworld
  | ask q =>
    have hstate := hmirrors.afterQuery l.world.state q
    exact congrArg (fun p => Host.mk l.forest ⟨l.world.lifecycle, p⟩) hstate
  | start =>
    have hworld := congrArg Prod.snd (World.map_start hmirrors l.world)
    exact congrArg (Host.mk l.forest) hworld
  | stop => exact congrArg (Host.mk l.forest) (World.map_stop hmirrors l.world)
  | _ => rfl

theorem host_acts (l : LoggedHost) (actions : List Action) :
    (actions.foldl act l).host = actions.foldl Host.act l.host := by
  induction actions generalizing l with
  | nil => rfl
  | cons a actions ih => rw [List.foldl_cons, List.foldl_cons, ih, host_act]

end LoggedHost

end OpCatalog
