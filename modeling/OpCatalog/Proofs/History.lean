import OpCatalog.Proofs.Footprint
import OpCatalog.Proofs.Forest

/-!
# Histories of a host

What can be done to a host, one action after another, and what every history keeps: the forest
is grown by registration, and objects are numbered in the order of their creation for as long as
the numbers last.
-/
namespace OpCatalog

namespace Process

variable {p : Process} {t : TypeHandle}

/-- The number of objects that a process can create before it runs out of handles. -/
def capacity : Nat := 0xffffffffffffffff

/-- Handles count the objects, and no live object has a handle that is still to come. -/
def Numbered (p : Process) : Prop :=
  p.instantiations < capacity →
    p.next.raw.toNat = p.instantiations + 1 ∧
      ∀ entry ∈ p.live, entry.1.raw.toNat ≤ p.instantiations

theorem numbered_empty : Numbered {} := fun _ => ⟨rfl, by simp⟩

theorem Numbered.release (h : p.Numbered) (object : InstanceHandle) :
    (p.release object).Numbered := by
  intro hfew
  obtain ⟨hnext, hlive⟩ := h hfew
  refine ⟨hnext, ?_⟩
  intro entry hentry
  exact hlive entry (List.mem_filter.1 hentry).1

theorem Numbered.create (h : p.Numbered) (t : TypeHandle) : (p.create t).2.Numbered := by
  intro hfew
  have hcount : (p.create t).2.instantiations = p.instantiations + 1 := rfl
  rw [hcount, capacity] at hfew
  obtain ⟨hnext, hlive⟩ := h (by rw [capacity]; omega)
  constructor
  · have hraw : (p.create t).2.next.raw = p.next.raw + 1 := rfl
    rw [hraw, hcount, UInt64.toNat_add, hnext]
    -- The count is so far below the capacity that the sum does not wrap.
    have hone : (1 : UInt64).toNat = 1 := rfl
    rw [hone]
    omega
  · intro entry hentry
    rw [hcount]
    rcases List.mem_cons.1 hentry with rfl | hentry
    · exact Nat.le_of_eq hnext
    · exact Nat.le_succ_of_le (hlive entry (List.mem_filter.1 hentry).1)

/-- The handle of the next object belongs to no live one. -/
theorem Numbered.next_ne (h : p.Numbered) (hfew : p.instantiations < capacity)
    {entry : InstanceHandle × TypeHandle} (hentry : entry ∈ p.live) : entry.1 ≠ p.next := by
  obtain ⟨hnext, hlive⟩ := h hfew
  intro heq
  have hle := hlive entry hentry
  rw [heq, hnext] at hle
  omega

end Process

/-! ## Actions -/

namespace Host

inductive Action where
  | register (d : TypeDefinition)
  | instantiate (t : TypeHandle)
  | release (object : InstanceHandle)
  | introspect (s : Settings)
  | ask (q : Query)
  | start
  | stop
  | failStart (reason : String)

namespace Action

/-- The action looks for operations or enumerations and does nothing else. -/
def discovers : Action → Bool
  | .introspect _ | .ask _ => true
  | _ => false

end Action

variable {h : Host}

/-- Changes the process and nothing else. -/
def onProcess (h : Host) (change : Process → Process) : Host :=
  { h with world := { h.world with state := change h.world.state } }

def act (h : Host) : Action → Host
  | .register d => (h.register d).2
  | .instantiate t => h.onProcess fun p => (h.forest.registry.instantiate t p).2
  | .release object => h.onProcess (h.forest.registry.release object)
  | .introspect s => { h with world := (h.world.introspect h.forest.registry s).2 }
  | .ask q => h.onProcess fun p => h.forest.registry.afterQuery p q
  | .start => { h with world := (h.world.start h.forest.registry).2 }
  | .stop => { h with world := h.world.stop h.forest.registry }
  | .failStart reason => h.failStart reason

/-- The states that a host can come to, from no types or from the standard ones. -/
inductive Reachable : Host → Prop
  | empty : Reachable empty
  | standard : Reachable standard
  | act {h : Host} (a : Action) : Reachable h → Reachable (h.act a)

theorem Reachable.acts (hr : h.Reachable) (actions : List Action) :
    (actions.foldl Host.act h).Reachable := by
  induction actions generalizing h with
  | nil => exact hr
  | cons a actions ih => exact ih (Reachable.act a hr)

theorem grown_act (hg : h.forest.Grown) (a : Action) : (h.act a).forest.Grown := by
  cases a with
  | register d => exact grown_register hg d
  | _ => exact hg

theorem Reachable.grown (hr : h.Reachable) : h.forest.Grown := by
  induction hr with
  | empty => exact Forest.Grown.empty
  | standard => exact Forest.Grown.standard
  | act a _ ih => exact grown_act ih a

end Host

end OpCatalog
