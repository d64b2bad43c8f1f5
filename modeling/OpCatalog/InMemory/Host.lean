import OpCatalog.InMemory.Forest
import OpCatalog.Registry.Lifecycle

/-!
# Hosts

A forest of types together with a foreign process of its own: the objects that
are live, and counts of what has been done, so that release and lifecycle can be
observed from outside.
-/
namespace OpCatalog

/-- The changing side of a host. -/
structure Process where
  /-- The type of each live object, the latest first. -/
  live : List (InstanceHandle × TypeHandle) := []
  /-- The handle of the next object. -/
  next : InstanceHandle := ⟨1⟩
  instantiations : Nat := 0
  starts : Nat := 0
  stops : Nat := 0
  /-- Why starting fails, if it does. -/
  startFault : Option String := none
  deriving DecidableEq, Repr, Inhabited

namespace Process

def typeOf? (p : Process) (object : InstanceHandle) : Option TypeHandle := p.live.lookup object

def release (object : InstanceHandle) (p : Process) : Process :=
  { p with live := p.live.filter (·.1 != object) }

/-- A new object of the type `t`. -/
def create (t : TypeHandle) (p : Process) : InstanceHandle × Process :=
  (p.next,
    { p with
      live := (p.next, t) :: p.live.filter (·.1 != p.next)
      next := ⟨p.next.raw + 1⟩
      instantiations := p.instantiations + 1 })

def start (p : Process) : StartOutcome × Process :=
  (match p.startFault with
    | some reason => .failed reason
    | none => .started,
    { p with starts := p.starts + 1 })

def stop (p : Process) : Process := { p with stops := p.stops + 1 }

@[simp] theorem typeOf?_release (object : InstanceHandle) (p : Process) :
    (p.release object).typeOf? object = none := by
  rw [typeOf?, release, List.lookup_eq_none_iff]
  intro entry h
  have := (List.mem_filter.1 h).2
  simpa using fun he => (by simpa [bne] using this : entry.1 ≠ object) he.symm

@[simp] theorem typeOf?_create (t : TypeHandle) (p : Process) :
    (p.create t).2.typeOf? (p.create t).1 = some t := by
  simp [typeOf?, create]

end Process

namespace Forest

theorem lt_size_of_parent? {f : Forest} {t : TypeHandle} (h : (f.parent? t).isSome) :
    t.raw < f.size + 1 := by
  rcases t with ⟨_ | n⟩
  · simp
  · have : (f.entries[n]?).isSome := by
      simp only [parent?, entry?] at h
      cases hn : f.entries[n]? with
      | none => simp [hn] at h
      | some e => rfl
    simp only [size]
    have := List.getElem?_eq_some_iff.1 (Option.eq_some_of_isSome this)
    obtain ⟨hlt, -⟩ := this
    omega

/-- The registry that a forest is to whoever asks. -/
def registry (f : Forest) : Registry Process where
  lookup? := f.lookup?
  typeName? t := (f.entry? t).map (·.name)
  nickname? t := (f.entry? t).bind (·.nickname)
  parent? := f.parent?
  isAbstract t := (f.entry? t).any (·.isAbstract)
  subtypes := f.subtypes
  traits? := f.traits?
  members? := f.members?
  instantiate t p :=
    if f.isInstantiable t then let (object, p) := p.create t; (some object, p) else (none, p)
  release := Process.release
  description? object p := do
    let t ← p.typeOf? object
    let e ← f.entry? t
    e.description
  parameters object p :=
    match p.typeOf? object with
    | none => []
    | some t => f.parametersOf t
  startUp := Process.start
  tearDown := Process.stop
  size := f.size + 1
  parents_finite := ⟨(List.range (f.size + 1)).map TypeHandle.mk, by simp, fun t h =>
    List.mem_map.2 ⟨t.raw, List.mem_range.2 (lt_size_of_parent? h), rfl⟩⟩

end Forest

structure Host where
  forest : Forest
  world : World Process
  deriving Repr

namespace Host

def ofForest (f : Forest) : Host := ⟨f, ⟨{}, {}⟩⟩

/-- No types at all. -/
def empty : Host := ofForest .empty

def standard : Host := ofForest .standard

def liveCount (h : Host) : Nat := h.world.state.live.length

def failStart (h : Host) (reason : String) : Host :=
  { h with world := { h.world with state := { h.world.state with startFault := some reason } } }

def register (h : Host) (d : TypeDefinition) : Except Refusal TypeHandle × Host :=
  match h.forest.register d with
  | .error e => (.error e, h)
  | .ok (t, f) => (.ok t, { h with forest := f })

def registerAll (h : Host) (ds : List TypeDefinition) : Except Refusal Unit × Host :=
  let (result, f) := h.forest.registerAll ds
  (result, { h with forest := f })

/-- Size and live objects, in one line. -/
def summary (h : Host) : String :=
  "InMemoryRegistry \x7b types: " ++ h.forest.size.repr ++ ", live_instances: " ++
    h.liveCount.repr ++ " \x7d"

end Host

end OpCatalog
