import OpCatalog.Registry.Lifecycle

/-!
# Tabulated registries

A registry whose answers are listed in a table, as a record of a foreign type
system or as an example of one that no real system would give: names may point
anywhere, parents may form cycles, and the visit of subtypes is the same list
whatever the base.
-/
namespace OpCatalog

structure TypeRecord where
  handle : TypeHandle
  name : Option String := none
  nickname : Option String := none
  parent : Option TypeHandle := none
  isAbstract : Bool := false
  isInstantiable : Bool := false
  description : Option String := none
  traits : Option Traits := none
  members : Option (List RawMember) := none
  parameters : List ParamSpec := []

structure Table where
  types : List TypeRecord := []
  names : List (String × TypeHandle) := []
  subtypes : List TypeHandle := []
  startFault : Option String := none
  /-- Starting and stopping belong to someone else and are not recorded. -/
  isShared : Bool := false

/-- What has been done through a table. -/
structure Usage where
  live : List InstanceHandle := []
  instantiations : Nat := 0
  starts : Nat := 0
  stops : Nat := 0
  deriving DecidableEq, Repr, Inhabited

namespace Table

def record? (table : Table) (t : TypeHandle) : Option TypeRecord :=
  table.types.find? (·.handle == t)

def parent? (table : Table) (t : TypeHandle) : Option TypeHandle :=
  (table.record? t).bind (·.parent)

/-- The handle of the one object that a type can have. -/
def objectOf (t : TypeHandle) : InstanceHandle := ⟨UInt64.ofNat t.raw⟩

/-- The type that an object is of. -/
def ofObject? (table : Table) (object : InstanceHandle) : Option TypeRecord :=
  table.record? ⟨object.raw.toNat⟩

def create (t : TypeHandle) (u : Usage) : Usage :=
  { u with
    live := objectOf t :: u.live.filter (· != objectOf t)
    instantiations := u.instantiations + 1 }

theorem mem_of_parent? {table : Table} {t : TypeHandle} (h : (table.parent? t).isSome) :
    t ∈ table.types.map (·.handle) := by
  cases hr : table.record? t with
  | none => simp [parent?, hr] at h
  | some r =>
    have hm := List.mem_of_find?_eq_some hr
    have ht : r.handle = t := by simpa using List.find?_some hr
    exact List.mem_map.2 ⟨r, hm, ht⟩

def registry (table : Table) : Registry Usage where
  lookup? name := table.names.lookup name
  typeName? t := (table.record? t).bind (·.name)
  nickname? t := (table.record? t).bind (·.nickname)
  parent? := table.parent?
  isAbstract t := (table.record? t).any (·.isAbstract)
  subtypes _ := table.subtypes
  traits? t := (table.record? t).bind (·.traits)
  members? t := (table.record? t).bind (·.members)
  instantiate t u :=
    if (table.record? t).any (·.isInstantiable) then (some (objectOf t), create t u) else (none, u)
  release object u := { u with live := u.live.filter (· != object) }
  description? object _ := (table.ofObject? object).bind (·.description)
  parameters object _ := ((table.ofObject? object).map (·.parameters)).getD []
  startUp u :=
    if table.isShared then (.started, u)
    else
      ((table.startFault.map StartOutcome.failed).getD .started, { u with starts := u.starts + 1 })
  tearDown u := if table.isShared then u else { u with stops := u.stops + 1 }
  size := table.types.length
  parents_finite := ⟨table.types.map (·.handle), by simp, fun _ h => mem_of_parent? h⟩

end Table

end OpCatalog
