import OpCatalog.Registry.Parameter
import OpCatalog.Registry.Traits

/-!
# Registries

Everything that discovery asks of a foreign type system. Types never change while
they are being asked about, so the queries on them are functions; objects come
and go, so `instantiate`, `release`, `startUp` and `tearDown` act on a state
`σ` of the foreign side that the registry is free to choose. Nothing is assumed of
the answers, except that only finitely many types have a parent.
-/
namespace OpCatalog

/-- How an attempt to start the foreign side ended. -/
inductive StartOutcome where
  | started
  | failed (reason : String)
  deriving DecidableEq, Repr, Inhabited

structure Registry (σ : Type) where
  lookup? : String → Option TypeHandle
  typeName? : TypeHandle → Option String
  /-- The short name that a library gives to the types it shows. -/
  nickname? : TypeHandle → Option String
  parent? : TypeHandle → Option TypeHandle
  isAbstract : TypeHandle → Bool
  /-- The type and everything derived from it, in the order in which it is visited. -/
  subtypes : TypeHandle → List TypeHandle
  traits? : TypeHandle → Option Traits
  /-- The members of an enumeration. -/
  members? : TypeHandle → Option (List RawMember)
  instantiate : TypeHandle → σ → Option InstanceHandle × σ
  release : InstanceHandle → σ → σ
  description? : InstanceHandle → σ → Option String
  parameters : InstanceHandle → σ → List ParamSpec
  startUp : σ → StartOutcome × σ
  tearDown : σ → σ
  /-- No fewer than the types that have a parent. -/
  size : Nat
  parents_finite : ∃ known : List TypeHandle, known.length ≤ size ∧
    ∀ t, (parent? t).isSome → t ∈ known

end OpCatalog
