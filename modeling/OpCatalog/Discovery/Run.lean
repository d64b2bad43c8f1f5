import OpCatalog.Discovery.Arrangement
import OpCatalog.Discovery.Enumeration
import OpCatalog.Discovery.Inspection
import OpCatalog.Registry.Lifecycle

/-!
# Discovery

From a registry and settings to a catalogue. `introspect` is the whole: it checks
the settings, starts the runtime and runs. The other entry points presuppose a
runtime that has been started.
-/
namespace OpCatalog

namespace Registry

variable {σ : Type}

/-- The operations that a list of types gives, after `found` of them. The limit is
checked before a type is inspected, abstract and unnamed types left aside. -/
def collect (reg : Registry σ) (settings : Settings) :
    Nat → List TypeHandle → σ → Except Failure (List Operation) × σ
  | _, [], s => (.ok [], s)
  | found, t :: ts, s =>
    if reg.isAbstract t then reg.collect settings found ts s
    else match (reg.nickname? t).filter (!·.isEmpty) with
      | none => reg.collect settings found ts s
      | some name =>
        match settings.limits.operations.filter (· ≤ found) with
        | some limit => (.error (.limitExceeded .operations settings.baseType limit), s)
        | none =>
          match reg.inspect settings.rootTypes settings.limits.arguments t name s with
          | (.error e, s) => (.error e, s)
          | (.ok none, s) => reg.collect settings found ts s
          | (.ok (some op), s) =>
            let (result, s) := reg.collect settings (found + 1) ts s
            (result.map (op :: ·), s)

/-- The operations below the base type, arranged. -/
def operations (reg : Registry σ) (settings : Settings) (s : σ) :
    Except Failure (List Operation) × σ :=
  match reg.lookup? settings.baseType with
  | none => (.error (.unknownBaseType settings.baseType), s)
  | some base =>
    let (found, s) := reg.collect settings 0 (reg.subtypes base) s
    (found.map settings.arrange, s)

def checked (settings : Settings) (run : σ → Except Failure α × σ) (s : σ) : Except Failure α × σ :=
  match settings.fault? with
  | some fault => (.error (.invalidSettings fault), s)
  | none => run s

def discoverOperations (reg : Registry σ) (settings : Settings) :
    σ → Except Failure (List Operation) × σ :=
  checked settings (reg.operations settings)

def discoverEnums (reg : Registry σ) (settings : Settings) (names : List String) :
    σ → Except Failure (List EnumType) × σ :=
  checked settings fun s =>
    (reg.resolveEnums settings.sentinel settings.limits.enumMembers names, s)

/-- The operations and the enumerated types that they mention. -/
def catalog (reg : Registry σ) (settings : Settings) (s : σ) : Except Failure Catalog × σ :=
  match reg.operations settings s with
  | (.error e, s) => (.error e, s)
  | (.ok ops, s) =>
    let enums :=
      reg.resolveEnums settings.sentinel settings.limits.enumMembers (referencedEnums ops)
    (enums.map (⟨ops, ·⟩), s)

def discover (reg : Registry σ) (settings : Settings) : σ → Except Failure Catalog × σ :=
  checked settings (reg.catalog settings)

end Registry

namespace World

variable {σ : Type}

/-- Runs an entry point on the state of a runtime, which is started first. -/
def started (reg : Registry σ) (run : σ → Except Failure α × σ) (w : World σ) :
    Except Failure α × World σ :=
  match w.start reg with
  | (.failed reason, w) => (.error (.runtimeStart reason), w)
  | (.started, w) =>
    let (result, state) := run w.state
    (result, { w with state := state })

/-- Checks the settings, starts the runtime if need be, and discovers. The runtime
stays up. -/
def introspect (reg : Registry σ) (settings : Settings) (w : World σ) :
    Except Failure Catalog × World σ :=
  match settings.fault? with
  | some fault => (.error (.invalidSettings fault), w)
  | none => w.started reg (reg.discover settings)

end World

end OpCatalog
