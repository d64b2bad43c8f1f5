import OpCatalog.Catalog.Basic
import OpCatalog.Discovery.Settings
import OpCatalog.Registry.Basic

/-!
# Enumerations by name

A name resolves to the members of the enumeration it names. The end marker is
left out, missing strings become empty ones, and a name of no enumeration gives
an enumerated type without members.
-/
namespace OpCatalog

/-- The members other than the sentinel, after `found` of them; `none` if there are
more than `limit`. -/
def properMembers? (sentinel : String) (limit : Option Nat) :
    Nat → List RawMember → Option (List EnumMember)
  | _, [] => some []
  | found, m :: ms =>
    let nick := m.nick.getD ""
    if nick == sentinel then properMembers? sentinel limit found ms
    else if limit.any (· ≤ found) then none
    else
      (properMembers? sentinel limit (found + 1) ms).map (⟨m.name.getD "", nick, m.value⟩ :: ·)

namespace Registry

variable {σ : Type}

/-- The members that an enumeration of this name has, `none` if there is no such
enumeration. A type counts as one if it is described as one and lists members. -/
def rawMembers? (reg : Registry σ) (name : String) : Option (List RawMember) := do
  let t ← reg.lookup? name
  let traits ← reg.traits? t
  if traits.isEnum then reg.members? t else none

def resolveEnum (reg : Registry σ) (sentinel : String) (limit : Option Nat) (name : String) :
    Except Failure EnumType :=
  match reg.rawMembers? name with
  | none => .ok ⟨name, []⟩
  | some ms =>
    match properMembers? sentinel limit 0 ms with
    | none => .error (.limitExceeded .enumMembers name (limit.getD 0))
    | some members => .ok ⟨name, members⟩

/-- Resolves names in order, up to the first failure. -/
def resolveEnums (reg : Registry σ) (sentinel : String) (limit : Option Nat) :
    List String → Except Failure (List EnumType)
  | [] => .ok []
  | name :: names =>
    match reg.resolveEnum sentinel limit name with
    | .error e => .error e
    | .ok found => (reg.resolveEnums sentinel limit names).map (found :: ·)

end Registry

end OpCatalog
