import OpCatalog.Decimal.Numeral

/-!
# JSON values

A value keeps what its text says: members in order and with repeated names,
numbers as written. An escape that names half of a surrogate pair without the
other half is allowed by the grammar but stands for no character; a string with
one, and an object with one in a member's name, is `garbled`.
-/
namespace OpCatalog

inductive Json where
  | null
  | bool (b : Bool)
  | num (n : Numeral)
  | str (s : String)
  | garbled
  | arr (items : List Json)
  | obj (members : List (String × Json))
  deriving Inhabited

namespace Json

/-- The object with these members, if every name is one. -/
def ofMembers (members : List (Option String × Json)) : Json :=
  match members.mapM fun (name, value) => name.map (·, value) with
  | some members => .obj members
  | none => .garbled

mutual

/-- The number of arrays and objects around the innermost value, itself included. -/
def depth : Json → Nat
  | .arr items => 1 + depthItems items
  | .obj members => 1 + depthMembers members
  | _ => 0

def depthItems : List Json → Nat
  | [] => 0
  | v :: vs => max (depth v) (depthItems vs)

def depthMembers : List (String × Json) → Nat
  | [] => 0
  | (_, v) :: ms => max (depth v) (depthMembers ms)

end

mutual

/-- Every string in it is text, and every number is an integer of word size or read
by `real?`. -/
def isPlain (real? : Json → Option Double) : Json → Bool
  | .num n => n.isWord || (real? (.num n)).isSome
  | .garbled => false
  | .arr items => isPlainItems real? items
  | .obj members => isPlainMembers real? members
  | _ => true

def isPlainItems (real? : Json → Option Double) : List Json → Bool
  | [] => true
  | v :: vs => isPlain real? v && isPlainItems real? vs

def isPlainMembers (real? : Json → Option Double) : List (String × Json) → Bool
  | [] => true
  | (_, v) :: ms => isPlain real? v && isPlainMembers real? ms

end

end Json

end OpCatalog
