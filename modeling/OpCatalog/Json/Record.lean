import OpCatalog.Decimal.Reading
import OpCatalog.Json.Basic

/-!
# Reading records

A record is written as an object, in any order of its members, or as an array of
its fields in the order of their declaration. In an object a field occurs at most
once, and members that are no fields are ignored or refused as the record says.
In an array fields may be missing at the end. `Fields` is what both forms give: a
value for some of the names. Doubles are read as a `Reading` says, and a program
takes the quick one.
-/
namespace OpCatalog.Json

abbrev Fields := String → Option Json

/-- What becomes of a member that is no field of the record. -/
inductive Extra where
  | ignored
  | refused
  deriving DecidableEq, Repr

def objectFields? (names : List String) (extra : Extra) (members : List (String × Json)) :
    Option Fields :=
  let known := (members.map (·.1)).filter (names.contains ·)
  if known.Nodup ∧ (extra = .refused → known.length = members.length) then
    some fun name => members.lookup name
  else none

def arrayFields? (names : List String) (items : List Json) : Option Fields :=
  if items.length ≤ names.length then some fun name => items[names.idxOf name]? else none

def fields? (names : List String) (extra : Extra) : Json → Option Fields
  | .obj members => objectFields? names extra members
  | .arr items => arrayFields? names items
  | _ => none

namespace Fields

def required (fields : Fields) (name : String) (read : Json → Option α) : Option α :=
  (fields name).bind read

def defaulted (fields : Fields) (name : String) (value : α) (read : Json → Option α) : Option α :=
  match fields name with
  | none => some value
  | some j => read j

/-- The fields other than those that are null. -/
def present (fields : Fields) : Fields := fun name =>
  match fields name with
  | some .null => none
  | value => value

end Fields

def string? : Json → Option String
  | .str s => some s
  | _ => none

def bool? : Json → Option Bool
  | .bool b => some b
  | _ => none

/-- The double that a number is read as. -/
def doubleBy? (r : Reading) : Json → Option Double
  | .num n => r.double? n
  | _ => none

def double? : Json → Option Double := doubleBy? .quick

def int? : Json → Option Int
  | .num n => n.toInt?
  | _ => none

def int32? (j : Json) : Option Int32 :=
  j.int?.bind fun n => if -0x80000000 ≤ n ∧ n < 0x80000000 then some (Int32.ofInt n) else none

def uint32? (j : Json) : Option UInt32 :=
  j.int?.bind fun n => if 0 ≤ n ∧ n < 0x100000000 then some (UInt32.ofNat n.toNat) else none

def count? (j : Json) : Option Nat :=
  j.int?.bind fun n => if 0 ≤ n ∧ n < 0x10000000000000000 then some n.toNat else none

def list? (read : Json → Option α) : Json → Option (List α)
  | .arr items => items.mapM read
  | _ => none

def nullable? (read : Json → Option α) : Json → Option (Option α)
  | .null => some none
  | j => (read j).map some

/-- Texts by name, no name twice. -/
def textTable? : Json → Option (List (String × String))
  | .obj members =>
    if (members.map (·.1)).Nodup then
      members.mapM fun (name, value) => value.string?.map (name, ·)
    else none
  | _ => none

/-- A constant is written as its name, or as an object that maps the name to null. -/
def constant? (read : String → Option α) : Json → Option α
  | .str s => read s
  | .obj [(s, .null)] => read s
  | _ => none

def ofInt (n : Int) : Json := .num (.ofInt n)

/-- A finite double is written as its shortest numeral. A double that is not finite
has no numeral and is written as null. -/
def ofDouble (x : Double) : Json := if x.isFinite then .num x.toNumeral else .null

/-- The members with a value, in order. -/
def ofFields (fields : List (String × Option Json)) : Json :=
  .obj (fields.filterMap fun (name, value) => value.map (name, ·))

end OpCatalog.Json
