import OpCatalog.Double.Basic

/-!
# TOML values

The values of a TOML document, and how records are read from them. Dates and times
are kept in their normal form. A record is written as a table, or as an array of its
fields in the order of their declaration. A table has no other keys than the fields;
elements of an array beyond the last field are ignored.
-/
namespace OpCatalog

inductive Toml where
  | string (s : String)
  | integer (n : Int)
  | float (x : Double)
  | boolean (b : Bool)
  | datetime (text : String)
  | array (items : List Toml)
  | table (entries : List (String × Toml))
  deriving Inhabited

namespace Toml

abbrev Fields := String → Option Toml

def fields? (names : List String) : Toml → Option Fields
  | .table entries =>
    if entries.all (names.contains ·.1) then some fun name => entries.lookup name else none
  | .array items => some fun name => items[names.idxOf name]?
  | _ => none

def Fields.defaulted (fields : Fields) (name : String) (value : α) (read : Toml → Option α) :
    Option α :=
  match fields name with
  | none => some value
  | some v => read v

def text? : Toml → Option String
  | .string s => some s
  | _ => none

def texts? : Toml → Option (List String)
  | .array items => items.mapM text?
  | _ => none

def count? : Toml → Option Nat
  | .integer n => if 0 ≤ n ∧ n < 0x10000000000000000 then some n.toNat else none
  | _ => none

/-- The key under which a date or time stands where it is read as a table. -/
def datetimeKey : String := "$__toml_private_datetime"

def textTable? : Toml → Option (List (String × String))
  | .table entries => entries.mapM fun (name, v) => (text? v).map (name, ·)
  | .datetime text => some [(datetimeKey, text)]
  | _ => none

def isEmpty : Toml → Bool
  | .table [] | .array [] => true
  | _ => false

/-- A constant is written as its name, or as a table with its name as the only key and
nothing under it. -/
def constant? (read : String → Option α) : Toml → Option α
  | .string s => read s
  | .table [(s, v)] => if v.isEmpty then read s else none
  | _ => none

end Toml

end OpCatalog
