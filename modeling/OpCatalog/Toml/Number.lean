import OpCatalog.Double.Nearest
import OpCatalog.Text.File

/-!
# TOML numbers

Integers of sixty-four bits in four bases, and floats. Digits may be separated by
single underscores. Each reader takes the longest number at the start of a text.
-/
namespace OpCatalog.Toml

def isDecimal (c : Char) : Bool := decide ('0' ≤ c ∧ c ≤ '9')

def isHex (c : Char) : Bool := (Text.hexValue? c).isSome

def isOctal (c : Char) : Bool := decide ('0' ≤ c ∧ c ≤ '7')

def isBinary (c : Char) : Bool := c == '0' || c == '1'

/-- Further digits, where an underscore stands between two of them. -/
def moreDigits? (ok : Char → Bool) : List Char → Option (List Char × List Char)
  | [] => some ([], [])
  | '_' :: c :: rest =>
    if ok c then (moreDigits? ok rest).map fun (ds, rest) => (c :: ds, rest) else none
  | c :: rest =>
    if c == '_' then none
    else if ok c then (moreDigits? ok rest).map fun (ds, rest) => (c :: ds, rest)
    else some ([], c :: rest)

def digits? (ok : Char → Bool) : List Char → Option (List Char × List Char)
  | c :: rest =>
    if ok c then (moreDigits? ok rest).map fun (ds, rest) => (c :: ds, rest) else none
  | [] => none

/-- The number that digits spell in a base. -/
def numberIn (base : Nat) (digits : List Char) : Nat :=
  digits.foldl (fun n c => base * n + (Text.hexValue? c).getD 0) 0

/-- A zero alone, or digits that do not start with zero. -/
def wholeDigits? : List Char → Option (List Char × List Char)
  | '0' :: rest => some (['0'], rest)
  | cs => digits? isDecimal cs

def sign : List Char → Bool × List Char
  | '-' :: rest => (true, rest)
  | '+' :: rest => (false, rest)
  | cs => (false, cs)

def inRange? (n : Int) : Option Int :=
  if -0x8000000000000000 ≤ n ∧ n < 0x8000000000000000 then some n else none

def integer? (cs : List Char) : Option (Int × List Char) := do
  let (n, rest) ← match cs with
    | '0' :: 'x' :: cs => (digits? isHex cs).map fun (ds, rest) => ((numberIn 16 ds : Int), rest)
    | '0' :: 'o' :: cs => (digits? isOctal cs).map fun (ds, rest) => ((numberIn 8 ds : Int), rest)
    | '0' :: 'b' :: cs => (digits? isBinary cs).map fun (ds, rest) => ((numberIn 2 ds : Int), rest)
    | cs =>
      let (negative, cs) := sign cs
      (wholeDigits? cs).map fun (ds, rest) =>
        let n : Int := numberIn 10 ds
        (if negative then -n else n, rest)
  let n ← inRange? n
  some (n, rest)

/-- The digits after the point, none without a point. -/
def fraction? : List Char → Option (List Char × List Char)
  | '.' :: cs => digits? isDecimal cs
  | cs => some ([], cs)

/-- The exponent, `none` inside without one. -/
def exponent? : List Char → Option (Option Int × List Char)
  | c :: cs =>
    if c == 'e' || c == 'E' then
      let (negative, cs) := sign cs
      (digits? isDecimal cs).map fun (ds, rest) =>
        let n : Int := numberIn 10 ds
        (some (if negative then -n else n), rest)
    else some (none, c :: cs)
  | [] => some (none, [])

/-- A number with a point or an exponent. Beyond the finite range it is refused if
positive, and minus infinity if negative. -/
def plainFloat? (cs : List Char) : Option (Double × List Char) := do
  let (negative, cs) := sign cs
  let (whole, cs) ← wholeDigits? cs
  let (fraction, cs) ← fraction? cs
  let (exponent, cs) ← exponent? cs
  if fraction.isEmpty && exponent.isNone then none
  else
    let scale := exponent.getD 0 - fraction.length
    match Double.ofDecimal? negative (numberIn 10 (whole ++ fraction)) scale with
    | some x => some (x, cs)
    | none => if negative then some (.ofMagnitude true Double.infinity, cs) else none

def float? (cs : List Char) : Option (Double × List Char) :=
  match plainFloat? cs with
  | some found => some found
  | none =>
    match sign cs with
    | (negative, 'i' :: 'n' :: 'f' :: rest) => some (.ofMagnitude negative Double.infinity, rest)
    | (negative, 'n' :: 'a' :: 'n' :: rest) =>
      some (.ofMagnitude negative Double.quietNaN, rest)
    | _ => none

end OpCatalog.Toml
