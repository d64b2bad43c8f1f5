import OpCatalog.Decimal.Numeral

/-!
# The grammar of numerals

`Numeral.chars` writes a numeral and `Numeral.read?` reads the longest one that a
text starts with. A whole part of several digits does not start with zero, and
there is a digit after a point and in an exponent.
-/
namespace OpCatalog

namespace Numeral

/-- The sign of an exponent is always written. -/
def exponentChars (e : Int) : List Char :=
  'e' :: (if e < 0 then '-' else '+') :: Nat.toDigits 10 e.natAbs

def chars (n : Numeral) : List Char :=
  (if n.negative then ['-'] else []) ++ Nat.toDigits 10 n.whole ++
    (if n.fraction.isEmpty then [] else '.' :: n.fraction.map Digit.toChar) ++
    (n.exponent.map exponentChars).getD []

def digits (cs : List Char) : List Digit × List Char :=
  match cs with
  | [] => ([], [])
  | c :: rest =>
    match Digit.ofChar? c with
    | some d => let (ds, rest) := digits rest; (d :: ds, rest)
    | none => ([], cs)

/-- At least one digit, and no more than one if the first is zero. -/
def whole? (cs : List Char) : Option (Nat × List Char) :=
  match digits cs with
  | ([], _) => none
  | (d :: ds, rest) =>
    if d = Digit.zero ∧ ds ≠ [] then some (0, cs.drop 1) else some (spell 0 (d :: ds), rest)

def fraction? : List Char → Option (List Digit × List Char)
  | '.' :: cs =>
    match digits cs with
    | ([], _) => none
    | found => some found
  | cs => some ([], cs)

def unsigned? (cs : List Char) : Option (Nat × List Char) :=
  match digits cs with
  | ([], _) => none
  | (ds, rest) => some (spell 0 ds, rest)

def exponent? : List Char → Option (Option Int × List Char)
  | c :: cs =>
    if c == 'e' || c == 'E' then
      match cs with
      | '-' :: cs => (unsigned? cs).map fun (n, rest) => (some (-(n : Int)), rest)
      | '+' :: cs => (unsigned? cs).map fun (n, rest) => (some n, rest)
      | cs => (unsigned? cs).map fun (n, rest) => (some n, rest)
    else some (none, c :: cs)
  | [] => some (none, [])

def read? (cs : List Char) : Option (Numeral × List Char) := do
  let (negative, cs) := match cs with
    | '-' :: cs => (true, cs)
    | cs => (false, cs)
  let (whole, cs) ← whole? cs
  let (fraction, cs) ← fraction? cs
  let (exponent, cs) ← exponent? cs
  some (⟨negative, whole, fraction, exponent⟩, cs)

end Numeral

end OpCatalog
