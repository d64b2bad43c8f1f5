import OpCatalog.Text.File

/-!
# Quoted strings

The written form of a string between its quotes: `escape` writes it and
`unescape?` reads it up to the closing quote. Reading goes in two steps, since a
character outside the basic plane may be written as two escapes: first the units,
then their pairing.
-/
namespace OpCatalog.Json.Quoted

open Text (hexDigit hexNumber?)

/-- A quote, a backslash and the characters below space are escaped, nothing else. -/
def escapeChar (c : Char) : List Char :=
  match c with
  | '"' => ['\\', '"']
  | '\\' => ['\\', '\\']
  | '\n' => ['\\', 'n']
  | '\r' => ['\\', 'r']
  | '\t' => ['\\', 't']
  | '\x08' => ['\\', 'b']
  | '\x0c' => ['\\', 'f']
  | c =>
    if c.toNat < 32 then ['\\', 'u', '0', '0', hexDigit (c.toNat / 16), hexDigit c.toNat] else [c]

def escape (s : List Char) : List Char := s.flatMap escapeChar

/-- One character of the text, or the sixteen-bit number of a `\u` escape. -/
inductive Piece where
  | char (c : Char)
  | code (n : Nat)
  deriving DecidableEq, Repr

def shortEscape? : Char → Option Char
  | '"' => some '"'
  | '\\' => some '\\'
  | '/' => some '/'
  | 'b' => some '\x08'
  | 'f' => some '\x0c'
  | 'n' => some '\n'
  | 'r' => some '\r'
  | 't' => some '\t'
  | _ => none

/-- The pieces up to the closing quote and what follows it. -/
def pieces? : List Char → Option (List Piece × List Char)
  | [] => none
  | '"' :: rest => some ([], rest)
  | '\\' :: 'u' :: a :: b :: c :: d :: rest => do
    let n ← hexNumber? [a, b, c, d]
    let (ps, rest) ← pieces? rest
    some (.code n :: ps, rest)
  | '\\' :: c :: rest => do
    let e ← shortEscape? c
    let (ps, rest) ← pieces? rest
    some (.char e :: ps, rest)
  | c :: rest =>
    if c.toNat < 32 || c == '\\' then none
    else (pieces? rest).map fun (ps, rest) => (.char c :: ps, rest)

def isHigh (n : Nat) : Bool := decide (0xd800 ≤ n ∧ n < 0xdc00)

def isLow (n : Nat) : Bool := decide (0xdc00 ≤ n ∧ n < 0xe000)

/-- The text that the pieces spell, `none` if half of a surrogate pair stands alone. -/
def join? : List Piece → Option (List Char)
  | [] => some []
  | .char c :: ps => (join? ps).map (c :: ·)
  | .code high :: .code low :: ps =>
    if isHigh high then
      if isLow low then
        (join? ps).map (Char.ofNat (0x10000 + (high - 0xd800) * 0x400 + (low - 0xdc00)) :: ·)
      else none
    else if isLow high then none
    else (join? (.code low :: ps)).map (Char.ofNat high :: ·)
  | .code n :: ps => if isHigh n || isLow n then none else (join? ps).map (Char.ofNat n :: ·)

/-- The text up to the closing quote, `none` inside if it is garbled, and what
follows the quote. -/
def unescape? (cs : List Char) : Option (Option String × List Char) :=
  (pieces? cs).map fun (ps, rest) => ((join? ps).map String.ofList, rest)

end OpCatalog.Json.Quoted
