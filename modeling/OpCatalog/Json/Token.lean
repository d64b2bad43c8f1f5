import OpCatalog.Json.Quoted
import OpCatalog.Decimal.Grammar

/-!
# JSON tokens

The lexemes of a JSON text. Two values never stand side by side in a JSON text,
so a numeral may end wherever it can no longer be continued: what follows it is
refused later unless it is a separator.
-/
namespace OpCatalog.Json

inductive Token where
  | openArray
  | closeArray
  | openObject
  | closeObject
  | colon
  | comma
  | null
  | bool (b : Bool)
  | num (n : Numeral)
  | str (s : Option String)
  deriving DecidableEq, Repr

def isSpace (c : Char) : Bool := c == ' ' || c == '\n' || c == '\t' || c == '\r'

namespace Token

def chars : Token → List Char
  | .openArray => ['[']
  | .closeArray => [']']
  | .openObject => ['\x7b']
  | .closeObject => ['\x7d']
  | .colon => [':']
  | .comma => [',']
  | .null => ['n', 'u', 'l', 'l']
  | .bool true => ['t', 'r', 'u', 'e']
  | .bool false => ['f', 'a', 'l', 's', 'e']
  | .num n => n.chars
  | .str (some s) => '"' :: Quoted.escape s.toList ++ ['"']
  | .str none => ['"', '\\', 'u', 'd', '8', '0', '0', '"']

/-- The token that a text starts with, and what follows it. -/
def read? : List Char → Option (Token × List Char)
  | '[' :: rest => some (.openArray, rest)
  | ']' :: rest => some (.closeArray, rest)
  | '\x7b' :: rest => some (.openObject, rest)
  | '\x7d' :: rest => some (.closeObject, rest)
  | ':' :: rest => some (.colon, rest)
  | ',' :: rest => some (.comma, rest)
  | 'n' :: 'u' :: 'l' :: 'l' :: rest => some (.null, rest)
  | 't' :: 'r' :: 'u' :: 'e' :: rest => some (.bool true, rest)
  | 'f' :: 'a' :: 'l' :: 's' :: 'e' :: rest => some (.bool false, rest)
  | '"' :: rest => (Quoted.unescape? rest).map fun (s, rest) => (.str s, rest)
  | cs => (Numeral.read? cs).map fun (n, rest) => (.num n, rest)

/-- The tokens of a text, at most `fuel` of them and the blanks between. -/
def readAll? : Nat → List Char → Option (List Token)
  | _, [] => some []
  | 0, _ :: _ => none
  | fuel + 1, c :: cs =>
    if isSpace c then readAll? fuel cs
    else do
      let (t, rest) ← read? (c :: cs)
      let ts ← readAll? fuel rest
      some (t :: ts)

end Token

/-- The tokens of a text; every step consumes a character. -/
def tokens? (cs : List Char) : Option (List Token) := Token.readAll? cs.length cs

end OpCatalog.Json
