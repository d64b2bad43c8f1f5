import OpCatalog.Text.File

/-!
# TOML strings

The four forms of a string: basic or literal, on one line or on several. Each
reader starts behind the opening delimiter and returns the text and what follows
the closing one. Line ends in a text are single line feeds, however they are
written.
-/
namespace OpCatalog.Toml

def isSpace (c : Char) : Bool := c == ' ' || c == '\t'

/-- A tab, or any character that does not control a device. -/
def isPrintable (c : Char) : Bool := c == '\t' || (decide (32 ≤ c.toNat) && c.toNat != 127)

def shortEscape? : Char → Option Char
  | '"' => some '"'
  | '\\' => some '\\'
  | 'b' => some '\x08'
  | 'f' => some '\x0c'
  | 'n' => some '\n'
  | 'r' => some '\r'
  | 't' => some '\t'
  | _ => none

/-- The character with the code point that the digits spell, if there is one. -/
def codePoint? (digits : List Char) : Option Char := do
  let n ← OpCatalog.Text.hexNumber? digits
  if n.isValidChar then some (Char.ofNat n) else none

def basic? : List Char → Option (List Char × List Char)
  | [] => none
  | '"' :: rest => some ([], rest)
  | '\\' :: 'u' :: a :: b :: c :: d :: rest => do
    let char ← codePoint? [a, b, c, d]
    let (text, rest) ← basic? rest
    some (char :: text, rest)
  | '\\' :: 'U' :: a :: b :: c :: d :: e :: f :: g :: h :: rest => do
    let char ← codePoint? [a, b, c, d, e, f, g, h]
    let (text, rest) ← basic? rest
    some (char :: text, rest)
  | '\\' :: c :: rest => do
    let char ← shortEscape? c
    let (text, rest) ← basic? rest
    some (char :: text, rest)
  | c :: rest =>
    if isPrintable c && c != '\\' then (basic? rest).map fun (text, rest) => (c :: text, rest)
    else none

def literal? : List Char → Option (List Char × List Char)
  | [] => none
  | '\'' :: rest => some ([], rest)
  | c :: rest =>
    if isPrintable c then (literal? rest).map fun (text, rest) => (c :: text, rest) else none

/-- The line ends here, blanks aside. -/
def endsLine (cs : List Char) : Bool :=
  match cs.dropWhile isSpace with
  | '\n' :: _ => true
  | '\r' :: '\n' :: _ => true
  | _ => false

/-- A basic string on several lines. `skipping` holds behind a backslash at the end
of a line, up to the next character that is no blank. Of the quotes before the end up
to two belong to the text. -/
def multilineBasic? (skipping : Bool) : List Char → Option (List Char × List Char)
  | [] => none
  | '"' :: '"' :: '"' :: '"' :: '"' :: rest => some (['"', '"'], rest)
  | '"' :: '"' :: '"' :: '"' :: rest => some (['"'], rest)
  | '"' :: '"' :: '"' :: rest => some ([], rest)
  | '\r' :: '\n' :: rest =>
    if skipping then multilineBasic? true rest
    else (multilineBasic? false rest).map fun (text, rest) => ('\n' :: text, rest)
  | '\n' :: rest =>
    if skipping then multilineBasic? true rest
    else (multilineBasic? false rest).map fun (text, rest) => ('\n' :: text, rest)
  | '\\' :: 'u' :: a :: b :: c :: d :: rest => do
    let char ← codePoint? [a, b, c, d]
    let (text, rest) ← multilineBasic? false rest
    some (char :: text, rest)
  | '\\' :: 'U' :: a :: b :: c :: d :: e :: f :: g :: h :: rest => do
    let char ← codePoint? [a, b, c, d, e, f, g, h]
    let (text, rest) ← multilineBasic? false rest
    some (char :: text, rest)
  | '\\' :: c :: rest =>
    if endsLine (c :: rest) then multilineBasic? true (c :: rest)
    else do
      let char ← shortEscape? c
      let (text, rest) ← multilineBasic? false rest
      some (char :: text, rest)
  | c :: rest =>
    if skipping && isSpace c then multilineBasic? true rest
    else if isPrintable c && c != '\\' then
      (multilineBasic? false rest).map fun (text, rest) => (c :: text, rest)
    else none

def multilineLiteral? : List Char → Option (List Char × List Char)
  | [] => none
  | '\'' :: '\'' :: '\'' :: '\'' :: '\'' :: rest => some (['\'', '\''], rest)
  | '\'' :: '\'' :: '\'' :: '\'' :: rest => some (['\''], rest)
  | '\'' :: '\'' :: '\'' :: rest => some ([], rest)
  | '\r' :: '\n' :: rest =>
    (multilineLiteral? rest).map fun (text, rest) => ('\n' :: text, rest)
  | c :: rest =>
    if isPrintable c || c == '\n' then
      (multilineLiteral? rest).map fun (text, rest) => (c :: text, rest)
    else none

/-- A line end right behind the opening delimiter is no part of the text. -/
def trimFirstLine : List Char → List Char
  | '\r' :: '\n' :: rest => rest
  | '\n' :: rest => rest
  | cs => cs

/-- A string in any of its forms. -/
def string? : List Char → Option (String × List Char)
  | '"' :: '"' :: '"' :: rest =>
    (multilineBasic? false (trimFirstLine rest)).map fun (s, rest) => (String.ofList s, rest)
  | '\'' :: '\'' :: '\'' :: rest =>
    (multilineLiteral? (trimFirstLine rest)).map fun (s, rest) => (String.ofList s, rest)
  | '"' :: rest => (basic? rest).map fun (s, rest) => (String.ofList s, rest)
  | '\'' :: rest => (literal? rest).map fun (s, rest) => (String.ofList s, rest)
  | _ => none

end OpCatalog.Toml
