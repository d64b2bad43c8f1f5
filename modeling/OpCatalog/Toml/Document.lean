import OpCatalog.Toml.Date
import OpCatalog.Toml.Text
import OpCatalog.Toml.Tree

/-!
# TOML documents

Keys, values and lines. Values nest, and dotted keys are long, only up to a limit,
which bounds the recursion. Each line and each element of an array or table consumes a
character, so the length of the text is fuel enough for lines and elements.
-/
namespace OpCatalog.Toml

/-- How deep arrays and inline tables nest, and how many names a dotted key has, at
most. -/
def nestingLimit : Nat := 79

def skipSpace (cs : List Char) : List Char := cs.dropWhile isSpace

/-- What follows a comment, if the text starts with one; the line end is left. -/
def skipComment? : List Char → Option (List Char)
  | '#' :: cs =>
    match cs.dropWhile isPrintable with
    | [] => some []
    | '\n' :: rest => some ('\n' :: rest)
    | '\r' :: '\n' :: rest => some ('\n' :: rest)
    | _ => none
  | cs => some cs

/-- What follows the end of a line, with blanks and a comment before it. -/
def endLine? (cs : List Char) : Option (List Char) := do
  let cs ← skipComment? (skipSpace cs)
  match cs with
  | [] => some []
  | '\n' :: rest => some rest
  | '\r' :: '\n' :: rest => some rest
  | _ => none

/-- Skips blanks, comments and line ends, as between the elements of an array. -/
def skipLines? : Nat → List Char → Option (List Char)
  | 0, cs => some cs
  | fuel + 1, cs =>
    match skipSpace cs with
    | '#' :: rest => (endLine? ('#' :: rest)).bind (skipLines? fuel)
    | '\n' :: rest => skipLines? fuel rest
    | '\r' :: '\n' :: rest => skipLines? fuel rest
    | rest => some rest

def isBareKey (c : Char) : Bool := c.isAlphanum || c == '-' || c == '_'

/-- A bare key, or a string on one line. -/
def simpleKey? : List Char → Option (String × List Char)
  | '"' :: rest => (basic? rest).map fun (s, rest) => (String.ofList s, rest)
  | '\'' :: rest => (literal? rest).map fun (s, rest) => (String.ofList s, rest)
  | cs =>
    match cs.takeWhile isBareKey with
    | [] => none
    | key => some (String.ofList key, cs.dropWhile isBareKey)

/-- A dotted key of at most so many names: the path before the last name, and that
name. Blanks are skipped around every name. -/
def keyWithin? : Nat → List Char → Option ((List String × String) × List Char)
  | 0, _ => none
  | names + 1, cs => do
    let (name, rest) ← simpleKey? (skipSpace cs)
    match skipSpace rest with
    | '.' :: rest =>
      (keyWithin? names rest).map fun ((path, last), rest) => ((name :: path, last), rest)
    | rest => some (([], name), rest)

def key? : List Char → Option ((List String × String) × List Char) := keyWithin? nestingLimit

/-- A value without elements. -/
def scalar? (cs : List Char) : Option (Toml × List Char) :=
  match cs with
  | '"' :: _ | '\'' :: _ => (string? cs).map fun (s, rest) => (.string s, rest)
  | 't' :: 'r' :: 'u' :: 'e' :: rest => some (.boolean true, rest)
  | 'f' :: 'a' :: 'l' :: 's' :: 'e' :: rest => some (.boolean false, rest)
  | cs =>
    match datetime? cs with
    | some (text, rest) => some (.datetime text, rest)
    | none =>
      match float? cs with
      | some (x, rest) => some (.float x, rest)
      | none => (integer? cs).map fun (n, rest) => (.integer n, rest)

/-- The elements of an array up to its bracket; a comma may follow the last one. -/
def items? (value? : List Char → Option (Toml × List Char)) :
    Nat → List Char → Option (List Toml × List Char)
  | 0, _ => none
  | fuel + 1, cs => do
    match ← skipLines? (fuel + 1) cs with
    | ']' :: rest => some ([], rest)
    | cs =>
      let (v, rest) ← value? cs
      match ← skipLines? fuel rest with
      | ']' :: rest => some ([v], rest)
      | ',' :: rest => (items? value? fuel rest).map fun (vs, rest) => (v :: vs, rest)
      | _ => none

/-- The pairs of an inline table up to its brace, added to those read before. -/
def pairs? (value? : List Char → Option (Toml × List Char)) :
    Nat → Entries → List Char → Option (Entries × List Char)
  | 0, _, _ => none
  | fuel + 1, es, cs => do
    let ((path, key), rest) ← key? cs
    match rest with
    | '=' :: rest =>
      let (v, rest) ← value? (skipSpace rest)
      let es ← es.assign path key v
      match skipSpace rest with
      | '\x7d' :: rest => some (es, rest)
      | ',' :: rest => pairs? value? fuel es rest
      | _ => none
    | _ => none

/-- A value in which arrays and inline tables nest at most so deep. -/
def valueWithin? (fuel : Nat) : Nat → List Char → Option (Toml × List Char)
  | depth + 1, '[' :: rest =>
    (items? (valueWithin? fuel depth) fuel rest).map fun (vs, rest) => (.array vs, rest)
  | depth + 1, '\x7b' :: rest =>
    match skipSpace rest with
    | '\x7d' :: rest => some (.table [], rest)
    | rest =>
      (pairs? (valueWithin? fuel depth) fuel [] rest).map fun (es, rest) =>
        (.table (tomlEntries es), rest)
  | _, cs => scalar? cs

def value? (fuel : Nat) : List Char → Option (Toml × List Char) := valueWithin? fuel nestingLimit

/-- What has been read of a document: its tables, and the table that the last header
opened. -/
structure Progress where
  root : Entries := []
  path : List String := []

namespace Progress

/-- A header in brackets, behind the first of them. -/
def header? (p : Progress) (cs : List Char) : Option (Progress × List Char) :=
  match cs with
  | '[' :: cs => do
    let ((path, key), rest) ← key? cs
    match rest with
    | ']' :: ']' :: rest =>
      let root ← p.root.openElement path key
      (endLine? rest).map (⟨root, path ++ [key]⟩, ·)
    | _ => none
  | cs => do
    let ((path, key), rest) ← key? cs
    match rest with
    | ']' :: rest =>
      let root ← p.root.openTable path key
      (endLine? rest).map (⟨root, path ++ [key]⟩, ·)
    | _ => none

/-- A key and its value, which go into the current table. -/
def pair? (fuel : Nat) (p : Progress) (cs : List Char) : Option (Progress × List Char) := do
  let ((path, key), rest) ← key? cs
  match rest with
  | '=' :: rest =>
    let (v, rest) ← value? fuel (skipSpace rest)
    let root ← p.root.change (·.assign path key v) p.path
    (endLine? rest).map (⟨root, p.path⟩, ·)
  | _ => none

/-- Reads lines up to the end of the text. -/
def lines? : Nat → Progress → List Char → Option Progress
  | fuel, p, cs =>
    match skipSpace cs, fuel with
    | [], _ => some p
    | _, 0 => none
    | '\n' :: rest, fuel + 1 => lines? fuel p rest
    | '\r' :: '\n' :: rest, fuel + 1 => lines? fuel p rest
    | '#' :: rest, fuel + 1 => (endLine? ('#' :: rest)).bind (lines? fuel p)
    | '[' :: rest, fuel + 1 => (p.header? rest).bind fun (p, rest) => lines? fuel p rest
    | cs, fuel + 1 => (p.pair? fuel cs).bind fun (p, rest) => lines? fuel p rest

end Progress

/-- The top table of a document. A byte order mark at the start is skipped. -/
def parse? (text : String) : Option (List (String × Toml)) :=
  let cs := match text.toList with
    | '\ufeff' :: cs => cs
    | cs => cs
  (Progress.lines? cs.length {} cs).map fun p => tomlEntries p.root

end OpCatalog.Toml
