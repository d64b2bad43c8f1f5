/-!
# Texts

Blank texts, hexadecimal digits, the visible form of a text between quotes, and
what reading a file gives: its bytes if there is one, and the text that they
encode if they do.
-/
namespace OpCatalog.Text

/-! ## Blank text -/

/-- The ranges of the Unicode property White_Space, both ends included. -/
def blankRanges : List (Nat × Nat) :=
  [(0x9, 0xd), (0x20, 0x20), (0x85, 0x85), (0xa0, 0xa0), (0x1680, 0x1680), (0x2000, 0x200a),
    (0x2028, 0x2029), (0x202f, 0x202f), (0x205f, 0x205f), (0x3000, 0x3000)]

def isBlankChar (c : Char) : Bool :=
  blankRanges.any fun (first, last) => decide (first ≤ c.toNat ∧ c.toNat ≤ last)

/-- Empty, or white space only. -/
def isBlank (s : String) : Bool := s.toList.all isBlankChar

theorem isBlankChar_of_isWhitespace {c : Char} (h : c.isWhitespace = true) :
    isBlankChar c = true := by
  simp only [Char.isWhitespace, Bool.or_eq_true, decide_eq_true_eq] at h
  rcases h with ((rfl | rfl) | rfl) | rfl <;> decide

example : (blankRanges.map fun (first, last) => last - first + 1).sum = 25 := by decide

/-! ## Hexadecimal digits

Both cases are read and lower case is written.
-/

/-- The last hexadecimal digit of a number. -/
def hexDigit (n : Nat) : Char := Nat.digitChar (n % 16)

def hexValue? (c : Char) : Option Nat :=
  if '0' ≤ c ∧ c ≤ '9' then some (c.toNat - 48)
  else if 'a' ≤ c ∧ c ≤ 'f' then some (c.toNat - 87)
  else if 'A' ≤ c ∧ c ≤ 'F' then some (c.toNat - 55)
  else none

def hexNumber? (digits : List Char) : Option Nat :=
  digits.foldlM (fun n c => (hexValue? c).map (16 * n + ·)) 0

theorem hexValue?_hexDigit (n : Nat) : hexValue? (hexDigit n) = some (n % 16) := by
  have h : n % 16 < 16 := Nat.mod_lt _ (by decide)
  unfold hexDigit
  generalize n % 16 = d at h
  revert d
  decide

/-! ## Visible text

A text between quotes in which no character is mistaken for another: quotes and
backslashes are escaped, and white space other than the space itself is named,
the common ones by a letter and the rest by code point.
-/

def hexDigits (n : Nat) : List Char := Nat.toDigits 16 n

def visibleChar (c : Char) : List Char :=
  match c with
  | '\t' => ['\\', 't']
  | '\n' => ['\\', 'n']
  | '\r' => ['\\', 'r']
  | '"' => ['\\', '"']
  | '\\' => ['\\', '\\']
  | ' ' => [' ']
  | c => if isBlankChar c then ['\\', 'u', '\x7b'] ++ hexDigits c.toNat ++ ['\x7d'] else [c]

def visible (s : String) : String :=
  String.ofList ('"' :: s.toList.flatMap visibleChar ++ ['"'])

/-! ## Files -/

/-- Why a file has no text. -/
inductive FileFault where
  | missing (path : String)
  | notText (path : String)
  deriving DecidableEq, Repr

namespace FileFault

def message : FileFault → String
  | .missing path => "Failed to read " ++ path ++ ": No such file or directory (os error 2)"
  | .notText path => "Failed to read " ++ path ++ ": stream did not contain valid UTF-8"

end FileFault

/-- The text of a file with the given bytes, `none` if there is no such file. -/
def ofFile (path : String) : Option ByteArray → Except FileFault String
  | none => .error (.missing path)
  | some bytes =>
    match String.fromUTF8? bytes with
    | none => .error (.notText path)
    | some text => .ok text

end OpCatalog.Text
