import OpCatalog.Json.Basic
import OpCatalog.Json.Token

/-!
# Writing JSON

One writer for every layout. A layout says what stands between the elements of an
array or object at a given depth, and after the name of a member.
-/
namespace OpCatalog.Json

structure Layout where
  newline : Nat → List Char
  colon : List Char

namespace Layout

/-- No blanks at all. -/
def compact : Layout := ⟨fun _ => [], [':']⟩

/-- An element to a line, two spaces of indentation for each depth. -/
def pretty : Layout := ⟨fun depth => '\n' :: List.replicate (2 * depth) ' ', [':', ' ']⟩

end Layout

mutual

def chars (layout : Layout) (depth : Nat) : Json → List Char
  | .null => Token.null.chars
  | .bool b => (Token.bool b).chars
  | .num n => (Token.num n).chars
  | .str s => (Token.str (some s)).chars
  | .garbled => (Token.str none).chars
  | .arr [] => ['[', ']']
  | .arr (v :: vs) =>
    '[' :: layout.newline (depth + 1) ++ chars layout (depth + 1) v ++
      itemChars layout (depth + 1) vs ++ layout.newline depth ++ [']']
  | .obj [] => ['\x7b', '\x7d']
  | .obj ((name, v) :: ms) =>
    '\x7b' :: layout.newline (depth + 1) ++ (Token.str (some name)).chars ++ layout.colon ++
      chars layout (depth + 1) v ++ memberChars layout (depth + 1) ms ++
      layout.newline depth ++ ['\x7d']

/-- The further elements of an array, each after a comma. -/
def itemChars (layout : Layout) (depth : Nat) : List Json → List Char
  | [] => []
  | v :: vs => ',' :: layout.newline depth ++ chars layout depth v ++ itemChars layout depth vs

/-- The further members of an object, each after a comma. -/
def memberChars (layout : Layout) (depth : Nat) : List (String × Json) → List Char
  | [] => []
  | (name, v) :: ms =>
    ',' :: layout.newline depth ++ (Token.str (some name)).chars ++ layout.colon ++
      chars layout depth v ++ memberChars layout depth ms

end

def render (layout : Layout) (v : Json) : String := String.ofList (chars layout 0 v)

def compact (v : Json) : String := v.render .compact

def pretty (v : Json) : String := v.render .pretty

end OpCatalog.Json
