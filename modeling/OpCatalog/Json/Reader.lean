import OpCatalog.Json.Basic
import OpCatalog.Json.Token

/-!
# Reading JSON

A recursive reader over tokens. Each array or object spends two units of fuel on
one token, so twice the number of tokens is always enough.
-/
namespace OpCatalog.Json

mutual

/-- The value that a list of tokens starts with, and what follows it. -/
def value? : Nat → List Token → Option (Json × List Token)
  | 0, _ => none
  | fuel + 1, ts =>
    match ts with
    | .null :: ts => some (.null, ts)
    | .bool b :: ts => some (.bool b, ts)
    | .num n :: ts => some (.num n, ts)
    | .str (some s) :: ts => some (.str s, ts)
    | .str none :: ts => some (.garbled, ts)
    | .openArray :: .closeArray :: ts => some (.arr [], ts)
    | .openArray :: ts => (items? fuel ts).map fun (vs, ts) => (.arr vs, ts)
    | .openObject :: .closeObject :: ts => some (.obj [], ts)
    | .openObject :: ts => (members? fuel ts).map fun (ms, ts) => (ofMembers ms, ts)
    | _ => none

/-- One or more values between commas, and the bracket that ends them. -/
def items? : Nat → List Token → Option (List Json × List Token)
  | 0, _ => none
  | fuel + 1, ts =>
    match value? fuel ts with
    | some (v, .comma :: ts) => (items? fuel ts).map fun (vs, ts) => (v :: vs, ts)
    | some (v, .closeArray :: ts) => some ([v], ts)
    | _ => none

/-- One or more members between commas, and the brace that ends them. -/
def members? : Nat → List Token → Option (List (Option String × Json) × List Token)
  | 0, _ => none
  | fuel + 1, ts =>
    match ts with
    | .str name :: .colon :: ts =>
      match value? fuel ts with
      | some (v, .comma :: ts) => (members? fuel ts).map fun (ms, ts) => ((name, v) :: ms, ts)
      | some (v, .closeObject :: ts) => some ([(name, v)], ts)
      | _ => none
    | _ => none

end

/-- The one value that a list of tokens consists of. -/
def ofTokens? (ts : List Token) : Option Json :=
  match value? (2 * ts.length) ts with
  | some (v, []) => some v
  | _ => none

/-- The value of a JSON text. -/
def parse? (text : String) : Option Json := (tokens? text.toList).bind ofTokens?

end OpCatalog.Json
