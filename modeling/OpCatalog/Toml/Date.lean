import OpCatalog.Toml.Number

/-!
# TOML dates and times

A date, a time of day, or both with or without an offset. Months have their days
in the Gregorian calendar and a minute may have a leap second. Each reader returns
the normal form of what it reads: `T` between date and time, nine digits of a
second at most, `Z` in upper case.
-/
namespace OpCatalog.Toml

/-- The number that exactly `count` decimal digits spell. -/
def fixedNumber? (count : Nat) (cs : List Char) : Option (Nat × List Char) :=
  let ds := cs.take count
  if ds.length = count ∧ ds.all isDecimal then some (numberIn 10 ds, cs.drop count) else none

def char? (c : Char) : List Char → Option (List Char)
  | d :: rest => if c = d then some rest else none
  | [] => none

def isLeapYear (year : Nat) : Bool := year % 4 == 0 && (year % 100 != 0 || year % 400 == 0)

def daysIn (year month : Nat) : Nat :=
  match month with
  | 2 => if isLeapYear year then 29 else 28
  | 4 | 6 | 9 | 11 => 30
  | _ => 31

/-- A date, which has one form only. -/
def date? (cs : List Char) : Option (List Char × List Char) := do
  let (year, rest) ← fixedNumber? 4 cs
  let rest ← char? '-' rest
  let (month, rest) ← fixedNumber? 2 rest
  let rest ← char? '-' rest
  let (day, rest) ← fixedNumber? 2 rest
  if 1 ≤ month ∧ month ≤ 12 ∧ 1 ≤ day ∧ day ≤ daysIn year month then some (cs.take 10, rest)
  else none

/-- The digits of a second after the point: nine at most, and no zeros at the end. -/
def fractionForm (digits : List Char) : List Char :=
  match (digits.take 9).reverse.dropWhile (· == '0') with
  | [] => []
  | kept => '.' :: kept.reverse

/-- A time of day. -/
def time? (cs : List Char) : Option (List Char × List Char) := do
  let (hour, rest) ← fixedNumber? 2 cs
  let rest ← char? ':' rest
  let (minute, rest) ← fixedNumber? 2 rest
  let rest ← char? ':' rest
  let (second, rest) ← fixedNumber? 2 rest
  if hour ≤ 23 ∧ minute ≤ 59 ∧ second ≤ 60 then
    match rest with
    | '.' :: rest =>
      match rest.takeWhile isDecimal with
      | [] => none
      | digits => some (cs.take 8 ++ fractionForm digits, rest.dropWhile isDecimal)
    | rest => some (cs.take 8, rest)
  else none

/-- An offset, nothing if there is none. No hours and no minutes are positive. -/
def offset? : List Char → Option (List Char × List Char)
  | [] => some ([], [])
  | c :: cs =>
    if c == 'Z' || c == 'z' then some (['Z'], cs)
    else if c == '+' || c == '-' then do
      let (hour, rest) ← fixedNumber? 2 cs
      let rest ← char? ':' rest
      let (minute, rest) ← fixedNumber? 2 rest
      if hour ≤ 23 ∧ minute ≤ 59 then
        some ((if hour = 0 ∧ minute = 0 then '+' else c) :: cs.take 5, rest)
      else none
    else some ([], c :: cs)

/-- A time of day with an offset or without. -/
def offsetTime? (cs : List Char) : Option (List Char × List Char) := do
  let (time, rest) ← time? cs
  let (offset, rest) ← offset? rest
  some (time ++ offset, rest)

/-- A date with or without a time, or a time. A blank joins date and time only if a time
comes after it. -/
def dateTime? (cs : List Char) : Option (List Char × List Char) :=
  match date? cs with
  | none => time? cs
  | some (date, rest) =>
    let joined := (offsetTime? (rest.drop 1)).map fun (time, rest) => (date ++ 'T' :: time, rest)
    match rest with
    | 'T' :: _ | 't' :: _ => joined
    | ' ' :: cs => if (time? cs).isSome then joined else some (date, rest)
    | _ => some (date, rest)

/-- The normal form of the date or time that a text starts with, and what follows it. -/
def datetime? (cs : List Char) : Option (String × List Char) :=
  (dateTime? cs).map fun (form, rest) => (String.ofList form, rest)

end OpCatalog.Toml
