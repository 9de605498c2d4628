import BitStore.Toml.Character

/-! Dates and times in TOML: a date, a time of day, or both joined by `T` or a
blank and perhaps followed by an offset. Seconds may be left out, and a fraction
may follow them. -/

namespace BitStore.Toml.Moment

/-- A number of exactly `n` digits, and what follows it. -/
def number? (n : Nat) (word : List Char) : Option (Nat × List Char) :=
  let front := word.take n
  if front.length = n ∧ front.all Char.isDigit then
    some (front.foldl (fun value c => 10 * value + (c.toNat - '0'.toNat)) 0, word.drop n)
  else
    none

/-- A two-digit number no larger than `most`, and what follows it. -/
def pair? (most : Nat) (word : List Char) : Option (List Char) := do
  let (n, rest) ← number? 2 word
  guard (n ≤ most)
  return rest

def daysIn (year month : Nat) : Nat :=
  match month with
  | 2 => if year % 4 = 0 ∧ (year % 100 ≠ 0 ∨ year % 400 = 0) then 29 else 28
  | 4 | 6 | 9 | 11 => 30
  | _ => 31

/-- A date such as `1979-05-27`, and what follows it. -/
def date? (word : List Char) : Option (List Char) := do
  let (year, rest) ← number? 4 word
  let (month, rest) ← number? 2 (← expect? '-' rest)
  let (day, rest) ← number? 2 (← expect? '-' rest)
  guard (1 ≤ month ∧ month ≤ 12 ∧ 1 ≤ day ∧ day ≤ daysIn year month)
  return rest

/-- The seconds of a time with their fraction, if there are any. -/
def seconds? (word : List Char) : Option (List Char) :=
  match word with
  | ':' :: cs => do
    match ← pair? 60 cs with
    | '.' :: fraction =>
      guard (fraction.head?.any Char.isDigit)
      return fraction.dropWhile Char.isDigit
    | rest => return rest
  | _ => some word

/-- A time of day such as `07:32:00.5`, and what follows it. -/
def time? (word : List Char) : Option (List Char) := do
  let rest ← pair? 23 word
  let rest ← pair? 59 (← expect? ':' rest)
  seconds? rest

/-- The word is empty or an offset from universal time. -/
def isOffset (word : List Char) : Bool :=
  match word with
  | [] => true
  | ['Z'] | ['z'] => true
  | '+' :: cs | '-' :: cs => ((pair? 23 cs).bind (expect? ':')).bind (pair? 59) == some []
  | _ => false

/-- The word is a date, a time or both. -/
def isMoment (word : List Char) : Bool :=
  time? word == some [] ||
    match date? word with
    | none => false
    | some [] => true
    | some (c :: cs) => (c == 'T' || c == 't' || c == ' ') && (time? cs).any isOffset

end BitStore.Toml.Moment
