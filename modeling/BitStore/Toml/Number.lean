import BitStore.Toml.Character

/-! Numbers in TOML. The form of a word decides whether a document may hold it,
and the number it denotes is worked out from the digits alone. Integers are
decimal, or hexadecimal, octal or binary behind a prefix; floats have a fraction,
an exponent or both. Some words have the form of a number and still give none:
a prefix without digits, digits that the base lacks, and numbers too large to
be held. -/

namespace BitStore.Toml.Number

/-! ### Form -/

/-- Splits off a sign. -/
def splitSign : List Char → Option Char × List Char
  | '-' :: cs => (some '-', cs)
  | '+' :: cs => (some '+', cs)
  | cs => (none, cs)

/-- Splits off the prefix of a base other than ten. -/
def splitBase? : List Char → Option (Nat × List Char)
  | '0' :: 'x' :: cs => some (16, cs)
  | '0' :: 'o' :: cs => some (8, cs)
  | '0' :: 'b' :: cs => some (2, cs)
  | _ => none

def isDigitIn (base : Nat) (c : Char) : Bool :=
  (digit? base c).isSome

/-- Every underscore stands between digits, in characters behind a digit or not. -/
def underscoresFitAfter (isDigit : Char → Bool) : (afterDigit : Bool) → List Char → Bool
  | _, [] => true
  | afterDigit, c :: cs =>
    if c = '_' then afterDigit && cs.head?.any isDigit && underscoresFitAfter isDigit false cs
    else underscoresFitAfter isDigit (isDigit c) cs

/-- Every underscore stands between digits. -/
def underscoresFit (isDigit : Char → Bool) (cs : List Char) : Bool :=
  underscoresFitAfter isDigit false cs

/-- No zero stands in front of further digits. -/
def hasNoLeadingZero (digits : List Char) : Bool :=
  digits.head? != some '0' || digits.length == 1

/-- A word in the form of an integer. A decimal one is looked at no further than its
underscores, and a hexadecimal digit on both sides of each will do. -/
def isInteger (word : List Char) : Bool :=
  match splitBase? word with
  | some (base, cs) => cs.all (fun c => c == '_' || isDigitIn base c) && underscoresFit (isDigitIn 16) cs
  | none =>
    let (_, body) := splitSign word
    let rest := body.dropWhile Char.isDigit
    !body.isEmpty && hasNoLeadingZero body && rest.head?.all (· == '_') && !rest.any (".eE ".toList.contains ·) &&
      underscoresFit (isDigitIn 16) body

/-- The digits at the front, one at least, without the underscores among them, and what follows. -/
def digits? (cs : List Char) : Option (List Char × List Char) :=
  let (front, rest) := cs.span fun c => c.isDigit || c == '_'
  let digits := front.filter (· != '_')
  if digits.isEmpty then none else some (digits, rest)

/-- The digits of a float. -/
structure FloatDigits where
  whole : List Char
  fraction : List Char
  isNegativeExponent : Bool
  exponent : List Char

/-- The digits of a word in the form of a float. -/
def float? (word : List Char) : Option FloatDigits := do
  let (_, body) := splitSign word
  guard (underscoresFit Char.isDigit body)
  let (whole, rest) ← digits? body
  guard (body.head? ≠ some '0' ∨ whole.length = 1)
  let (fraction, exponent) ←
    match rest with
    | '.' :: cs => digits? cs
    | _ => some ([], rest)
  match exponent with
  | [] =>
    guard (fraction ≠ [])
    return ⟨whole, fraction, false, ['0']⟩
  | mark :: cs =>
    guard (mark = 'e' ∨ mark = 'E')
    let (sign?, cs) := splitSign cs
    let (exponent, rest) ← digits? cs
    guard (rest = [])
    return ⟨whole, fraction, sign? = some '-', exponent⟩

/-- An infinity, or no number at all. -/
def isSpecial (word : List Char) : Bool :=
  let (_, body) := splitSign word
  body == "inf".toList || body == "nan".toList

/-! ### Value -/

/-- The number that digits denote, if there are any. -/
def ofDigits? (base : Nat) (digits : List Char) : Option Nat :=
  if digits.isEmpty then none
  else digits.foldlM (fun n c => (digit? base c).map (base * n + ·)) 0

/-- The integer that a word denotes, if a signed or unsigned word of 128 bits can hold it. -/
def integer? (word : List Char) : Option Int := do
  let n : Int ←
    match splitBase? word with
    | some (base, cs) => (ofDigits? base (cs.filter (· != '_'))).map Int.ofNat
    | none =>
      let (sign?, body) := splitSign word
      (ofDigits? 10 (body.filter (· != '_'))).map fun n => if sign? = some '-' then -(n : Int) else n
  guard (if n < 0 then n.natAbs ≤ 1 <<< 127 else n.natAbs < 1 <<< 128)
  return n

/-- The largest double is below `significand * 10 ^ exponent`, even after rounding. -/
def overflows (significand : Nat) (exponent : Int) : Bool :=
  let magnitude := exponent + (Nat.repr significand).length
  if significand = 0 ∨ magnitude < 300 then false
  else if 320 < magnitude then true
  else
    let bound := 1 <<< 1024 - 1 <<< 970
    if 0 ≤ exponent then bound ≤ significand * Nat.pow 10 exponent.toNat
    else bound * Nat.pow 10 (-exponent).toNat ≤ significand

/-- A double can hold the float. -/
def FloatDigits.isHeld (f : FloatDigits) : Bool :=
  match ofDigits? 10 (f.whole ++ f.fraction), ofDigits? 10 f.exponent with
  | some significand, some e =>
    let exponent : Int := if f.isNegativeExponent then -(e : Int) else e
    !overflows significand (exponent - f.fraction.length)
  | _, _ => false

end BitStore.Toml.Number
