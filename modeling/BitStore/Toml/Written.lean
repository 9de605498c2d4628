/-! Writing text in TOML. The plainest quotes that show the text as it is are
chosen: double, single, then triple ones of either kind. Where none will do the
text is escaped between double quotes, triple ones if it has several lines. -/

namespace BitStore.Toml.Written

/-- Control characters other than tab and line feed show only as escapes. -/
def isControl (c : Char) : Bool :=
  (c < ' ' && c != '\t' && c != '\n') || c == '\x7f'

/-- The longest run of a character and the run at the end, behind one more character. -/
def runsAfter (mark : Char) (runs : Nat × Nat) (c : Char) : Nat × Nat :=
  let run := if c = mark then runs.2 + 1 else 0
  (max runs.1 run, run)

/-- The longest run of a character. -/
def longestRun (mark : Char) (cs : List Char) : Nat :=
  (cs.foldl (runsAfter mark) (0, 0)).1

/-- How a text is quoted. -/
inductive Style where
  | basic | literal | basicLines | literalLines
  deriving DecidableEq

def Style.delimiter : Style → String
  | .basic => "\""
  | .literal => "'"
  | .basicLines => "\"\"\""
  | .literalLines => "'''"

/-- The plainest style that can hold a text. -/
def styleOf (cs : List Char) : Style :=
  let hasControl := cs.any isControl
  let hasBreak := cs.contains '\n'
  let hasBackslash := cs.contains '\\'
  let doubles := longestRun '"' cs
  let singles := longestRun '\'' cs
  if !hasControl && !hasBackslash && doubles = 0 && !hasBreak then .basic
  else if !hasControl && singles = 0 && !hasBreak then .literal
  else if !hasControl && !hasBackslash && doubles ≤ 2 then .basicLines
  else if !hasControl && singles ≤ 2 then .literalLines
  else if hasBreak then .basicLines
  else .basic

/-- The escape of a control character that has no short one. -/
def codeEscape (c : Char) : String :=
  let digits := (Nat.toDigits 16 c.toNat).map Char.toUpper
  "\\u" ++ String.ofList (List.replicate (4 - digits.length) '0' ++ digits)

/-- How a character other than a double quote is written between double quotes. -/
def escapeChar (lines : Bool) (c : Char) : String :=
  match c with
  | '\x08' => "\\b"
  | '\t' => "\\t"
  | '\n' => if lines then "\n" else "\\n"
  | '\x0c' => "\\f"
  | '\r' => "\\r"
  | '\\' => "\\\\"
  | _ => if isControl c then codeEscape c else String.singleton c

/-- A text with its escapes, behind a run of `run` double quotes. Up to two quotes
in a row stand as they are between triple ones. -/
def escape (lines : Bool) (run : Nat) : List Char → String
  | [] => ""
  | c :: cs =>
    if c = '"' then
      if lines ∧ run < 2 then "\"" ++ escape lines (run + 1) cs else "\\\"" ++ escape lines 0 cs
    else
      escapeChar lines c ++ escape lines 0 cs

/-- The text in quotes. Text of several lines starts on a line of its own. -/
def quote (text : String) : String :=
  let cs := text.toList
  let style := styleOf cs
  let body :=
    match style with
    | .basic => escape false 0 cs
    | .basicLines => (if cs.contains '\n' then "\n" else "") ++ escape true 0 cs
    | .literal => text
    | .literalLines => (if cs.contains '\n' then "\n" else "") ++ text
  style.delimiter ++ body ++ style.delimiter

end BitStore.Toml.Written
