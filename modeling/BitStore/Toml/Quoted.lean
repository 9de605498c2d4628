import BitStore.Toml.Character

/-! Quoted text in TOML. Between double quotes there are escapes, between single
quotes there are none, and either may span lines between triple quotes. The
reader is a machine that looks at one character at a time. -/

namespace BitStore.Toml

namespace Quoted

/-- The quotes around a text. -/
structure Quotes where
  mark : Char
  multiline : Bool

/-- Where a reader stands. -/
inductive State where
  /-- In the text, behind so many marks in a row. -/
  | text (marks : Nat)
  | escape
  /-- In an escape by code point, with digits still to come. -/
  | code (left value : Nat)
  /-- Behind a backslash and blanks, before the line break they hide. -/
  | beforeBreak
  /-- In the blanks and line breaks that a backslash hides. -/
  | afterBreak

/-- What one character does. -/
inductive Step where
  | push (c : Char) (next : State)
  | skip (next : State)
  /-- The text ends here, and the last `n` characters read were part of the closing quotes. -/
  | close (n : Nat)
  /-- The text ended before this character, with three marks. -/
  | closeBefore
  | refuse

def textStep (q : Quotes) (marks : Nat) (c : Char) (rest : List Char) : Step :=
  if c = q.mark then
    if !q.multiline then .close 0
    else if marks = 4 then .close 2
    else .push c (.text (marks + 1))
  else if 3 ≤ marks then .closeBefore
  else if c = '\\' ∧ q.mark = '"' then .skip .escape
  else if isPlain c || (q.multiline && startsBreak c rest) then .push c (.text 0)
  else .refuse

/-- What stands behind a backslash: a letter, a code point or a hidden line break. -/
def escapeStep (q : Quotes) (c : Char) (rest : List Char) : Step :=
  match c with
  | 'b' => .push '\x08' (.text 0)
  | 't' => .push '\t' (.text 0)
  | 'n' => .push '\n' (.text 0)
  | 'f' => .push '\x0c' (.text 0)
  | 'r' => .push '\r' (.text 0)
  | 'e' => .push '\x1b' (.text 0)
  | '"' => .push '"' (.text 0)
  | '\\' => .push '\\' (.text 0)
  | 'x' => .skip (.code 2 0)
  | 'u' => .skip (.code 4 0)
  | 'U' => .skip (.code 8 0)
  | _ =>
    if !q.multiline then .refuse
    else if c = '\n' then .skip .afterBreak
    else if c = ' ' || c = '\t' || startsBreak c rest then .skip .beforeBreak
    else .refuse

def codeStep (left value : Nat) (c : Char) : Step :=
  match digit? 16 c with
  | none => .refuse
  | some d =>
    let value := 16 * value + d
    if 1 < left then .skip (.code (left - 1) value)
    else if value.isValidChar then .push (Char.ofNat value) (.text 0)
    else .refuse

def State.step (q : Quotes) (s : State) (c : Char) (rest : List Char) : Step :=
  let isBlank := c == ' ' || c == '\t' || startsBreak c rest
  match s with
  | .text marks => textStep q marks c rest
  | .escape => escapeStep q c rest
  | .code left value => codeStep left value c
  | .beforeBreak => if c = '\n' then .skip .afterBreak else if isBlank then .skip .beforeBreak else .refuse
  | .afterBreak => if isBlank then .skip .afterBreak else textStep q 0 c rest

/-- Reads on behind the characters `read`, newest first, up to the closing quotes. -/
def readAfter (q : Quotes) (read : List Char) : State → List Char → Option (String × List Char)
  | .text marks, [] => if 3 ≤ marks then some (String.ofList (read.drop 3).reverse, []) else none
  | _, [] => none
  | s, c :: cs =>
    match s.step q c cs with
    | .push d next => readAfter q (d :: read) next cs
    | .skip next => readAfter q read next cs
    | .close n => some (String.ofList (read.drop n).reverse, cs)
    | .closeBefore => some (String.ofList (read.drop 3).reverse, c :: cs)
    | .refuse => none

/-- A text on one line, opening mark included, and what follows it. -/
def readLine? : List Char → Option (String × List Char)
  | '"' :: cs => readAfter ⟨'"', false⟩ [] (.text 0) cs
  | '\'' :: cs => readAfter ⟨'\'', false⟩ [] (.text 0) cs
  | _ => none

/-- The line break right behind triple quotes is not part of the text. -/
def dropBreak : List Char → List Char
  | '\n' :: cs => cs
  | '\r' :: '\n' :: cs => cs
  | cs => cs

/-- A text in quotes of any kind, and what follows it. -/
def read? : List Char → Option (String × List Char)
  | '"' :: '"' :: '"' :: cs => readAfter ⟨'"', true⟩ [] (.text 0) (dropBreak cs)
  | '\'' :: '\'' :: '\'' :: cs => readAfter ⟨'\'', true⟩ [] (.text 0) (dropBreak cs)
  | cs => readLine? cs

end Quoted

end BitStore.Toml
