import BitStore.Toml.Moment
import BitStore.Toml.Number
import BitStore.Toml.Quoted
import BitStore.Toml.Table

/-! Reading TOML documents. A document is a sequence of lines, each blank, a
header or a key with its value; arrays and inline tables may span lines. A
reader takes the characters still unread and returns what it read with the rest,
or nothing where the text breaks the rules. -/

namespace BitStore.Toml

/-! ### Blanks and comments -/

def isBlank (c : Char) : Bool :=
  c == ' ' || c == '\t'

def skipBlanks (cs : List Char) : List Char :=
  cs.dropWhile isBlank

/-- Skips blanks, line breaks and comments, from inside a comment or not. -/
def skipSpace : (inComment : Bool) → List Char → List Char
  | _, [] => []
  | inComment, c :: cs =>
    if startsBreak c cs then skipSpace false cs
    else if inComment then if isPlain c then skipSpace true cs else c :: cs
    else if c = ' ' ∨ c = '\t' then skipSpace false cs
    else if c = '#' then skipSpace true cs
    else c :: cs

/-- The next line, if nothing but blanks and a comment is left on this one. -/
def nextLine? (cs : List Char) : Option (List Char) :=
  let rest :=
    match skipBlanks cs with
    | '#' :: comment => comment.dropWhile isPlain
    | rest => rest
  match rest with
  | [] => some []
  | '\n' :: rest => some rest
  | '\r' :: '\n' :: rest => some rest
  | _ => none

/-! ### Keys -/

def isBareKey (c : Char) : Bool :=
  c.isAlphanum || c == '_' || c == '-'

/-- One part of a key, bare or quoted. -/
def keyPart? (cs : List Char) : Option (String × List Char) :=
  match cs.span isBareKey with
  | ([], _) => Quoted.readLine? cs
  | (word, rest) => some (String.ofList word, rest)

/-- How many parts a key may have, and how deeply arrays and inline tables may nest. -/
def maxDepth : Nat := 80

/-- The rest of a key of at most `parts` further parts: the parts before the last, the last, what follows. -/
def keyAfter? (front : List String) : (parts : Nat) → List Char → Option (List String × String × List Char)
  | 0, _ => none
  | parts + 1, cs => do
    let (part, rest) ← keyPart? (skipBlanks cs)
    match skipBlanks rest with
    | '.' :: rest => keyAfter? (front ++ [part]) parts rest
    | rest => return (front, part, rest)

/-- A key with its blanks: the parts before the last, the last, and what follows. -/
def key? (cs : List Char) : Option (List String × String × List Char) :=
  keyAfter? [] maxDepth cs

/-! ### Values -/

/-- Characters other than blanks that end a word outside quotes. -/
def endsWord (c : Char) : Bool :=
  "\r\n#,[]\x7b\x7d=".toList.contains c

/-- The rest of a word outside quotes behind the characters `read` and then `blanks`, newest
first, and what follows it. Blanks are part of the word only if it goes on behind them. -/
def wordAfter (read blanks : List Char) : List Char → List Char × List Char
  | [] => (read.reverse, blanks.reverse)
  | c :: cs =>
    if isBlank c then wordAfter read (c :: blanks) cs
    else if endsWord c || (!blanks.isEmpty && (c == '"' || c == '\'')) then (read.reverse, blanks.reverse ++ c :: cs)
    else wordAfter (c :: (blanks ++ read)) [] cs

/-- A word outside quotes, and what follows it. Words with blanks between them are one,
as a date and a time are. -/
def word (cs : List Char) : List Char × List Char :=
  wordAfter [] [] cs

/-- What a word outside quotes stands for. -/
def scalar? (word : List Char) : Option Item :=
  let text := String.ofList word
  if text = "true" then some (.boolean true)
  else if text = "false" then some (.boolean false)
  else if Number.isSpecial word then some (.float text)
  else if Number.isInteger word then some ((Number.integer? word).elim (.unreadable text) .integer)
  else if Moment.isMoment word then some (.moment text)
  else (Number.float? word).map fun f => if f.isHeld then .float text else .unreadable text

/-- The items of an array with at most `count` of them left, behind those already read. -/
def itemsAfter? (item? : List Char → Option (Item × List Char)) (items : List Item) :
    (count : Nat) → List Char → Option (List Item × List Char)
  | count, cs =>
    match skipSpace false cs, count with
    | ']' :: rest, _ => some (items, rest)
    | _, 0 => none
    | cs, count + 1 => do
      let (item, rest) ← item? cs
      match skipSpace false rest with
      | ',' :: rest => itemsAfter? item? (items ++ [item]) count rest
      | ']' :: rest => some (items ++ [item], rest)
      | _ => none

/-- The entries of an inline table with at most `count` of them left, behind those already read. -/
def entriesAfter? (item? : List Char → Option (Item × List Char)) (entries : Entries) :
    (count : Nat) → List Char → Option (Entries × List Char)
  | count, cs =>
    match skipSpace false cs, count with
    | '\x7d' :: rest, _ => some (entries, rest)
    | _, 0 => none
    | cs, count + 1 => do
      let (path, leaf, rest) ← key? cs
      let rest ← expect? '=' (skipSpace false rest)
      let (item, rest) ← item? (skipSpace false rest)
      let entries ← entries.insert path leaf item .inline
      match skipSpace false rest with
      | ',' :: rest => entriesAfter? item? entries count rest
      | '\x7d' :: rest => some (entries, rest)
      | _ => none

/-- A value in which arrays and inline tables nest at most `depth` deep, and what follows it. -/
def value? : (depth : Nat) → List Char → Option (Item × List Char)
  | depth, cs =>
    match cs with
    | '[' :: rest =>
      match depth with
      | 0 => none
      | depth + 1 => do
        let (items, rest) ← itemsAfter? (value? depth) [] rest.length rest
        return (.array items, rest)
    | '\x7b' :: rest =>
      match depth with
      | 0 => none
      | depth + 1 => do
        let (entries, rest) ← entriesAfter? (value? depth) [] rest.length rest
        return (.table .inline entries, rest)
    | '"' :: _ | '\'' :: _ => do
      let (text, rest) ← Quoted.read? cs
      return (.string text, rest)
    | _ => do
      let (word, rest) := word cs
      return (← scalar? word, rest)

/-- A value is an array, an inline table, quoted text or a word. -/
theorem value?_cases {depth : Nat} {cs rest : List Char} {item : Item} (h : value? depth cs = some (item, rest)) :
    (∃ inner tail items, depth = inner + 1 ∧ cs = '[' :: tail ∧
      itemsAfter? (value? inner) [] tail.length tail = some (items, rest) ∧ item = .array items) ∨
    (∃ inner tail entries, depth = inner + 1 ∧ cs = '\x7b' :: tail ∧
      entriesAfter? (value? inner) [] tail.length tail = some (entries, rest) ∧ item = .table .inline entries) ∨
    (∃ text, Quoted.read? cs = some (text, rest) ∧ item = .string text) ∨
    (scalar? (word cs).1 = some item ∧ rest = (word cs).2) := by
  unfold value? at h
  dsimp only at h
  split at h
  case h_1 tail =>
    cases depth with
    | zero => contradiction
    | succ inner =>
      simp only [Option.bind_eq_bind, Option.bind_eq_some_iff] at h
      obtain ⟨⟨items, _⟩, hitems, h⟩ := h
      cases h
      exact .inl ⟨inner, tail, items, rfl, rfl, hitems, rfl⟩
  case h_2 tail =>
    cases depth with
    | zero => contradiction
    | succ inner =>
      simp only [Option.bind_eq_bind, Option.bind_eq_some_iff] at h
      obtain ⟨⟨entries, _⟩, hentries, h⟩ := h
      cases h
      exact .inr (.inl ⟨inner, tail, entries, rfl, rfl, hentries, rfl⟩)
  case h_5 =>
    simp only [Option.bind_eq_bind, Option.bind_eq_some_iff] at h
    obtain ⟨item, hscalar, h⟩ := h
    cases h
    exact .inr (.inr (.inr ⟨hscalar, rfl⟩))
  all_goals
    simp only [Option.bind_eq_bind, Option.bind_eq_some_iff] at h
    obtain ⟨⟨text, _⟩, htext, h⟩ := h
    cases h
    exact .inr (.inr (.inl ⟨text, htext, rfl⟩))

/-! ### Lines -/

/-- The tables read so far, and the path of the one that the last header opened. -/
structure Reading where
  root : Entries
  path : List String

namespace Reading

/-- Opens a table by a header. -/
def openAt (r : Reading) (path : List String) (leaf : String) : Option Reading := do
  let root ← r.root.alterAt false (Entries.openTable leaf) path .header
  return ⟨root, path ++ [leaf]⟩

/-- Adds a table by a repeated header. -/
def addAt (r : Reading) (path : List String) (leaf : String) : Option Reading := do
  let root ← r.root.alterAt false (Entries.addTable leaf) path .header
  return ⟨root, path ++ [leaf]⟩

/-- Adds a key and its item to the open table. -/
def insert (r : Reading) (path : List String) (leaf : String) (item : Item) : Option Reading := do
  let root ← r.root.alterAt false (fun origin entries => entries.insert path leaf item origin) r.path .header
  return { r with root }

/-- Reads one line that is neither blank nor a comment, up to where a comment may follow. -/
def line? (r : Reading) (cs : List Char) : Option (Reading × List Char) :=
  match cs with
  | '[' :: '[' :: cs => do
    let (path, leaf, rest) ← key? cs
    let rest ← expect? ']' rest
    let rest ← expect? ']' rest
    return (← r.addAt path leaf, rest)
  | '[' :: cs => do
    let (path, leaf, rest) ← key? cs
    let rest ← expect? ']' rest
    return (← r.openAt path leaf, rest)
  | _ => do
    let (path, leaf, rest) ← key? cs
    let (item, rest) ← (← expect? '=' rest) |> skipBlanks |> value? maxDepth
    return (← r.insert path leaf item, rest)

/-- A line is a repeated header, a header or a key with its value. -/
theorem line?_cases {r r' : Reading} {cs rest : List Char} (h : r.line? cs = some (r', rest)) :
    ∃ path leaf afterKey,
      (∃ tail bracket, cs = '[' :: '[' :: tail ∧ key? tail = some (path, leaf, afterKey) ∧
        expect? ']' afterKey = some bracket ∧ expect? ']' bracket = some rest ∧ r.addAt path leaf = some r') ∨
      (∃ tail, cs = '[' :: tail ∧ key? tail = some (path, leaf, afterKey) ∧
        expect? ']' afterKey = some rest ∧ r.openAt path leaf = some r') ∨
      (∃ tail item, key? cs = some (path, leaf, afterKey) ∧ expect? '=' afterKey = some tail ∧
        value? maxDepth (skipBlanks tail) = some (item, rest) ∧ r.insert path leaf item = some r') := by
  unfold line? at h
  split at h
  case h_1 tail =>
    simp only [Option.bind_eq_bind, Option.bind_eq_some_iff] at h
    obtain ⟨⟨path, leaf, afterKey⟩, hkey, bracket, hfirst, _, hsecond, _, hadd, h⟩ := h
    cases h
    exact ⟨path, leaf, afterKey, .inl ⟨tail, bracket, rfl, hkey, hfirst, hsecond, hadd⟩⟩
  case h_2 tail _ =>
    simp only [Option.bind_eq_bind, Option.bind_eq_some_iff] at h
    obtain ⟨⟨path, leaf, afterKey⟩, hkey, _, hbracket, _, hopen, h⟩ := h
    cases h
    exact ⟨path, leaf, afterKey, .inr (.inl ⟨tail, rfl, hkey, hbracket, hopen⟩)⟩
  case h_3 =>
    simp only [Option.bind_eq_bind, Option.bind_eq_some_iff] at h
    obtain ⟨⟨path, leaf, afterKey⟩, hkey, tail, hequals, ⟨item, _⟩, hvalue, _, hinsert, h⟩ := h
    cases h
    exact ⟨path, leaf, afterKey, .inr (.inr ⟨tail, item, hkey, hequals, hvalue, hinsert⟩)⟩

/-- Reads at most `lines` further lines, blank ones apart. -/
def lines? (r : Reading) : (lines : Nat) → List Char → Option Reading
  | lines, cs =>
    match skipSpace false cs, lines with
    | [], _ => some r
    | _, 0 => none
    | cs, lines + 1 => do
      let (r, rest) ← r.line? cs
      lines? r lines (← nextLine? rest)

end Reading

/-- The entries of a document. A byte order mark in front of it is skipped. -/
def parse? (text : String) : Option Entries := do
  let cs :=
    match text.toList with
    | '\ufeff' :: cs => cs
    | cs => cs
  let reading ← Reading.lines? ⟨[], []⟩ cs.length cs
  return reading.root

end BitStore.Toml
