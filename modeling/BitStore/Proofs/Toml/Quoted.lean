import BitStore.Toml.Quoted
import BitStore.Toml.Written
import Mathlib.Tactic.IntervalCases

/-! Quoted text reads back. Whatever quotes the writer chooses, and whatever it
escapes between them, the reader finds the text again and stops right behind
the closing quotes, as long as no further quote follows there. -/

namespace BitStore.Toml

open Written

namespace Quoted

variable {q : Quotes} {mark c d : Char} {read cs rest : List Char} {marks : Nat} {s next : State}

/-! ### One character -/

theorem readAfter_push (h : s.step q c cs = .push d next) :
    readAfter q read s (c :: cs) = readAfter q (d :: read) next cs := by
  simp [readAfter, h]

theorem readAfter_skip (h : s.step q c cs = .skip next) :
    readAfter q read s (c :: cs) = readAfter q read next cs := by
  simp [readAfter, h]

theorem isPlain_of_isControl (h : isControl c = false) (hc : c ≠ '\n') : isPlain c = true := by
  simp only [isControl, Bool.or_eq_false_iff, Bool.and_eq_false_iff] at h
  have : c = '\t' ∨ ' ' ≤ c := by simpa [hc, or_comm] using h.1
  simp_all [isPlain]

/-- A character that stands for itself. A line break does so between triple quotes only. -/
theorem readAfter_plain (hmarks : marks < 3) (hmark : c ≠ q.mark) (hescape : q.mark = '"' → c ≠ '\\')
    (hplain : isControl c = false) (hbreak : c = '\n' → q.multiline = true) :
    readAfter q read (.text marks) (c :: cs) = readAfter q (c :: read) (.text 0) cs := by
  have hstands : isPlain c || (q.multiline && startsBreak c cs) := by
    by_cases hc : c = '\n'
    · simp [hc, hbreak hc, startsBreak]
    · simp [isPlain_of_isControl hplain hc]
  have hquote : ¬(c = '\\' ∧ q.mark = '"') := fun h => hescape h.2 h.1
  apply readAfter_push
  simp only [State.step, textStep, hmark, if_false, show ¬3 ≤ marks by omega, hquote, hstands, if_true]

/-- A mark that is part of the text. Between triple quotes two may stand in a row. -/
theorem readAfter_mark (hq : q.multiline = true) (hmarks : marks < 4) :
    readAfter q read (.text marks) (q.mark :: cs) = readAfter q (q.mark :: read) (.text (marks + 1)) cs := by
  apply readAfter_push
  simp [State.step, textStep, hq, show marks ≠ 4 by omega]

/-- A backslash starts an escape between double quotes. -/
theorem readAfter_backslash {lines : Bool} (hmarks : marks < 3) :
    readAfter ⟨'"', lines⟩ read (.text marks) ('\\' :: cs) = readAfter ⟨'"', lines⟩ read .escape cs := by
  apply readAfter_skip
  simp [State.step, textStep, show ¬3 ≤ marks by omega]

/-! ### Closing quotes -/

/-- The quotes around a text, on either side. -/
def Quotes.delimiter (q : Quotes) : List Char :=
  if q.multiline then [q.mark, q.mark, q.mark] else [q.mark]

/-- The most marks that may stand in a row within a text. -/
def Quotes.most (q : Quotes) : Nat :=
  if q.multiline then 2 else 0

/-- The closing quotes end the text, and up to two marks before them are part of it. -/
theorem readAfter_delimiter (hmarks : marks ≤ q.most) (hrest : rest.head? ≠ some q.mark) :
    readAfter q read (.text marks) (q.delimiter ++ rest) = some (String.ofList read.reverse, rest) := by
  obtain ⟨mark, multiline⟩ := q
  cases multiline with
  | false => simp [Quotes.delimiter, readAfter, State.step, textStep]
  | true =>
    simp only [Quotes.most, if_true] at hmarks
    -- with two marks before it the third one closes, and else the character behind it tells
    interval_cases marks <;> cases rest <;>
      simp_all [Quotes.delimiter, readAfter, State.step, textStep]

/-! ### Escapes -/

theorem digit?_digitChar {n : Nat} (h : n < 16) : digit? 16 n.digitChar.toUpper = some n := by
  interval_cases n <;> decide

theorem isControl_toNat_lt (h : isControl c = true) : c.toNat < 128 := by
  simp only [isControl, Bool.or_eq_true, Bool.and_eq_true, decide_eq_true_eq, beq_iff_eq] at h
  obtain ⟨⟨h, -⟩, -⟩ | rfl := h
  · exact Nat.lt_trans h (by decide)
  · decide

/-- A code point of up to two digits is written with four. -/
theorem toList_codeEscape (h : c.toNat < 256) :
    (codeEscape c).toList = ['\\', 'u', '0', '0', (c.toNat / 16).digitChar.toUpper,
      (c.toNat % 16).digitChar.toUpper] := by
  simp only [codeEscape]
  rw [Nat.toDigits_eq_if (by decide)]
  split
  case isTrue h =>
    have hzero : '0' = (Nat.digitChar 0).toUpper := by decide
    simp [Nat.div_eq_of_lt h, Nat.mod_eq_of_lt h, ← hzero]
  case isFalse h => simp [Nat.toDigits_of_lt_base (show c.toNat / 16 < 16 by omega)]

theorem readAfter_codeEscape {lines : Bool} (hmarks : marks < 3) (h : c.toNat < 256) :
    readAfter ⟨'"', lines⟩ read (.text marks) ((codeEscape c).toList ++ cs) =
      readAfter ⟨'"', lines⟩ (c :: read) (.text 0) cs := by
  have hhigh := digit?_digitChar (show c.toNat / 16 < 16 by omega)
  have hlow := digit?_digitChar (show c.toNat % 16 < 16 by omega)
  have hzero : digit? 16 '0' = some 0 := by decide
  have hvalue : 16 * (c.toNat / 16) + c.toNat % 16 = c.toNat := Nat.div_add_mod _ _
  have hvalid : c.toNat.isValidChar := c.valid
  rw [toList_codeEscape h, List.cons_append, readAfter_backslash hmarks]
  simp [readAfter, State.step, escapeStep, codeStep, hzero, hhigh, hlow, hvalue, hvalid]

/-- Every character but a quote reads back from how it is written between double quotes. -/
theorem readAfter_escapeChar {lines : Bool} (hmarks : marks < 3) (hc : c ≠ '"') :
    readAfter ⟨'"', lines⟩ read (.text marks) ((escapeChar lines c).toList ++ cs) =
      readAfter ⟨'"', lines⟩ (c :: read) (.text 0) cs := by
  unfold escapeChar
  split
  case h_3 =>
    -- a line feed, which is left as it is between triple quotes
    cases lines
    · simp [readAfter_backslash hmarks, readAfter, State.step, escapeStep]
    · exact readAfter_plain hmarks (by decide) (by decide) (by decide) (fun _ => rfl)
  case h_7 =>
    -- a character without a short escape
    split
    case isTrue h => exact readAfter_codeEscape hmarks (Nat.lt_trans (isControl_toNat_lt h) (by decide))
    case isFalse h =>
      rw [String.toList_singleton]
      exact readAfter_plain hmarks hc (by simpa) (by simpa using h) (by simp_all)
  all_goals simp [readAfter_backslash hmarks, readAfter, State.step, escapeStep]

/-! ### Whole texts -/

/-- Behind so many marks, `body` stands for `text`, whatever was read before and whatever follows. -/
def Spells (q : Quotes) (marks : Nat) (body text : List Char) : Prop :=
  ∃ n ≤ q.most, ∀ read rest,
    readAfter q read (.text marks) (body ++ rest) = readAfter q (text.reverse ++ read) (.text n) rest

namespace Spells

variable {body text : List Char}

theorem nil (hmarks : marks ≤ q.most) : Spells q marks [] [] :=
  ⟨marks, hmarks, fun _ _ => rfl⟩

/-- One character in front of a text. -/
theorem cons {n : Nat} (written : List Char) (h : ∀ read rest, readAfter q read (.text marks) (written ++ rest) =
    readAfter q (c :: read) (.text n) rest) (htext : Spells q n body text) :
    Spells q marks (written ++ body) (c :: text) := by
  obtain ⟨m, hm, hread⟩ := htext
  refine ⟨m, hm, fun read rest => ?_⟩
  rw [List.append_assoc, h, hread, List.reverse_cons, List.append_assoc, List.singleton_append]

/-- Between its quotes the text reads back. -/
theorem readAfter_eq (h : Spells q 0 body text) (hrest : rest.head? ≠ some q.mark) :
    readAfter q [] (.text 0) (body ++ q.delimiter ++ rest) = some (String.ofList text, rest) := by
  obtain ⟨n, hn, hread⟩ := h
  rw [List.append_assoc, hread, readAfter_delimiter hn hrest]
  simp

end Spells

/-- Between double quotes a text with its escapes stands for the text. -/
theorem spells_escape {lines : Bool} (hmarks : marks ≤ (Quotes.mk '"' lines).most) :
    Spells ⟨'"', lines⟩ marks (escape lines marks cs).toList cs := by
  have hlt : marks < 3 := by grind [Quotes.most]
  induction cs generalizing marks with
  | nil => exact .nil hmarks
  | cons c cs ih =>
    simp only [escape]
    split
    case isTrue hc =>
      subst hc
      split
      case isTrue h =>
        -- the quote stands as it is
        have hmost : marks + 1 ≤ (Quotes.mk '"' lines).most := by
          simp only [Quotes.most, h.1, if_true]
          omega
        rw [String.toList_append]
        exact .cons _ (fun _ _ => readAfter_mark h.1 (by omega)) (ih hmost (by omega))
      case isFalse h =>
        rw [String.toList_append]
        refine .cons _ (fun read rest => ?_) (ih (Nat.zero_le _) (by decide))
        rw [show ("\\\"".toList ++ rest) = '\\' :: '"' :: rest by rfl, readAfter_backslash hlt]
        rfl
    case isFalse hc =>
      rw [String.toList_append]
      exact .cons _ (fun _ _ => readAfter_escapeChar hlt hc) (ih (Nat.zero_le _) (by decide))

/-- No run of marks grows shorter when a text goes on. -/
theorem le_longest (longest run : Nat) (cs : List Char) :
    longest ≤ (cs.foldl (runsAfter mark) (longest, run)).1 := by
  induction cs generalizing longest run with
  | nil => exact Nat.le_refl _
  | cons c cs ih => exact (Nat.le_max_left _ _).trans (ih _ _)

/-- Between quotes that know no escapes a text stands for itself, if its marks do not end it. -/
theorem spells_literal {longest : Nat} (hq : q.mark ≠ '"') (hmarks : marks ≤ q.most)
    (hplain : cs.any isControl = false) (hbreak : '\n' ∈ cs → q.multiline = true)
    (hruns : (cs.foldl (runsAfter q.mark) (longest, marks)).1 ≤ q.most) :
    Spells q marks cs cs := by
  induction cs generalizing marks longest with
  | nil => exact .nil hmarks
  | cons c cs ih =>
    simp only [List.any_cons, Bool.or_eq_false_iff] at hplain
    rw [List.foldl_cons, runsAfter] at hruns
    have hrun := (Nat.le_max_right _ _).trans ((le_longest _ _ _).trans hruns)
    have htext := ih hrun hplain.2 (fun h => hbreak (List.mem_cons_of_mem _ h)) hruns
    by_cases hc : c = q.mark
    · subst hc
      rw [if_pos rfl] at hrun htext
      have hlines : q.multiline = true := by grind [Quotes.most]
      have : marks < 4 := by grind [Quotes.most]
      exact .cons [q.mark] (fun _ _ => readAfter_mark hlines this) htext
    · rw [if_neg hc] at htext
      have : marks < 3 := by grind [Quotes.most]
      exact .cons [c] (fun _ _ => readAfter_plain this hc (fun h => absurd h hq) hplain.1
        (fun h => hbreak (by simp [h]))) htext

/-! ### Opening quotes -/

variable {body text : List Char}

/-- A text on one line starts with no mark, which would end it. -/
theorem Spells.head?_ne (h : Spells ⟨mark, false⟩ 0 body text) : body.head? ≠ some mark := by
  obtain ⟨n, hn, hread⟩ := h
  obtain rfl : n = 0 := Nat.le_zero.mp hn
  intro hmark
  obtain ⟨body, rfl⟩ := List.head?_eq_some_iff.mp hmark
  have := hread [] []
  simp [readAfter, State.step, textStep] at this

theorem Spells.read?_line (hmark : mark = '"' ∨ mark = '\'') (h : Spells ⟨mark, false⟩ 0 body text)
    (hrest : rest.head? ≠ some mark) :
    read? ([mark] ++ body ++ [mark] ++ rest) = some (String.ofList text, rest) := by
  have hbody := h.head?_ne
  have hread := h.readAfter_eq hrest
  have : read? ([mark] ++ body ++ [mark] ++ rest) = readAfter ⟨mark, false⟩ [] (.text 0) (body ++ [mark] ++ rest) := by
    cases body <;> cases rest <;> rcases hmark with rfl | rfl <;> simp_all [read?, readLine?]
  rw [this]
  exact hread

/-- A text between triple quotes, perhaps on a line of its own. -/
theorem Spells.read?_lines {first : List Char} (hmark : mark = '"' ∨ mark = '\'')
    (h : Spells ⟨mark, true⟩ 0 body text) (hrest : rest.head? ≠ some mark)
    (hfirst : dropBreak (first ++ body ++ [mark, mark, mark] ++ rest) = body ++ [mark, mark, mark] ++ rest) :
    read? ([mark, mark, mark] ++ (first ++ body) ++ [mark, mark, mark] ++ rest) = some (String.ofList text, rest) := by
  have hread := h.readAfter_eq hrest
  have : read? ([mark, mark, mark] ++ (first ++ body) ++ [mark, mark, mark] ++ rest) =
      readAfter ⟨mark, true⟩ [] (.text 0) (dropBreak (first ++ body ++ [mark, mark, mark] ++ rest)) := by
    rcases hmark with rfl | rfl <;> simp [read?]
  rw [this, hfirst]
  exact hread

theorem dropBreak_of_isPlain (h : ∀ c ∈ cs.head?, isPlain c = true) : dropBreak cs = cs := by
  unfold dropBreak
  split <;> first | rfl | exact absurd (h _ rfl) (by decide)

theorem escapeChar_starts (lines : Bool) (hc : c ≠ '\n') :
    ∃ d tail, (escapeChar lines c).toList = d :: tail ∧ isPlain d = true := by
  unfold escapeChar
  split
  case h_3 => contradiction
  case h_7 =>
    split
    case isTrue h =>
      exact ⟨_, _, toList_codeEscape (Nat.lt_trans (isControl_toNat_lt h) (by decide)), by decide⟩
    case isFalse h =>
      exact ⟨_, _, String.toList_singleton c, isPlain_of_isControl (by simpa using h) hc⟩
  all_goals exact ⟨_, _, rfl, by decide⟩

/-- A text that starts on the line of its quotes does so with a character of that line. -/
theorem escape_starts {lines : Bool} (hbreak : '\n' ∉ cs) :
    ∀ c ∈ (escape lines 0 cs).toList.head?, isPlain c = true := by
  cases cs with
  | nil => simp [escape]
  | cons c cs =>
    simp only [escape]
    split
    case isTrue => split <;> simp +decide
    case isFalse =>
      obtain ⟨d, tail, hd, hplain⟩ := escapeChar_starts lines (show c ≠ '\n' from fun h => hbreak (by simp [h]))
      simpa [hd] using hplain

/-- The break in front of a text of several lines is dropped, and other texts start with none. -/
theorem dropBreak_first (hbody : '\n' ∉ text → ∀ c ∈ body.head?, isPlain c = true) (hmark : isPlain mark = true) :
    dropBreak ((if text.contains '\n' then "\n" else "").toList ++ body ++ [mark, mark, mark] ++ rest) =
      body ++ [mark, mark, mark] ++ rest := by
  split
  case isTrue => rfl
  case isFalse h =>
    apply dropBreak_of_isPlain
    cases body with
    | nil => simpa
    | cons c body => simpa using hbody (by simpa using h) c rfl

/-! ### Styles -/

theorem styleOf_eq_literal (h : styleOf cs = .literal) :
    cs.any isControl = false ∧ longestRun '\'' cs = 0 ∧ '\n' ∉ cs := by
  grind [styleOf]

theorem styleOf_eq_literalLines (h : styleOf cs = .literalLines) :
    cs.any isControl = false ∧ longestRun '\'' cs ≤ 2 := by
  grind [styleOf]

/-- A quoted text reads back, and what follows it is left. -/
theorem read?_quote (text : String) (hrest : ∀ c ∈ rest.head?, c ≠ '"' ∧ c ≠ '\'') :
    read? ((quote text).toList ++ rest) = some (text, rest) := by
  have hdouble : rest.head? ≠ some '"' := fun h => (hrest _ h).1 rfl
  have hsingle : rest.head? ≠ some '\'' := fun h => (hrest _ h).2 rfl
  cases hstyle : styleOf text.toList with
  | basic =>
    have hspells : Spells ⟨'"', false⟩ 0 (escape false 0 text.toList).toList text.toList :=
      spells_escape (Nat.zero_le _)
    simpa [quote, hstyle, Style.delimiter] using hspells.read?_line (.inl rfl) hdouble
  | literal =>
    obtain ⟨hplain, hrun, hbreak⟩ := styleOf_eq_literal hstyle
    have hspells : Spells ⟨'\'', false⟩ 0 text.toList text.toList :=
      spells_literal (by decide) (Nat.zero_le _) hplain (fun h => absurd h hbreak) (Nat.le_of_eq hrun)
    simpa [quote, hstyle, Style.delimiter] using hspells.read?_line (.inr rfl) hsingle
  | basicLines =>
    have hspells : Spells ⟨'"', true⟩ 0 (escape true 0 text.toList).toList text.toList :=
      spells_escape (Nat.zero_le _)
    simpa [quote, hstyle, Style.delimiter] using
      hspells.read?_lines (.inl rfl) hdouble (dropBreak_first escape_starts (by decide))
  | literalLines =>
    obtain ⟨hplain, hrun⟩ := styleOf_eq_literalLines hstyle
    have hspells : Spells ⟨'\'', true⟩ 0 text.toList text.toList :=
      spells_literal (by decide) (Nat.zero_le _) hplain (fun _ => rfl) hrun
    have hstarts (hbreak : '\n' ∉ text.toList) : ∀ c ∈ text.toList.head?, isPlain c = true := by
      intro c hc
      have hmem := List.mem_of_mem_head? hc
      have hcontrol : isControl c = false := by simpa using List.any_eq_false.mp hplain c hmem
      exact isPlain_of_isControl hcontrol (fun h => hbreak (h ▸ hmem))
    simpa [quote, hstyle, Style.delimiter] using
      hspells.read?_lines (.inr rfl) hsingle (dropBreak_first hstarts (by decide))

end Quoted

end BitStore.Toml
