import BitStore.Proofs.Toml.Forward
import BitStore.Proofs.Toml.Number
import BitStore.Proofs.Toml.Quoted

/-! Flat documents read back. Such a document has a header line for every
section and under it a line for every entry, with blank lines anywhere between;
its keys need no quotes, and none is given twice. -/

namespace BitStore.Toml

variable {word written rest : List Char} {c : Char} {item : Item} {r : Reading}

/-! ### Bare words -/

/-- A character of a bare key is none with a meaning of its own. -/
theorem ne_of_isBareKey {d : Char} (h : isBareKey c = true) (hd : isBareKey d = false) : c ≠ d := by
  rintro rfl
  simp_all

theorem isBlank_of_isBareKey (h : isBareKey c = true) : isBlank c = false := by
  have hspace : c ≠ ' ' := ne_of_isBareKey h (by decide)
  have htab : c ≠ '\t' := ne_of_isBareKey h (by decide)
  simp [isBlank, hspace, htab]

theorem endsWord_of_isBareKey (h : isBareKey c = true) : endsWord c = false := by
  simp only [endsWord, Bool.eq_false_iff, ne_eq, List.contains_iff_mem]
  have hspecial : "\r\n#,[]\x7b\x7d=".toList.all (fun d => !isBareKey d) = true := by decide
  exact fun hc => by simpa [h] using List.all_eq_true.mp hspecial c hc

theorem isBareKey_of_isDigit (h : c.isDigit = true) : isBareKey c = true := by
  simp [isBareKey, Char.isAlphanum, h]

/-- A word of such characters ends where the line does. -/
theorem wordAfter_of_isBareKey (hword : ∀ c ∈ word, isBareKey c = true) (read : List Char) :
    wordAfter read [] (word ++ '\n' :: rest) = (read.reverse ++ word, '\n' :: rest) := by
  induction word generalizing read with
  | nil => simp [wordAfter, isBlank, endsWord]
  | cons c word ih =>
    have hc := hword c (by simp)
    simp [wordAfter, isBlank_of_isBareKey hc, endsWord_of_isBareKey hc,
      ih (fun d hd => hword d (List.mem_cons_of_mem _ hd))]

/-! ### Values at the end of a line -/

/-- On the rest of a line, `written` is read as the item, and nothing behind it. -/
def Item.IsWritten (item : Item) (written : List Char) : Prop :=
  ∀ rest, value? maxDepth (skipBlanks (written ++ '\n' :: rest)) = some (item, '\n' :: rest)

theorem skipBlanks_of_isBareKey (hc : isBareKey c = true) : skipBlanks (c :: rest) = c :: rest := by
  simp [skipBlanks, isBlank_of_isBareKey hc]

theorem skipSpace_of_isBareKey (hc : isBareKey c = true) : skipSpace false (c :: rest) = c :: rest := by
  have hne (d : Char) (hd : isBareKey d = false) : c ≠ d := ne_of_isBareKey hc hd
  simp [skipSpace, startsBreak, hne '\n' (by decide), hne '\r' (by decide), hne ' ' (by decide),
    hne '\t' (by decide), hne '#' (by decide)]

theorem Item.isWritten_word (hne : word ≠ []) (hbare : word.all isBareKey = true)
    (h : scalar? word = some item) : item.IsWritten word := by
  intro rest
  have hword := List.all_eq_true.mp hbare
  obtain ⟨c, word, rfl⟩ := List.exists_cons_of_ne_nil hne
  have hc := hword c (by simp)
  rw [List.cons_append, skipBlanks_of_isBareKey hc]
  have hread : Toml.word (c :: (word ++ '\n' :: rest)) = (c :: word, '\n' :: rest) := wordAfter_of_isBareKey hword []
  unfold value?
  split
  case h_5 => simp [hread, h]
  all_goals
    rename_i heq
    exact absurd (List.cons.inj heq).1 (ne_of_isBareKey hc (by decide))

theorem Item.isWritten_number {n : Nat} (h : n < 1 <<< 128) : (Item.integer n).IsWritten (toString n).toList := by
  have hdigit : ∀ c ∈ Nat.toDigits 10 n, c.isDigit = true := fun c =>
    Nat.isDigit_of_mem_toDigits (by decide) (by decide)
  rw [Nat.toString_eq_repr, Nat.toList_repr]
  have hbare : (Nat.toDigits 10 n).all isBareKey = true :=
    List.all_eq_true.mpr fun c hc => isBareKey_of_isDigit (hdigit c hc)
  exact isWritten_word Nat.toDigits_ne_nil hbare (scalar?_toDigits h)

theorem Item.isWritten_boolean (b : Bool) : (Item.boolean b).IsWritten (toString b).toList := by
  cases b <;> exact isWritten_word (by decide) (by decide) rfl

theorem value?_of_mark {depth : Nat} (hc : c = '"' ∨ c = '\'') :
    value? depth (c :: rest) = (Quoted.read? (c :: rest)).map fun (text, rest) => (.string text, rest) := by
  rcases hc with rfl | rfl <;> (unfold value?; cases Quoted.read? _ <;> rfl)

theorem quote_starts (text : String) :
    ∃ c tail, (Written.quote text).toList = c :: tail ∧ (c = '"' ∨ c = '\'') := by
  cases h : Written.styleOf text.toList <;>
    simp [Written.quote, h, Written.Style.delimiter]

theorem Item.isWritten_string (text : String) : (Item.string text).IsWritten (Written.quote text).toList := by
  intro rest
  have hread : Quoted.read? ((Written.quote text).toList ++ '\n' :: rest) = some (text, '\n' :: rest) :=
    Quoted.read?_quote text (by simp)
  obtain ⟨c, tail, hquote, hc⟩ := quote_starts text
  rw [hquote, List.cons_append] at hread ⊢
  have hskip : skipBlanks (c :: (tail ++ '\n' :: rest)) = c :: (tail ++ '\n' :: rest) := by
    rcases hc with rfl | rfl <;> rfl
  rw [hskip, value?_of_mark hc, hread]
  rfl

/-! ### Keys -/

/-- A key that needs no quotes. -/
def IsBare (key : String) : Prop :=
  key.toList ≠ [] ∧ key.toList.all isBareKey = true

instance (key : String) : Decidable (IsBare key) :=
  inferInstanceAs (Decidable (_ ∧ _))

variable {key : String}

theorem IsBare.starts (h : IsBare key) : ∃ c cs, key.toList = c :: cs ∧ isBareKey c = true := by
  obtain ⟨c, cs, hkey⟩ := List.exists_cons_of_ne_nil h.1
  exact ⟨c, cs, hkey, List.all_eq_true.mp h.2 c (by simp [hkey])⟩

/-- A bare key has one part, whatever but a dot follows it. -/
theorem IsBare.key?_eq (h : IsBare key) (rest : List Char) (hrest : ∀ c ∈ rest.head?, isBareKey c = false)
    (hdot : (skipBlanks rest).head? ≠ some '.') :
    key? (key.toList ++ rest) = some ([], key, skipBlanks rest) := by
  have htake : rest.takeWhile isBareKey = [] := by cases rest <;> simp_all
  have hdrop : rest.dropWhile isBareKey = rest := by cases rest <;> simp_all
  have hspan : (key.toList ++ rest).span isBareKey = (key.toList, rest) := by
    have hkey := List.all_eq_true.mp h.2
    rw [List.span_eq_takeWhile_dropWhile, List.takeWhile_append_of_pos hkey, List.dropWhile_append_of_pos hkey,
      htake, hdrop, List.append_nil]
  obtain ⟨c, cs, hkey, hc⟩ := h.starts
  have hskip : skipBlanks (key.toList ++ rest) = key.toList ++ rest := by
    rw [hkey]
    exact skipBlanks_of_isBareKey hc
  have hpart : keyPart? (key.toList ++ rest) = some (key, rest) := by
    rw [keyPart?, hspan, hkey]
    simp only
    rw [← hkey, String.ofList_toList]
  rw [key?, maxDepth, keyAfter?, hskip, hpart]
  simp only [Option.bind_eq_bind, Option.bind_some]
  split
  case h_1 heq => simp [heq] at hdot
  case h_2 => rfl

/-! ### Lines -/

namespace Reading

theorem all?_nil : r.all? [] = some r := by
  rw [all?, lines?.eq_def]
  rfl

theorem all?_break : r.all? ('\n' :: rest) = r.all? rest := by
  rw [← lines?_eq_all (Nat.le_succ rest.length), all?, lines?.eq_def, lines?.eq_def]
  rfl

/-- A line that begins with no blank is read, and then those behind it. -/
theorem all?_line {cs : List Char} {r? : Option Reading} (hskip : skipSpace false cs = cs)
    (hlength : rest.length < cs.length) (h : r.line? cs = r?.map (·, '\n' :: rest)) :
    r.all? cs = r?.bind fun r => r.all? rest := by
  obtain ⟨c, cs, rfl⟩ := List.exists_cons_of_length_pos (Nat.zero_lt_of_lt hlength)
  rw [all?, List.length_cons, lines?.eq_def]
  simp only [hskip, h]
  have hnext : nextLine? ('\n' :: rest) = some rest := rfl
  cases r? with
  | none => rfl
  | some r => simpa [hnext] using lines?_eq_all (Nat.le_of_lt_succ hlength)

theorem all?_header (h : IsBare key) :
    r.all? ('[' :: (key.toList ++ ']' :: '\n' :: rest)) = (r.openAt [] key).bind fun r => r.all? rest := by
  apply all?_line (by rfl) (by simp; omega)
  have hkey := h.key?_eq (']' :: '\n' :: rest) (by simp +decide) (by simp [skipBlanks, isBlank])
  obtain ⟨c, cs, hcs, hc⟩ := h.starts
  unfold line?
  split
  case h_1 heq =>
    rw [hcs] at heq
    exact absurd (List.cons.inj (List.cons.inj heq).2).1 (ne_of_isBareKey hc (by decide))
  case h_2 heq =>
    obtain rfl := (List.cons.inj heq).2
    cases hopen : r.openAt [] key <;> simp [hkey, skipBlanks, isBlank, expect?, hopen]
  case h_3 hno => exact absurd rfl (hno _)

theorem all?_entry (h : IsBare key) (hitem : item.IsWritten written) :
    r.all? (key.toList ++ ' ' :: '=' :: ' ' :: (written ++ '\n' :: rest)) =
      (r.insert [] key item).bind fun r => r.all? rest := by
  have hkey := h.key?_eq (' ' :: '=' :: ' ' :: (written ++ '\n' :: rest)) (by simp +decide)
    (by simp [skipBlanks, isBlank])
  obtain ⟨c, cs, hcs, hc⟩ := h.starts
  refine all?_line ?_ (by simp; omega) ?_
  · rw [hcs]
    exact skipSpace_of_isBareKey hc
  · unfold line?
    split
    case h_3 =>
      have hequals (cs : List Char) : skipBlanks (' ' :: '=' :: cs) = '=' :: cs := rfl
      have hblank (cs : List Char) : skipBlanks (' ' :: cs) = skipBlanks cs := rfl
      cases hinsert : r.insert [] key item <;> simp [hkey, hequals, hblank, expect?, hitem rest, hinsert]
    all_goals
      rename_i heq
      rw [hcs] at heq
      exact absurd (List.cons.inj heq).1 (ne_of_isBareKey hc (by decide))

/-! ### Tables -/

variable {name : String} {front entries : Entries}

theorem openAt_new (h : key ∉ r.root.map Prod.fst) :
    r.openAt [] key = some ⟨r.root ++ [(key, .table .header [])], [key]⟩ := by
  simp [openAt, Entries.alterAt, Entries.openTable, Entries.lookup_eq_none.mpr h]

/-- A new key goes to the end of the section that is open. -/
theorem insert_last (hname : name ∉ front.map Prod.fst) (hkey : key ∉ entries.map Prod.fst) :
    (⟨front ++ [(name, .table .header entries)], [name]⟩ : Reading).insert [] key item =
      some ⟨front ++ [(name, .table .header (entries ++ [(key, item)]))], [name]⟩ := by
  have hlookup : (front ++ [(name, Item.table .header entries)]).lookup name = some (.table .header entries) := by
    simp [List.lookup_append, Entries.lookup_eq_none.mpr hname]
  have hreplace (inner : Item) : Entries.replace name inner (front ++ [(name, .table .header entries)]) =
      front ++ [(name, inner)] := by
    have hfront : Entries.replace name inner front = front := Entries.replace_of_not_mem hname
    rw [Entries.replace] at hfront ⊢
    simp [hfront]
  simp [insert, Entries.alterAt, Entries.insert, hlookup, Entries.lookup_eq_none.mpr hkey, hreplace, guard]

end Reading

/-! ### Flat documents -/

/-- The lines of a section's entries. -/
inductive Entries.Lines : Entries → List Char → Prop where
  | nil : Lines [] []
  | entry (key : String) {item : Item} {written cs : List Char} {entries : Entries} (hkey : IsBare key)
      (hitem : item.IsWritten written) (hnew : key ∉ entries.map Prod.fst) (hlines : Lines entries cs) :
      Lines ((key, item) :: entries) (key.toList ++ ' ' :: '=' :: ' ' :: (written ++ '\n' :: cs))

/-- The lines of a document's sections. -/
inductive Entries.Sections : Entries → List Char → Prop where
  | nil : Sections [] []
  | blank {cs : List Char} {sections : Entries} (hsections : Sections sections cs) : Sections sections ('\n' :: cs)
  | header (name : String) {body cs : List Char} {entries sections : Entries} (hname : IsBare name)
      (hlines : entries.Lines body) (hnew : name ∉ sections.map Prod.fst) (hsections : Sections sections cs) :
      Sections ((name, .table .header entries) :: sections) ('[' :: (name.toList ++ ']' :: '\n' :: (body ++ cs)))

/-- Entries are added to the open section. -/
theorem Entries.Lines.all?_eq {front entries : Entries} {name : String} {body : List Char}
    (h : entries.Lines body) (before : Entries) (hname : name ∉ front.map Prod.fst)
    (hnew : ∀ key ∈ before.map Prod.fst, key ∉ entries.map Prod.fst) :
    (⟨front ++ [(name, .table .header before)], [name]⟩ : Reading).all? (body ++ rest) =
      (⟨front ++ [(name, .table .header (before ++ entries))], [name]⟩ : Reading).all? rest := by
  induction h generalizing before with
  | nil => simp
  | @entry key item written cs entries hkey hitem hfresh _ ih =>
    have hkey' : key ∉ before.map Prod.fst := fun hmem => hnew key hmem (by simp)
    have hread := ih (before ++ [(key, item)]) (by grind)
    simp only [List.append_assoc, List.cons_append] at hread ⊢
    rw [Reading.all?_entry hkey hitem, Reading.insert_last hname hkey', Option.bind_some, hread]
    rfl

theorem Entries.Sections.all?_eq {front sections : Entries} {path : List String} {cs : List Char}
    (h : sections.Sections cs) (hnew : ∀ name ∈ front.map Prod.fst, name ∉ sections.map Prod.fst) :
    ∃ path', (⟨front, path⟩ : Reading).all? cs = some ⟨front ++ sections, path'⟩ := by
  induction h generalizing front path with
  | nil => exact ⟨path, by rw [List.append_nil, Reading.all?_nil]⟩
  | blank _ ih =>
    rw [Reading.all?_break]
    exact ih hnew
  | @header name body cs entries sections hname hbody hfresh _ ih =>
    have hfront : name ∉ front.map Prod.fst := fun hmem => hnew name hmem (by simp)
    have hnew' : ∀ other ∈ (front ++ [(name, Item.table .header entries)]).map Prod.fst,
        other ∉ sections.map Prod.fst := by grind
    obtain ⟨path', hsections⟩ := ih hnew'
    refine ⟨path', ?_⟩
    rw [Reading.all?_header hname, Reading.openAt_new hfront, Option.bind_some,
      hbody.all?_eq [] hfront (by simp), List.nil_append, hsections, List.append_assoc]
    rfl

/-- A document in sections is read as its sections. -/
theorem parse?_of_sections {text : String} {sections : Entries} (h : sections.Sections text.toList) :
    parse? text = some sections := by
  obtain ⟨path, hread⟩ : ∃ path, Reading.all? ⟨[], []⟩ text.toList = some ⟨[] ++ sections, path⟩ :=
    h.all?_eq (by simp)
  rw [Reading.all?] at hread
  unfold parse?
  split
  case h_1 heq =>
    rw [heq] at h
    cases h
  case h_2 => simp [hread]

end BitStore.Toml
