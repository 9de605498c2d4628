import BitStore.Proofs.Toml.Tables
import Mathlib.Data.List.TakeDrop

/-! Readers go forward: what they leave is the end of what they were given. The
bounds on the lines of a document and on the items of arrays and inline tables,
which are the lengths of the texts they stand in, are therefore never felt: with
any larger ones the same is read. -/

namespace BitStore.Toml

variable {cs rest : List Char}

/-! ### Blanks -/

theorem skipBlanks_suffix (cs : List Char) : skipBlanks cs <:+ cs :=
  List.dropWhile_suffix _

theorem skipSpace_suffix (inComment : Bool) (cs : List Char) : skipSpace inComment cs <:+ cs := by
  fun_induction skipSpace inComment cs with
  | case1 | case4 | case7 => exact List.suffix_refl _
  | case2 _ _ _ _ ih | case3 _ _ _ _ ih | case5 _ _ _ _ _ _ ih | case6 _ _ _ _ _ ih =>
    exact ih.trans (List.suffix_cons _ _)

theorem expect?_suffix (h : expect? c cs = some rest) : rest <:+ cs := by
  cases cs with
  | nil => contradiction
  | cons d cs =>
    rw [expect?] at h
    split at h
    · cases h
      exact List.suffix_cons _ _
    · contradiction

/-! ### Words and quoted text -/

namespace Quoted

theorem readAfter_suffix {q : Quotes} {read : List Char} {s : State} {text : String}
    (h : readAfter q read s cs = some (text, rest)) : rest <:+ cs := by
  induction cs generalizing read s with
  | nil =>
    cases s <;> simp [readAfter] at h
    exact h.2.2 ▸ List.suffix_refl _
  | cons c cs ih =>
    rw [readAfter] at h
    have hcons : cs <:+ c :: cs := List.suffix_cons _ _
    split at h
    · exact (ih h).trans hcons
    · exact (ih h).trans hcons
    · cases h
      exact hcons
    · cases h
      exact List.suffix_refl _
    · contradiction

theorem readLine?_suffix {text : String} (h : readLine? cs = some (text, rest)) : rest <:+ cs := by
  unfold readLine? at h
  split at h
  · exact (readAfter_suffix h).trans (List.suffix_cons _ _)
  · exact (readAfter_suffix h).trans (List.suffix_cons _ _)
  · contradiction

theorem dropBreak_suffix (cs : List Char) : dropBreak cs <:+ cs := by
  unfold dropBreak
  split
  · exact List.suffix_cons _ _
  · exact (List.suffix_cons _ _).trans (List.suffix_cons _ _)
  · exact List.suffix_refl _

theorem read?_suffix {text : String} (h : read? cs = some (text, rest)) : rest <:+ cs := by
  have hmarks (a b c : Char) (cs : List Char) : dropBreak cs <:+ a :: b :: c :: cs :=
    (dropBreak_suffix cs).trans ⟨[a, b, c], rfl⟩
  unfold read? at h
  split at h
  · exact (readAfter_suffix h).trans (hmarks _ _ _ _)
  · exact (readAfter_suffix h).trans (hmarks _ _ _ _)
  · exact readLine?_suffix h

end Quoted

/-- Blanks behind a word are not part of it, unless it goes on behind them. -/
theorem wordAfter_suffix (read blanks cs : List Char) : (wordAfter read blanks cs).2 <:+ blanks.reverse ++ cs := by
  induction cs generalizing read blanks with
  | nil => simp [wordAfter]
  | cons c cs ih =>
    unfold wordAfter
    split
    · simpa using ih read (c :: blanks)
    · split
      · exact List.suffix_refl _
      · refine (ih (c :: (blanks ++ read)) []).trans ?_
        exact (List.suffix_cons _ _).trans (List.suffix_append _ _)

theorem word_suffix (cs : List Char) : (word cs).2 <:+ cs :=
  wordAfter_suffix [] [] cs

/-! ### Keys -/

theorem keyPart?_suffix {part : String} (h : keyPart? cs = some (part, rest)) : rest <:+ cs := by
  rw [keyPart?, List.span_eq_takeWhile_dropWhile] at h
  split at h
  case h_1 => exact Quoted.readLine?_suffix h
  case h_2 heq =>
    cases heq
    cases h
    exact List.dropWhile_suffix _

theorem keyAfter?_suffix {front path : List String} {leaf : String} {parts : Nat}
    (h : keyAfter? front parts cs = some (path, leaf, rest)) : rest <:+ cs := by
  induction parts generalizing front cs with
  | zero => contradiction
  | succ parts ih =>
    simp only [keyAfter?, Option.bind_eq_bind, Option.bind_eq_some_iff] at h
    obtain ⟨⟨part, behind⟩, hpart, h⟩ := h
    have hbehind : skipBlanks behind <:+ cs :=
      (skipBlanks_suffix _).trans ((keyPart?_suffix hpart).trans (skipBlanks_suffix _))
    dsimp only at h
    split at h
    case h_1 heq => exact (ih h).trans ((List.suffix_cons _ _).trans (heq ▸ hbehind))
    case h_2 =>
      cases h
      exact hbehind

/-! ### Values -/

section Items

variable {item? : List Char → Option (Item × List Char)}
  (hitem : ∀ {cs item rest}, item? cs = some (item, rest) → rest <:+ cs)

include hitem

theorem itemsAfter?_suffix {items result : List Item} {count : Nat}
    (h : itemsAfter? item? items count cs = some (result, rest)) : rest <:+ cs := by
  have hskip := skipSpace_suffix false
  fun_induction itemsAfter? item? items count cs with
  | case1 count items cs rest' heq =>
    cases h
    exact (List.suffix_cons _ _).trans (heq ▸ hskip cs)
  | case2 => contradiction
  | case3 items cs count _ ih =>
    simp only [Option.bind_eq_bind, Option.bind_eq_some_iff] at h
    obtain ⟨⟨item, behind⟩, hread, h⟩ := h
    have hbehind : skipSpace false behind <:+ cs := (hskip _).trans ((hitem hread).trans (hskip _))
    dsimp only at h
    split at h
    case h_1 heq => exact (ih _ _ h).trans ((List.suffix_cons _ _).trans (heq ▸ hbehind))
    case h_2 heq =>
      cases h
      exact (List.suffix_cons _ _).trans (heq ▸ hbehind)
    case h_3 => contradiction

/-- A bound on the items as long as the text is as good as a larger one. -/
theorem itemsAfter?_succ {items : List Item} {count : Nat} (hcount : cs.length ≤ count) :
    itemsAfter? item? items count cs = itemsAfter? item? items (count + 1) cs := by
  fun_induction itemsAfter? item? items count cs with
  | case1 count items cs rest heq =>
    rw [itemsAfter?.eq_def]
    simp [heq]
  | case2 items cs hne =>
    obtain rfl := List.length_eq_zero_iff.mp (Nat.le_zero.mp hcount)
    rw [itemsAfter?.eq_def]
    cases hread : item? [] with
    | none => simp [skipSpace, hread]
    | some result =>
      have hbehind : result.2 = [] := List.suffix_nil.mp (hitem hread)
      simp [skipSpace, hread, hbehind]
  | case3 items cs count _ ih =>
    rw [itemsAfter?.eq_def _ _ (count + 1 + 1)]
    simp only [Option.bind_eq_bind]
    apply Option.bind_congr
    rintro ⟨item, behind⟩ hread
    have hbehind : skipSpace false behind <:+ cs :=
      (skipSpace_suffix _ _).trans ((hitem hread).trans (skipSpace_suffix _ _))
    dsimp only
    split
    case h_1 rest heq =>
      have hle : rest.length + 1 ≤ cs.length := by simpa [heq] using hbehind.length_le
      exact ih item rest (by omega)
    all_goals rfl

theorem itemsAfter?_of_le {items : List Item} {count : Nat} (hcount : cs.length ≤ count) :
    itemsAfter? item? items count cs = itemsAfter? item? items cs.length cs := by
  induction hcount with
  | refl => rfl
  | step hcount ih => rw [← itemsAfter?_succ hitem hcount, ih]

theorem entriesAfter?_suffix {entries result : Entries} {count : Nat}
    (h : entriesAfter? item? entries count cs = some (result, rest)) : rest <:+ cs := by
  have hskip := skipSpace_suffix false
  fun_induction entriesAfter? item? entries count cs with
  | case1 count entries cs rest' heq =>
    cases h
    exact (List.suffix_cons _ _).trans (heq ▸ hskip cs)
  | case2 => contradiction
  | case3 entries cs count _ ih =>
    simp only [Option.bind_eq_bind, Option.bind_eq_some_iff] at h
    obtain ⟨⟨path, leaf, afterKey⟩, hkey, afterEquals, hequals, ⟨item, behind⟩, hread, entries', -, h⟩ := h
    have hkey : afterKey <:+ cs := (keyAfter?_suffix hkey).trans (hskip _)
    have hequals : afterEquals <:+ cs := (expect?_suffix hequals).trans ((hskip _).trans hkey)
    have hbehind : skipSpace false behind <:+ cs :=
      (hskip _).trans ((hitem hread).trans ((hskip _).trans hequals))
    dsimp only at h
    split at h
    case h_1 heq => exact (ih _ _ h).trans ((List.suffix_cons _ _).trans (heq ▸ hbehind))
    case h_2 heq =>
      cases h
      exact (List.suffix_cons _ _).trans (heq ▸ hbehind)
    case h_3 => contradiction

/-- A bound on the entries as long as the text is as good as a larger one. -/
theorem entriesAfter?_succ {entries : Entries} {count : Nat} (hcount : cs.length ≤ count) :
    entriesAfter? item? entries count cs = entriesAfter? item? entries (count + 1) cs := by
  fun_induction entriesAfter? item? entries count cs with
  | case1 count entries cs rest heq =>
    rw [entriesAfter?.eq_def]
    simp [heq]
  | case2 entries cs hne =>
    obtain rfl := List.length_eq_zero_iff.mp (Nat.le_zero.mp hcount)
    have hkey : key? [] = none := rfl
    rw [entriesAfter?.eq_def]
    simp [skipSpace, hkey]
  | case3 entries cs count _ ih =>
    rw [entriesAfter?.eq_def _ _ (count + 1 + 1)]
    simp only [Option.bind_eq_bind]
    apply Option.bind_congr
    rintro ⟨path, leaf, afterKey⟩ hkey
    apply Option.bind_congr
    rintro afterEquals hequals
    apply Option.bind_congr
    rintro ⟨item, behind⟩ hread
    apply Option.bind_congr
    rintro entries' -
    have hequals : afterEquals <:+ cs := (expect?_suffix hequals).trans
      ((skipSpace_suffix _ _).trans ((keyAfter?_suffix hkey).trans (skipSpace_suffix _ _)))
    have hbehind : skipSpace false behind <:+ cs :=
      (skipSpace_suffix _ _).trans ((hitem hread).trans ((skipSpace_suffix _ _).trans hequals))
    dsimp only
    split
    case h_1 rest heq =>
      have hle : rest.length + 1 ≤ cs.length := by simpa [heq] using hbehind.length_le
      exact ih entries' rest (by omega)
    all_goals rfl

theorem entriesAfter?_of_le {entries : Entries} {count : Nat} (hcount : cs.length ≤ count) :
    entriesAfter? item? entries count cs = entriesAfter? item? entries cs.length cs := by
  induction hcount with
  | refl => rfl
  | step hcount ih => rw [← entriesAfter?_succ hitem hcount, ih]

end Items

theorem value?_suffix {depth : Nat} {item : Item} (h : value? depth cs = some (item, rest)) : rest <:+ cs := by
  induction depth using Nat.strongRecOn generalizing cs item rest with
  | ind depth ih =>
    obtain ⟨inner, tail, items, rfl, rfl, hitems, rfl⟩ | ⟨inner, tail, entries, rfl, rfl, hentries, rfl⟩ |
      ⟨text, htext, rfl⟩ | ⟨-, rfl⟩ := value?_cases h
    · exact (itemsAfter?_suffix (ih inner (Nat.lt_succ_self _)) hitems).trans (List.suffix_cons _ _)
    · exact (entriesAfter?_suffix (ih inner (Nat.lt_succ_self _)) hentries).trans (List.suffix_cons _ _)
    · exact Quoted.read?_suffix htext
    · exact word_suffix cs

/-! ### Lines -/

/-- A line ends with its break, unless it is the last. -/
theorem nextLine?_shorter (h : nextLine? cs = some rest) : rest = [] ∨ rest.length < cs.length := by
  have hblanks := (skipBlanks_suffix cs).length_le
  unfold nextLine? at h
  extract_lets behind at h
  have hbehind : behind.length ≤ cs.length := by
    unfold behind
    split
    case h_1 comment heq =>
      have hcomment := (List.dropWhile_suffix (l := comment) isPlain).length_le
      simp only [heq, List.length_cons] at hblanks
      omega
    case h_2 => exact hblanks
  clear_value behind
  split at h
  case h_1 =>
    cases h
    exact .inl rfl
  case h_2 =>
    cases h
    exact .inr hbehind
  case h_3 =>
    cases h
    exact .inr (Nat.le_of_succ_le hbehind)
  case h_4 => contradiction

namespace Reading

variable {r r' : Reading} {lines : Nat}

theorem line?_suffix (h : r.line? cs = some (r', rest)) : rest <:+ cs := by
  obtain ⟨path, leaf, afterKey, ⟨tail, bracket, rfl, hkey, hfirst, hsecond, -⟩ | ⟨tail, rfl, hkey, hbracket, -⟩ |
    ⟨tail, item, hkey, hequals, hvalue, -⟩⟩ := line?_cases h
  · have htail : bracket <:+ tail := (expect?_suffix hfirst).trans (keyAfter?_suffix hkey)
    exact ((expect?_suffix hsecond).trans htail).trans ((List.suffix_cons _ _).trans (List.suffix_cons _ _))
  · exact ((expect?_suffix hbracket).trans (keyAfter?_suffix hkey)).trans (List.suffix_cons _ _)
  · have htail : tail <:+ cs := (expect?_suffix hequals).trans (keyAfter?_suffix hkey)
    exact (value?_suffix hvalue).trans ((skipBlanks_suffix _).trans htail)

/-- A bound on the lines as long as the text is as good as a larger one. -/
theorem lines?_succ (hlines : cs.length ≤ lines) : r.lines? lines cs = r.lines? (lines + 1) cs := by
  fun_induction lines? r lines cs with
  | case1 r lines cs heq =>
    rw [lines?.eq_def]
    simp [heq]
  | case2 r cs hne =>
    obtain rfl := List.length_eq_zero_iff.mp (Nat.le_zero.mp hlines)
    exact absurd rfl hne
  | case3 r cs lines hne ih =>
    rw [lines?.eq_def _ (lines + 1 + 1)]
    simp only [Option.bind_eq_bind]
    apply Option.bind_congr
    rintro ⟨r', behind⟩ hline
    apply Option.bind_congr
    rintro next hnext
    have hbehind := ((line?_suffix hline).trans (skipSpace_suffix _ _)).length_le
    apply ih
    obtain rfl | hshorter := nextLine?_shorter hnext
    · exact Nat.zero_le _
    · dsimp only at hshorter
      omega

/-- All lines of a text, without a bound. -/
def all? (r : Reading) (cs : List Char) : Option Reading :=
  r.lines? cs.length cs

theorem lines?_eq_all (hlines : cs.length ≤ lines) : r.lines? lines cs = r.all? cs := by
  induction hlines with
  | refl => rfl
  | step hlines ih => rw [← lines?_succ hlines, ih]

end Reading

end BitStore.Toml
