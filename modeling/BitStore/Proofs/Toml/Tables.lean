import BitStore.Toml.Document
import Mathlib.Data.Option.Basic
import Mathlib.Tactic.SplitIfs

/-! No document gives a key twice. The keys of a table are told apart when it is
read, whichever way its lines add to it, and so are those of the tables within. -/

namespace BitStore.Toml

/-- No table in the item has a key twice. -/
inductive Item.Distinct : Item → Prop where
  | string (text : String) : Distinct (.string text)
  | integer (n : Int) : Distinct (.integer n)
  | float (text : String) : Distinct (.float text)
  | boolean (b : Bool) : Distinct (.boolean b)
  | unreadable (text : String) : Distinct (.unreadable text)
  | moment (text : String) : Distinct (.moment text)
  | array {items : List Item} (hitems : ∀ item ∈ items, Distinct item) : Distinct (.array items)
  | table {origin : Origin} {entries : Entries} (hkeys : (entries.map Prod.fst).Nodup)
      (hitems : ∀ entry ∈ entries, Distinct entry.2) : Distinct (.table origin entries)
  | tables {elements : List Entries} (hkeys : ∀ entries ∈ elements, (entries.map Prod.fst).Nodup)
      (hitems : ∀ entries ∈ elements, ∀ entry ∈ entries, Distinct entry.2) : Distinct (.tables elements)

/-- No key is given twice, here or in the tables within. -/
structure Entries.Distinct (entries : Entries) : Prop where
  keys : (entries.map Prod.fst).Nodup
  items : ∀ entry ∈ entries, entry.2.Distinct

theorem Item.distinct_table {origin : Origin} {entries : Entries} :
    (Item.table origin entries).Distinct ↔ entries.Distinct := by
  constructor
  · intro h
    cases h with
    | table hkeys hitems => exact ⟨hkeys, hitems⟩
  · exact fun h => .table h.keys h.items

theorem Item.distinct_tables {elements : List Entries} :
    (Item.tables elements).Distinct ↔ ∀ entries ∈ elements, Entries.Distinct entries := by
  constructor
  · intro h
    cases h with
    | tables hkeys hitems => exact fun entries he => ⟨hkeys entries he, hitems entries he⟩
  · exact fun h => .tables (fun entries he => (h entries he).keys) (fun entries he => (h entries he).items)

namespace Entries

variable {entries inner result : Entries} {key leaf : String} {item : Item} {origin : Origin} {path : List String}

/-! ### One table -/

theorem lookup_eq_none : entries.lookup key = none ↔ key ∉ entries.map Prod.fst := by
  rw [List.lookup_eq_none_iff]
  grind

theorem mem_of_lookup (h : entries.lookup key = some item) : (key, item) ∈ entries := by
  obtain ⟨front, back, rfl, -⟩ := List.lookup_eq_some_iff.mp h
  simp

theorem replace_of_not_mem (h : key ∉ entries.map Prod.fst) : entries.replace key item = entries := by
  refine (List.map_congr_left fun entry hentry => ?_).trans (List.map_id _)
  have : entry.1 ≠ key := fun heq => h (heq ▸ List.mem_map_of_mem hentry)
  simp [this]

theorem map_replace : (entries.replace key item).map Prod.fst = entries.map Prod.fst := by
  simp only [replace, List.map_map]
  refine List.map_congr_left fun entry _ => ?_
  by_cases h : entry.1 = key <;> simp [h]

namespace Distinct

theorem nil : Distinct [] :=
  ⟨by simp, by simp⟩

theorem append (h : Distinct entries) (hkey : entries.lookup key = none) (hitem : item.Distinct) :
    Distinct (entries ++ [(key, item)]) where
  keys := by
    rw [List.map_append, List.nodup_append]
    have := lookup_eq_none.mp hkey
    refine ⟨h.keys, by simp, ?_⟩
    grind
  items := by
    have := h.items
    grind

theorem replace (h : Distinct entries) (hitem : item.Distinct) : Distinct (entries.replace key item) where
  keys := by
    rw [map_replace]
    exact h.keys
  items := by
    have := h.items
    simp only [Entries.replace]
    grind

theorem lookup (h : Distinct entries) (hkey : entries.lookup key = some item) : item.Distinct :=
  h.items _ (mem_of_lookup hkey)

end Distinct

/-! ### Adding to tables -/

/-- A change made somewhere in a document keeps keys distinct if it does so where it is made. -/
theorem Distinct.alterAt {dotted : Bool} {change : Origin → Entries → Option Entries}
    (hchange : ∀ origin entries result, Distinct entries → change origin entries = some result → Distinct result)
    (h : Distinct entries) (hresult : Entries.alterAt dotted change path origin entries = some result) :
    Distinct result := by
  induction path generalizing origin entries result with
  | nil => exact hchange origin entries result h hresult
  | cons key path ih =>
    rw [Entries.alterAt] at hresult
    split at hresult
    case h_1 hnone =>
      simp only [Option.bind_eq_bind, Option.bind_eq_some_iff] at hresult
      obtain ⟨inner, hinner, hresult⟩ := hresult
      cases hresult
      exact h.append hnone (Item.distinct_table.mpr (ih .nil hinner))
    case h_2 origin inner hsome =>
      simp only [Option.bind_eq_bind, Option.bind_eq_some_iff] at hresult
      obtain ⟨-, -, inner', hinner, hresult⟩ := hresult
      cases hresult
      exact h.replace (Item.distinct_table.mpr (ih (Item.distinct_table.mp (h.lookup hsome)) hinner))
    case h_3 elements hsome =>
      simp only [Option.bind_eq_bind, Option.bind_eq_some_iff] at hresult
      obtain ⟨last, hlast, last', hinner, hresult⟩ := hresult
      cases hresult
      have helements := Item.distinct_tables.mp (h.lookup hsome)
      have hdistinct := ih (helements last (List.mem_of_getLast? hlast)) hinner
      refine h.replace (Item.distinct_tables.mpr fun entries he => ?_)
      obtain he | he := List.mem_append.mp he
      · exact helements entries ((List.dropLast_sublist elements).mem he)
      · rwa [List.mem_singleton.mp he]
    case h_4 => contradiction

theorem Distinct.openTable (h : Distinct entries) (hresult : Entries.openTable leaf origin entries = some result) :
    Distinct result := by
  rw [Entries.openTable] at hresult
  split at hresult
  case h_1 hnone =>
    cases hresult
    exact h.append hnone (Item.distinct_table.mpr .nil)
  case h_2 inner hsome =>
    cases hresult
    exact h.replace (Item.distinct_table.mpr (Item.distinct_table.mp (h.lookup hsome)))
  case h_3 => contradiction

theorem Distinct.addTable (h : Distinct entries) (hresult : Entries.addTable leaf origin entries = some result) :
    Distinct result := by
  rw [Entries.addTable] at hresult
  split at hresult
  case h_1 hnone =>
    cases hresult
    exact h.append hnone (Item.distinct_tables.mpr (by simp [Distinct.nil]))
  case h_2 elements hsome =>
    cases hresult
    have helements := Item.distinct_tables.mp (h.lookup hsome)
    refine h.replace (Item.distinct_tables.mpr fun entries he => ?_)
    obtain he | he := List.mem_append.mp he
    · exact helements entries he
    · exact List.mem_singleton.mp he ▸ .nil
  case h_3 => contradiction

theorem Distinct.insert (h : Distinct entries) (hitem : item.Distinct)
    (hresult : Entries.insert path leaf item origin entries = some result) : Distinct result := by
  refine h.alterAt (fun origin entries result h hresult => ?_) hresult
  simp only [Option.bind_eq_bind, Option.bind_eq_some_iff] at hresult
  obtain ⟨-, -, ⟨⟩, hguard, hresult⟩ := hresult
  cases hresult
  have hnone : entries.lookup leaf = none := by simpa using hguard
  exact h.append hnone hitem

end Entries

/-! ### Values -/

variable {item? : List Char → Option (Item × List Char)} {count : Nat} {cs rest : List Char}

theorem itemsAfter?_distinct {items result : List Item}
    (hitem : ∀ {cs item rest}, item? cs = some (item, rest) → item.Distinct)
    (hitems : ∀ item ∈ items, item.Distinct) (h : itemsAfter? item? items count cs = some (result, rest)) :
    ∀ item ∈ result, item.Distinct := by
  fun_induction itemsAfter? item? items count cs with
  | case1 count items cs rest' hskip =>
    cases h
    exact hitems
  | case2 => contradiction
  | case3 items cs count _ ih =>
    simp only [Option.bind_eq_bind, Option.bind_eq_some_iff] at h
    obtain ⟨⟨item, rest'⟩, hread, h⟩ := h
    have hmore : ∀ other ∈ items ++ [item], other.Distinct := by
      have := hitem hread
      grind
    dsimp only at h
    split at h
    · exact ih item _ hmore h
    · cases h
      exact hmore
    · contradiction

theorem entriesAfter?_distinct {entries result : Entries}
    (hitem : ∀ {cs item rest}, item? cs = some (item, rest) → item.Distinct)
    (hentries : entries.Distinct) (h : entriesAfter? item? entries count cs = some (result, rest)) :
    result.Distinct := by
  fun_induction entriesAfter? item? entries count cs with
  | case1 =>
    cases h
    exact hentries
  | case2 => contradiction
  | case3 entries cs count _ ih =>
    simp only [Option.bind_eq_bind, Option.bind_eq_some_iff] at h
    obtain ⟨⟨path, leaf, rest⟩, -, rest', -, ⟨item, rest''⟩, hread, entries', hinsert, h⟩ := h
    have hmore := hentries.insert (hitem hread) hinsert
    dsimp only at h
    split at h
    · exact ih _ _ hmore h
    · cases h
      exact hmore
    · contradiction

theorem scalar?_distinct {word : List Char} {item : Item} (h : scalar? word = some item) : item.Distinct := by
  unfold scalar? at h
  dsimp only at h
  split_ifs at h
  · cases h
    exact .boolean true
  · cases h
    exact .boolean false
  · cases h
    exact .float _
  · cases h
    cases Number.integer? word with
    | none => exact .unreadable _
    | some n => exact .integer n
  · cases h
    exact .moment _
  · obtain ⟨f, -, h⟩ := Option.map_eq_some_iff.mp h
    split_ifs at h <;> cases h
    · exact .float _
    · exact .unreadable _

/-- Every value that is read tells its keys apart, however deep they lie. -/
theorem value?_distinct {depth : Nat} {item : Item} (h : value? depth cs = some (item, rest)) : item.Distinct := by
  induction depth using Nat.strongRecOn generalizing cs item rest with
  | ind depth ih =>
    obtain ⟨inner, tail, items, rfl, -, hitems, rfl⟩ | ⟨inner, tail, entries, rfl, -, hentries, rfl⟩ |
      ⟨text, -, rfl⟩ | ⟨hscalar, -⟩ := value?_cases h
    · exact .array (itemsAfter?_distinct (ih inner (Nat.lt_succ_self _)) (by simp) hitems)
    · exact Item.distinct_table.mpr (entriesAfter?_distinct (ih inner (Nat.lt_succ_self _)) .nil hentries)
    · exact .string text
    · exact scalar?_distinct hscalar

/-! ### Documents -/

namespace Reading

variable {r r' : Reading} {path : List String} {leaf : String} {item : Item}

theorem openAt_distinct (h : r.root.Distinct) (hread : r.openAt path leaf = some r') : r'.root.Distinct := by
  simp only [openAt, Option.bind_eq_bind, Option.bind_eq_some_iff] at hread
  obtain ⟨root, hroot, hread⟩ := hread
  cases hread
  exact h.alterAt (fun _ _ _ => .openTable) hroot

theorem addAt_distinct (h : r.root.Distinct) (hread : r.addAt path leaf = some r') : r'.root.Distinct := by
  simp only [addAt, Option.bind_eq_bind, Option.bind_eq_some_iff] at hread
  obtain ⟨root, hroot, hread⟩ := hread
  cases hread
  exact h.alterAt (fun _ _ _ => .addTable) hroot

theorem insert_distinct (h : r.root.Distinct) (hitem : item.Distinct) (hread : r.insert path leaf item = some r') :
    r'.root.Distinct := by
  simp only [insert, Option.bind_eq_bind, Option.bind_eq_some_iff] at hread
  obtain ⟨root, hroot, hread⟩ := hread
  cases hread
  exact h.alterAt (fun _ _ _ hentries => hentries.insert hitem) hroot

/-- One line keeps keys distinct. -/
theorem line?_distinct (h : r.root.Distinct) (hread : r.line? cs = some (r', rest)) : r'.root.Distinct := by
  obtain ⟨path, leaf, _, ⟨_, _, -, -, -, -, hadd⟩ | ⟨_, -, -, -, hopen⟩ | ⟨_, item, -, -, hvalue, hinsert⟩⟩ :=
    line?_cases hread
  · exact addAt_distinct h hadd
  · exact openAt_distinct h hopen
  · exact insert_distinct h (value?_distinct hvalue) hinsert

/-- So does a whole run over the lines. -/
theorem lines?_distinct {lines : Nat} (h : r.root.Distinct) (hread : r.lines? lines cs = some r') :
    r'.root.Distinct := by
  fun_induction lines? r lines cs with
  | case1 =>
    cases hread
    exact h
  | case2 => contradiction
  | case3 r cs lines _ ih =>
    simp only [Option.bind_eq_bind, Option.bind_eq_some_iff] at hread
    obtain ⟨⟨r'', rest⟩, hline, _, -, hread⟩ := hread
    exact ih _ _ (line?_distinct h hline) hread

end Reading

/-- No document gives a key twice. -/
theorem parse?_distinct {text : String} {entries : Entries} (h : parse? text = some entries) : entries.Distinct := by
  simp only [parse?, Option.bind_eq_bind, Option.bind_eq_some_iff] at h
  obtain ⟨reading, hread, h⟩ := h
  cases h
  exact Reading.lines?_distinct .nil hread

end BitStore.Toml
