import BitStore.Proofs.Toml.Lines
import BitStore.Settings.Document

/-! Settings that were saved load as they were, whatever name the root table has. -/

namespace BitStore

open Toml

namespace Settings

variable {s : Settings}

/-- The document that gives all settings. -/
def document (s : Settings) : Entries :=
  [("storage", .table .header [("initial_capacity", .integer s.initialCapacity)]),
    ("plan", .table .header [("analyze_getters", .boolean s.analyzeGetters)]),
    ("sql", .table .header [("root_table", .string s.rootTable)])]

/-- The settings are saved in three sections with a line each. -/
theorem sections_render (h : s.initialCapacity < 1 <<< 128) : s.document.Sections s.render.toList := by
  have hcapacity := Item.isWritten_number h
  have hanalyze := Item.isWritten_boolean s.analyzeGetters
  have htable := Item.isWritten_string s.rootTable
  unfold render document
  -- only what the written values stand for matters from here on
  generalize toString s.initialCapacity = capacity at hcapacity ⊢
  generalize toString s.analyzeGetters = analyze at hanalyze ⊢
  generalize Written.quote s.rootTable = table at htable ⊢
  have hstorage := Entries.Lines.entry "initial_capacity" (by decide) hcapacity (by simp) .nil
  have hplan := Entries.Lines.entry "analyze_getters" (by decide) hanalyze (by simp) .nil
  have hsql := Entries.Lines.entry "root_table" (by decide) htable (by simp) .nil
  have hsections := Entries.Sections.nil
    |>.header "sql" (by decide) hsql (by simp)
    |>.blank
    |>.header "plan" (by decide) hplan (by simp)
    |>.blank
    |>.header "storage" (by decide) hstorage (by simp)
  simpa using hsections

/-- A setting that its section gives is read as it is given there. -/
theorem read_eq {α : Type} {a default : α} {document entries : Entries} {origin : Origin} {sectionName key : String}
    {item : Item} {convert? : Item → Option α} (hsection : document.lookup sectionName = some (.table origin entries))
    (hkey : entries.lookup key = some item) (hconvert : convert? item = some a) :
    read document sectionName key convert? default = .ok a := by
  have hsetting : settingOf? (document.lookup sectionName) key = .ok (some item) := by
    rw [hsection, ← hkey]
    rfl
  simp [read, hsetting, hconvert, bind, Except.bind, pure, Except.pure]

theorem parse_render (h : s.initialCapacity < AddressSpace.size) : parse s.render = .ok s := by
  have hsize : s.initialCapacity < 1 <<< 128 := h.trans (by decide)
  have hdocument : (parse? s.render).filter isReadable = some s.document := by
    rw [parse?_of_sections (sections_render hsize)]
    rfl
  have hcapacity : Item.toSize? (.integer s.initialCapacity) = some s.initialCapacity := by simp [Item.toSize?, h]
  have hstorage : read s.document "storage" "initial_capacity" Item.toSize? 0 = .ok s.initialCapacity :=
    read_eq rfl rfl hcapacity
  have hplan : read s.document "plan" "analyze_getters" Item.toBool? true = .ok s.analyzeGetters :=
    read_eq rfl rfl rfl
  have hsql : read s.document "sql" "root_table" Item.toText? "root" = .ok s.rootTable := read_eq rfl rfl rfl
  simp only [parse, hdocument, hstorage, hplan, hsql]
  rfl

/-- Settings that are saved to a file load as they were. -/
theorem ofFile_render (h : s.initialCapacity < AddressSpace.size) : ofFile (some s.render.toUTF8) = .ok s := by
  have htext : String.fromUTF8? s.render.toUTF8 = some s.render := by
    rw [String.fromUTF8?]
    exact dif_pos s.render.isValidUTF8
  simp only [ofFile, Option.bind_some, htext]
  exact parse_render h

/-! ### What loads -/

/-- A setting is its default or what an item of the document says. -/
theorem eq_or_of_read {α : Type} {a default : α} {document : Entries} {sectionName key : String}
    {convert? : Item → Option α} (h : read document sectionName key convert? default = .ok a) :
    a = default ∨ ∃ item, convert? item = some a := by
  unfold read at h
  cases hsetting : settingOf? (document.lookup sectionName) key with
  | error e => simp [hsetting, bind, Except.bind] at h
  | ok item? =>
    cases item? with
    | none =>
      simp [hsetting, bind, Except.bind, pure, Except.pure] at h
      exact .inl h.symm
    | some item =>
      refine .inr ⟨item, ?_⟩
      cases hconvert : convert? item <;>
        simp_all [bind, Except.bind, pure, Except.pure, throw, throwThe, MonadExceptOf.throw]

theorem initialCapacity_lt {text : String} (h : parse text = .ok s) : s.initialCapacity < AddressSpace.size := by
  unfold parse at h
  split at h
  case h_1 => contradiction
  case h_2 document _ =>
    cases hcapacity : read document "storage" "initial_capacity" Item.toSize? 0 with
    | error e => simp [hcapacity, bind, Except.bind] at h
    | ok capacity =>
      have hs : s.initialCapacity = capacity := by
        simp only [hcapacity, bind, Except.bind] at h
        split at h
        · contradiction
        · split at h
          · contradiction
          · cases h
            rfl
      rw [hs]
      obtain rfl | ⟨item, hitem⟩ := eq_or_of_read hcapacity
      · decide
      · cases item <;> simp [Item.toSize?] at hitem
        omega

/-- What loads from any document is saved as a document of its own, and loads from there again. -/
theorem parse_render_of_parse {text : String} (h : parse text = .ok s) : parse s.render = .ok s :=
  parse_render (initialCapacity_lt h)

end Settings

end BitStore
