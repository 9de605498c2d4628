import BitStore.AddressSpace
import BitStore.Settings.Basic
import BitStore.Toml.Document
import BitStore.Toml.Written

/-! Settings as TOML documents with a section for each part of the engine. Every
section and key may be left out and then has its default; keys that are not
known are passed over, though their numbers have to be readable. -/

namespace BitStore

inductive SettingsError where
  /-- There is no text to read. -/
  | unreadable
  /-- The text is not TOML, or a setting has a value of the wrong type or size. -/
  | malformed
  deriving DecidableEq

namespace Toml.Item

/-- A number below the size of the address space. -/
def toSize? : Item → Option Nat
  | .integer n => if 0 ≤ n ∧ n.toNat < AddressSpace.size then some n.toNat else none
  | _ => none

def toBool? : Item → Option Bool
  | .boolean b => some b
  | _ => none

def toText? : Item → Option String
  | .string text => some text
  | _ => none

end Toml.Item

namespace Settings

/-- The one setting of a section, if the document has it. Sections are tables, but
an array gives the setting by position. -/
def settingOf? (section? : Option Toml.Item) (key : String) : Except SettingsError (Option Toml.Item) :=
  match section? with
  | none => .ok none
  | some (.table _ entries) => .ok (entries.lookup key)
  | some (.array items) => .ok items.head?
  | some (.tables elements) => .ok (elements.head?.map (.table .header))
  | some (.moment _) => .ok none
  | some _ => .error .malformed

/-- A setting of the document, or its default. -/
def read {α : Type} (document : Toml.Entries) (sectionName key : String) (convert? : Toml.Item → Option α)
    (default : α) : Except SettingsError α := do
  match ← settingOf? (document.lookup sectionName) key with
  | none => return default
  | some item =>
    match convert? item with
    | some a => return a
    | none => throw .malformed

def sectionNames : List String :=
  ["storage", "plan", "sql"]

/-- Nobody reads past the setting in a section that is an array. All else in a
document has to be readable. -/
def isReadable (document : Toml.Entries) : Bool :=
  document.all fun (name, item) =>
    match item with
    | .array _ => sectionNames.contains name || item.isReadable
    | _ => item.isReadable

/-- The settings that a text gives. -/
def parse (text : String) : Except SettingsError Settings := do
  match (Toml.parse? text).filter isReadable with
  | none => throw .malformed
  | some document =>
    let default : Settings := {}
    return {
      initialCapacity := ← read document "storage" "initial_capacity" Toml.Item.toSize? default.initialCapacity
      analyzeGetters := ← read document "plan" "analyze_getters" Toml.Item.toBool? default.analyzeGetters
      rootTable := ← read document "sql" "root_table" Toml.Item.toText? default.rootTable
    }

/-- The settings in a file, given its content if it can be read. -/
def ofFile (content? : Option ByteArray) : Except SettingsError Settings :=
  match content?.bind String.fromUTF8? with
  | some text => parse text
  | none => .error .unreadable

/-- The settings as a document that gives all of them. -/
def render (s : Settings) : String :=
  "[storage]\ninitial_capacity = " ++ toString s.initialCapacity ++
    "\n\n[plan]\nanalyze_getters = " ++ toString s.analyzeGetters ++
    "\n\n[sql]\nroot_table = " ++ Toml.Written.quote s.rootTable ++ "\n"

end Settings

end BitStore
