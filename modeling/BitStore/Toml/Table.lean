/-! The items of a TOML document, and the rules by which its lines add to a
table. A table remembers how it came about, because that decides what may still
be added: a header may complete a table that other headers only implied, dotted
keys may extend what dotted keys made, an inline table is closed, and no key is
ever given twice. -/

namespace BitStore.Toml

/-- How a table came about. -/
inductive Origin where
  /-- Opened by its own header; the document itself counts as opened. -/
  | header
  /-- Named on the way to another header's table. -/
  | implied
  /-- Named on the way to a dotted key. -/
  | dotted
  /-- Written between braces. -/
  | inline
  deriving DecidableEq

inductive Item where
  | string (text : String)
  | integer (n : Int)
  /-- A number with a fraction or an exponent, as written. -/
  | float (text : String)
  | boolean (b : Bool)
  /-- A word in the form of a number that gives none, as written. -/
  | unreadable (text : String)
  /-- A date, a time or both, as written. -/
  | moment (text : String)
  | array (items : List Item)
  | table (origin : Origin) (entries : List (String × Item))
  /-- Tables under one repeated header. -/
  | tables (elements : List (List (String × Item)))

/-- The entries of a table, in the order of their first mention. -/
abbrev Entries := List (String × Item)

/-! ### Whether all of it can be read -/

mutual

/-- Every number in the item can be read. -/
def Item.isReadable : Item → Bool
  | .string _ => true
  | .integer _ => true
  | .float _ => true
  | .boolean _ => true
  | .unreadable _ => false
  | .moment _ => true
  | .array items => Item.areReadable items
  | .table _ entries => Entries.areReadable entries
  | .tables elements => Entries.allReadable elements

def Item.areReadable : List Item → Bool
  | [] => true
  | item :: items => item.isReadable && Item.areReadable items

def Entries.areReadable : List (String × Item) → Bool
  | [] => true
  | (_, item) :: entries => item.isReadable && Entries.areReadable entries

def Entries.allReadable : List (List (String × Item)) → Bool
  | [] => true
  | entries :: elements => Entries.areReadable entries && Entries.allReadable elements

end

/-! ### Adding to tables -/

namespace Entries

/-- Replaces the item of a key that is present. -/
def replace (key : String) (item : Item) (entries : Entries) : Entries :=
  entries.map fun entry => if entry.1 = key then (key, item) else entry

/-- Changes the table that `path` leads to, making missing tables on the way.
With `dotted` the path is that of a dotted key, and else that of a header. -/
def alterAt (dotted : Bool) (change : Origin → Entries → Option Entries) :
    (path : List String) → Origin → Entries → Option Entries
  | [], origin, entries => change origin entries
  | key :: path, _, entries =>
    match entries.lookup key with
    | none => do
      let origin := if dotted then .dotted else .implied
      let inner ← alterAt dotted change path origin []
      return entries ++ [(key, .table origin inner)]
    | some (.table origin inner) => do
      guard (origin ≠ .inline ∧ ¬(dotted ∧ origin = .header))
      let inner ← alterAt dotted change path origin inner
      return entries.replace key (.table origin inner)
    | some (.tables elements) => do
      let last ← elements.getLast?
      let last ← alterAt dotted change path .header last
      return entries.replace key (.tables (elements.dropLast ++ [last]))
    | some _ => none

/-- Opens the table `leaf` under its own header. -/
def openTable (leaf : String) (_ : Origin) (entries : Entries) : Option Entries :=
  match entries.lookup leaf with
  | none => some (entries ++ [(leaf, .table .header [])])
  | some (.table .implied inner) => some (entries.replace leaf (.table .header inner))
  | some _ => none

/-- Adds one more table under the repeated header `leaf`. -/
def addTable (leaf : String) (_ : Origin) (entries : Entries) : Option Entries :=
  match entries.lookup leaf with
  | none => some (entries ++ [(leaf, .tables [[]])])
  | some (.tables elements) => some (entries.replace leaf (.tables (elements ++ [[]])))
  | some _ => none

/-- Adds a key and its item to the table that dotted keys lead to, from a table
of the given origin. -/
def insert (path : List String) (leaf : String) (item : Item) : Origin → Entries → Option Entries :=
  path |> alterAt true fun origin entries => do
    guard (origin = .dotted ↔ path ≠ [])
    guard (entries.lookup leaf).isNone
    return entries ++ [(leaf, item)]

end Entries

end BitStore.Toml
