import BitStore.Outcome
import BitStore.Storage

/-! Reading arrays from storage: the 64-bit element count, then the elements
packed end to end. Elements are decoded when they are bitsets. Bytes that are
not there and addresses that do not exist make the answer `missing`. Single
elements and whole arrays need no more than a reader, which answers for element
counts and elements in any monad; storages are one. -/

namespace BitStore

/-! ### Counts and elements -/

/-- The storages there are, by number. -/
abbrev Storages := Nat → Storage

/-- A single storage goes by every number. -/
instance : Coe Storage Storages := ⟨fun store _ => store⟩

namespace StoredArray

variable (a : StoredArray) (stores : Storages)

def length? : Option Nat :=
  (stores a.start.storage).countAt a.start.toAddress

/-- The element at an index, whatever the element count says. -/
def elementAt (index : Nat) : Outcome Value :=
  match a.element with
  | .bitset width =>
    match a.start.element width index with
    | .ok address => .ofOption ((stores a.start.storage).access address width)
    | .error _ => .missing
  | _ => .fault (.notImplemented .structuredElements)

end StoredArray

/-! ### Readers -/

/-- Answers for the element counts of arrays, and for elements whatever the count says. -/
structure Reader (m : Type → Type) where
  length : StoredArray → m Nat
  element : StoredArray → (index : Nat) → m Value

namespace Reader

variable {m : Type → Type} [Monad m] [MonadLiftT Outcome m]

/-- Storages answer with what they hold. -/
def of (stores : Storages) : Reader m where
  length a := liftM (Outcome.ofOption (a.length? stores))
  element a index := liftM (a.elementAt stores index)

variable (reader : Reader m) (a : StoredArray)

/-- The element at an index below the element count. -/
@[specialize]
def get (index : Nat) : m Value := do
  let length ← reader.length a
  if index < length then reader.element a index else (Fault.indexOutOfRange index length).raise

/-- Reads `count` elements from `index` on, after those already `read`. -/
@[specialize]
def elementsAfter (read : Array Value) (index : Nat) : (count : Nat) → m (List Value)
  | 0 => return read.toList
  | count + 1 => do
    let element ← reader.element a index
    elementsAfter (read.push element) (index + 1) count

/-- The whole array as a tuple. -/
@[specialize]
def materialize : m Value := do
  let length ← reader.length a
  let elements ← reader.elementsAfter a #[] 0 length
  return .tuple elements

end Reader

/-! ### Arrays in storage -/

namespace StoredArray

variable (a : StoredArray) (stores : Storages)

def get (index : Nat) : Outcome Value :=
  (Reader.of stores).get a index

def elementsAfter (read : Array Value) (index count : Nat) : Outcome (List Value) :=
  (Reader.of stores).elementsAfter a read index count

def materialize : Outcome Value :=
  (Reader.of stores).materialize a

theorem get_eq (index : Nat) : a.get stores index = (do
    let length ← Outcome.ofOption (a.length? stores)
    if index < length then a.elementAt stores index else .fault (.indexOutOfRange index length)) :=
  rfl

theorem elementsAfter_zero (read : Array Value) (index : Nat) :
    a.elementsAfter stores read index 0 = .found read.toList :=
  rfl

theorem elementsAfter_succ (read : Array Value) (index count : Nat) :
    a.elementsAfter stores read index (count + 1) =
      a.elementAt stores index >>= fun element => a.elementsAfter stores (read.push element) (index + 1) count :=
  rfl

theorem materialize_eq : a.materialize stores = (do
    let length ← Outcome.ofOption (a.length? stores)
    let elements ← a.elementsAfter stores #[] 0 length
    return .tuple elements) :=
  rfl

end StoredArray

end BitStore
