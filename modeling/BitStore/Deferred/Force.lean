import BitStore.Deferred.Basic
import BitStore.StoredArray
import BitStore.Value.Unsigned

/-! Turning deferred values into data: forcing them whole, reading them as an
index, and picking out one element. Closures are not data. -/

namespace BitStore

namespace Reader

variable {m : Type → Type} [Monad m] [MonadLiftT Outcome m] (reader : Reader m)

mutual

/-- The plain value behind a deferred one, with stored arrays read in full. -/
@[specialize]
def force : Deferred → m Value
  | .value v => if v.containsClosure then (Fault.notReducible .closure).raise else return v
  | .array a => reader.materialize a
  | .tuple elements => do return .tuple (← forceAll elements)
  | .closure _ _ => (Fault.notReducible .closure).raise

@[specialize]
def forceAll : List Deferred → m (List Value)
  | [] => return []
  | d :: ds => do
    let v ← force d
    let vs ← forceAll ds
    return v :: vs

end

end Reader

namespace Deferred

/-- The plain values that these deferred values are, if they all are. -/
def values? : List Deferred → Option (List Value)
  | [] => some []
  | .value v :: ds => (values? ds).map (v :: ·)
  | _ :: _ => none

/-- The number that a tuple of at most 64 bits denotes, plain or deferred. -/
def toIndex (d : Deferred) : Except Fault Nat :=
  let elements? : Option (List Value) :=
    match d with
    | .value (.tuple elements) => some elements
    | .tuple elements => values? elements
    | _ => none
  match elements?.map (Value.numberOf AddressSpace.width) with
  | some (.ok n) => .ok n
  | _ => .error (.invalidIndex d)

/-- The element at an index of a list. -/
def pick {α : Type} (elements : List α) (index : Nat) : Except Fault α :=
  match elements[index]? with
  | some a => .ok a
  | none => .error (.indexOutOfRange index elements.length)

end Deferred

/-- The element at an index of a tuple or of a stored array. -/
@[specialize]
def Reader.item {m : Type → Type} [Monad m] [MonadLiftT Outcome m] (reader : Reader m) (index : Nat) :
    Deferred → m Deferred
  | .array a => do return .value (← reader.get a index)
  | .tuple elements => liftM (Outcome.ofExcept (Deferred.pick elements index))
  | .value (.tuple elements) => do return .value (← Outcome.ofExcept (Deferred.pick elements index))
  | .value (.closure _ _) => (Fault.notIndexable .closure).raise
  | .value v => (Fault.notATuple v).raise
  | .closure _ _ => (Fault.notIndexable .closure).raise

/-! ### Deferred values over storages -/

namespace Deferred

variable (stores : Storages)

def force (d : Deferred) : Outcome Value :=
  (Reader.of stores).force d

def forceAll (ds : List Deferred) : Outcome (List Value) :=
  (Reader.of stores).forceAll ds

def item (index : Nat) (d : Deferred) : Outcome Deferred :=
  (Reader.of stores).item index d

theorem force_value (v : Value) :
    (value v).force stores = if v.containsClosure then .fault (.notReducible .closure) else .found v :=
  rfl

theorem force_array (a : StoredArray) : (array a).force stores = a.materialize stores :=
  rfl

theorem force_tuple (ds : List Deferred) : (tuple ds).force stores = .tuple <$> forceAll stores ds :=
  rfl

theorem forceAll_cons (d : Deferred) (ds : List Deferred) : forceAll stores (d :: ds) = (do
    let v ← d.force stores
    let vs ← forceAll stores ds
    return v :: vs) :=
  rfl

theorem item_array (a : StoredArray) (index : Nat) : (array a).item stores index = value <$> a.get stores index :=
  rfl

theorem item_tuple (ds : List Deferred) (index : Nat) : (tuple ds).item stores index = .ofExcept (pick ds index) :=
  rfl

theorem item_value_tuple (vs : List Value) (index : Nat) :
    (value (.tuple vs)).item stores index = value <$> .ofExcept (pick vs index) :=
  rfl

end Deferred

end BitStore
