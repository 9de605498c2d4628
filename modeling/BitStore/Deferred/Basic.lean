import BitStore.Layout.Basic
import BitStore.Value.Basic

/-! What evaluation computes with. A deferred value may still refer to arrays in
storages, or hold other deferred values in a tuple or behind a closure, so that
stored data is read only where it is needed. -/

namespace BitStore

/-- A bit offset into one of several storages, which are told apart by number. -/
structure StoragePointer extends Address where
  storage : Nat
  deriving DecidableEq

/-- With a single storage, an address is all it takes. -/
instance : Coe Address StoragePointer := ⟨fun a => ⟨a, 0⟩⟩

def StoragePointer.zero : StoragePointer := Address.zero

/-- An array in storage: where its element count is, and how an element is packed. -/
structure StoredArray where
  start : StoragePointer
  element : Layout
  deriving DecidableEq

inductive Deferred where
  | value (v : Value)
  | array (a : StoredArray)
  | tuple (elements : List Deferred)
  | closure (body : Expr) (bound : Deferred)

namespace Deferred

def kind : Deferred → Kind
  | .value v => v.kind
  | .array _ => .array
  | .tuple _ => .tuple
  | .closure _ _ => .closure

/-- Both the closures that evaluation makes and those that come as data can be invoked. -/
def isClosure (d : Deferred) : Bool :=
  d.kind == .closure

theorem isClosure_cases (d : Deferred) :
    d.isClosure = false ∨ (∃ body bound, d = .closure body bound) ∨ ∃ body bound, d = .value (.closure body bound) := by
  cases d with
  | closure body bound => exact .inr (.inl ⟨body, bound, rfl⟩)
  | value v =>
    cases v with
    | closure body bound => exact .inr (.inr ⟨body, bound, rfl⟩)
    | unit | bit | tuple | variant => exact .inl rfl
  | array | tuple => exact .inl rfl

end Deferred

end BitStore
