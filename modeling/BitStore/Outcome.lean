import BitStore.Fault

/-! What evaluating against storages comes to: something found, data missing
from a storage, or a fault. Steps run in order until one of them does not find
anything. -/

namespace BitStore

inductive Outcome (α : Type) where
  | found (a : α)
  /-- The storage does not hold enough data. -/
  | missing
  | fault (f : Fault)

namespace Outcome

variable {α β γ : Type}

@[inline]
protected def bind (x : Outcome α) (f : α → Outcome β) : Outcome β :=
  match x with
  | .found a => f a
  | .missing => .missing
  | .fault e => .fault e

instance : Monad Outcome where
  pure := .found
  bind := Outcome.bind

@[simp] theorem pure_eq (a : α) : (pure a : Outcome α) = .found a := rfl

@[simp] theorem found_bind (a : α) (f : α → Outcome β) : (Outcome.found a >>= f) = f a := rfl

@[simp] theorem missing_bind (f : α → Outcome β) : (Outcome.missing >>= f) = .missing := rfl

@[simp] theorem fault_bind (e : Fault) (f : α → Outcome β) : (Outcome.fault e >>= f) = .fault e := rfl

instance : LawfulMonad Outcome :=
  .mk' Outcome (by rintro α (_ | _ | _) <;> rfl) (fun _ _ => rfl) (by rintro α β γ (_ | _ | _) f g <;> rfl)

theorem bind_eq_found_iff {x : Outcome α} {f : α → Outcome β} {b : β} :
    (x >>= f) = .found b ↔ ∃ a, x = .found a ∧ f a = .found b := by
  cases x <;> simp

def ofOption : Option α → Outcome α
  | some a => .found a
  | none => .missing

def ofExcept : Except Fault α → Outcome α
  | .ok a => .found a
  | .error e => .fault e

end Outcome

/-- The fault, wherever outcomes can be had. -/
def Fault.raise {m : Type → Type} [MonadLiftT Outcome m] {α : Type} (e : Fault) : m α :=
  liftM (Outcome.fault e : Outcome α)

end BitStore
