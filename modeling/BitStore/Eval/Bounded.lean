import BitStore.Outcome

/-! Outcomes of computations whose depth is limited. `none` says that the limit
was too low, and stops what follows just as a fault does. `Holds` says that the
limit was high enough and that anything found has a property; it passes through
steps in order. -/

namespace BitStore

/-- An outcome, or `none` if the limit was too low to reach one. -/
def Bounded (α : Type) : Type :=
  Option (Outcome α)

namespace Outcome

/-- Anything found has the property. -/
def Holds {α : Type} (P : α → Prop) : Outcome α → Prop
  | .found a => P a
  | .missing => True
  | .fault _ => True

/-- Nothing is asked of what is found. -/
theorem holds_true {α : Type} (x : Outcome α) : x.Holds fun _ => True := by
  cases x <;> trivial

theorem Holds.mono {α : Type} {P Q : α → Prop} {x : Outcome α} (h : x.Holds P) (hPQ : ∀ a, P a → Q a) :
    x.Holds Q := by
  cases x <;> simp_all [Holds]

theorem Holds.bind {α β : Type} {P : α → Prop} {Q : β → Prop} {x : Outcome α} {f : α → Outcome β}
    (hx : x.Holds P) (hf : ∀ a, P a → (f a).Holds Q) : (x >>= f).Holds Q := by
  cases x with
  | found a => exact hf a hx
  | missing => trivial
  | fault e => trivial

end Outcome

namespace Bounded

variable {α β γ : Type}

@[inline]
protected def bind (x : Bounded α) (f : α → Bounded β) : Bounded β :=
  match x with
  | some (.found a) => f a
  | some .missing => some .missing
  | some (.fault e) => some (.fault e)
  | none => none

instance : Monad Bounded where
  pure a := some (.found a)
  bind := Bounded.bind

instance : MonadLift Outcome Bounded := ⟨some⟩

/-- The limit was too low. -/
def exhausted : Bounded α :=
  none

instance : LawfulMonadLift Outcome Bounded where
  monadLift_pure _ := rfl
  monadLift_bind x f := by cases x <;> rfl

/-- The limit was high enough, and anything found has the property. -/
def Holds (P : α → Prop) : Bounded α → Prop
  | some x => x.Holds P
  | none => False

theorem Holds.mono {P Q : α → Prop} {x : Bounded α} (h : x.Holds P) (hPQ : ∀ a, P a → Q a) : x.Holds Q := by
  cases x with
  | none => exact h
  | some x => exact Outcome.Holds.mono h hPQ

theorem Holds.bind {P : α → Prop} {Q : β → Prop} {x : Bounded α} {f : α → Bounded β} (hx : x.Holds P)
    (hf : ∀ a, P a → (f a).Holds Q) : (x >>= f).Holds Q := by
  match x, hx with
  | some (.found a), hx => exact hf a hx
  | some .missing, _ => trivial
  | some (.fault e), _ => trivial

theorem Holds.lift {P : α → Prop} {x : Outcome α} (h : x.Holds P) : (liftM x : Bounded α).Holds P :=
  h

theorem Holds.isSome {P : α → Prop} {x : Bounded α} (h : x.Holds P) : Option.isSome x = true := by
  cases x with
  | none => exact h.elim
  | some x => rfl

end Bounded

end BitStore
