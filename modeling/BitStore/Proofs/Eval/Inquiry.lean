import BitStore.Proofs.Eval.Limit

/-! Evaluation without storages. An inquiry is what is asked on the way to an outcome: element counts
in storages and elements of arrays, where the answers decide what is asked next. Evaluation runs with
any reader, so also with one that asks. Then it has no storage to read from, and its questions are all
that it takes from one; and storages that answer them bring it to just the outcome that evaluation
over these storages has. -/

namespace BitStore

/-- The questions to storages on the way to an outcome. -/
inductive Inquiry (α : Type) where
  | done (outcome : Bounded α)
  /-- The element count at a place in a storage. -/
  | askCount (start : StoragePointer) (next : Option Nat → Inquiry α)
  /-- The element at an index of an array, whatever the element count says. -/
  | askElement (a : StoredArray) (index : Nat) (next : Outcome Value → Inquiry α)

namespace Inquiry

variable {α β : Type}

protected def bind (x : Inquiry α) (f : α → Inquiry β) : Inquiry β :=
  match x with
  | done (some (.found a)) => f a
  | done (some .missing) => done (some .missing)
  | done (some (.fault e)) => done (some (.fault e))
  | done none => done none
  | askCount start next => askCount start fun n => (next n).bind f
  | askElement a index next => askElement a index fun v => (next v).bind f

instance : Monad Inquiry where
  pure a := done (pure a)
  bind := Inquiry.bind

instance : MonadLift Outcome Inquiry := ⟨fun x => done x⟩

/-! ### What evaluation asks -/

/-- Every count and every element is a question. -/
def asking : Reader Inquiry where
  length a := askCount a.start fun n => done (some (.ofOption n))
  element a index := askElement a index fun v => done (some v)

def applyWithin (depth : Nat) (function argument : Deferred) : Inquiry Deferred :=
  asking.applyWithin (done .exhausted) depth function argument

/-- What evaluating an expression asks. -/
def eval (e : Expr) (argument bound : Deferred) : Inquiry Deferred :=
  let depth := e.closureDepth + max argument.closureDepth bound.closureDepth
  asking.evalWith (applyWithin depth) argument bound e

/-- What invoking a function asks. -/
def apply (function argument : Deferred) : Inquiry Deferred :=
  applyWithin (function.closureDepth + argument.closureDepth) function argument

/-- What filtering a stored array asks. -/
def filter (a : StoredArray) (predicate : Deferred) : Inquiry Deferred :=
  asking.filterWith (applyWithin predicate.closureDepth) a predicate

/-- What picking an item asks. -/
def item (index : Nat) (d : Deferred) : Inquiry Deferred :=
  asking.item index d

/-! ### The answers of storages -/

/-- The outcome that the answers of the storages lead to. -/
def run (stores : Storages) : Inquiry α → Bounded α
  | done x => x
  | askCount start next => (next ((stores start.storage).countAt start.toAddress)).run stores
  | askElement a index next => (next (a.elementAt stores index)).run stores

/-- Where the element counts are that are read on the way, in order. -/
def countsRead (stores : Storages) : Inquiry α → List StoragePointer
  | done _ => []
  | askCount start next => start :: (next ((stores start.storage).countAt start.toAddress)).countsRead stores
  | askElement a index next => (next (a.elementAt stores index)).countsRead stores

variable (stores : Storages)

theorem run_bind (x : Inquiry α) (f : α → Inquiry β) :
    (x >>= f).run stores = x.run stores >>= fun a => (f a).run stores := by
  induction x with
  | done x =>
    match x with
    | some (.found a) => rfl
    | some .missing => rfl
    | some (.fault e) => rfl
    | none => rfl
  | askCount start next ih => exact ih _
  | askElement a index next ih => exact ih _

/-- Answering all questions is a translation, and it leads from the reader that asks to that of the storages. -/
def answers : Translation Inquiry Bounded where
  apply := run stores
  apply_pure _ := rfl
  apply_bind := run_bind stores
  apply_lift _ := rfl

theorem run_item (index : Nat) (d : Deferred) : (item index d).run stores = some (d.item stores index) :=
  ((answers stores).apply_item asking index d).trans (Reader.of_item stores index d)

theorem run_applyWithin (depth : Nat) (function argument : Deferred) :
    (applyWithin depth function argument).run stores = function.applyWithin stores depth argument :=
  (answers stores).apply_applyWithin asking depth function argument

theorem run_eval (e : Expr) (argument bound : Deferred) :
    (eval e argument bound).run stores = some (e.eval stores argument bound) :=
  ((answers stores).apply_evalWith asking (run_applyWithin stores _) argument bound e).trans
    (Expr.evalWithin_eq stores (Nat.le_refl _))

theorem run_apply (function argument : Deferred) :
    (apply function argument).run stores = some (function.apply stores argument) :=
  (run_applyWithin stores _ function argument).trans (Deferred.applyWithin_eq stores (Nat.le_refl _))

theorem run_filter (a : StoredArray) (predicate : Deferred) :
    (filter a predicate).run stores = some (a.filter stores predicate) :=
  ((answers stores).apply_filterWith asking (run_applyWithin stores _) a predicate).trans
    (a.filterWithin_eq stores (Nat.le_refl _))

end Inquiry

end BitStore
