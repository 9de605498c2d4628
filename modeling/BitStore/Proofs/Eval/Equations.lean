import BitStore.Proofs.Eval.Limit

/-! The equations of evaluation. `eval`, `apply` and `filter` are computed from a
limit, but no limit shows in how they act: each form of expression evaluates to
what its parts evaluate to, combined, and a closure yields what its body does. -/

namespace BitStore

theorem Bounded.some_bind {α β : Type} {x : Bounded α} {o : Outcome α} {f : α → Bounded β} {g : α → Outcome β}
    (hx : x = some o) (hf : ∀ a, f a = some (g a)) : (x >>= f) = some (o >>= g) := by
  subst hx
  cases o with
  | found a => exact hf a
  | missing => rfl
  | fault e => rfl

variable (stores : Storages)

/-! ### Invoking without a limit -/

/-- What a function yields, reached under any limit. -/
def Deferred.invoke (function argument : Deferred) : Bounded Deferred :=
  some (function.apply stores argument)

theorem Deferred.applyWithin_raised_invoke (depth : Nat) (function argument : Deferred) :
    (function.applyWithin stores depth argument).RaisedTo (function.invoke stores argument) := by
  intro r hr
  have hle := Nat.le_max_left depth (function.closureDepth + argument.closureDepth)
  have hmax := Nat.le_max_right depth (function.closureDepth + argument.closureDepth)
  rw [invoke, ← applyWithin_eq stores hmax]
  exact applyWithin_raised stores hle function argument r hr

theorem Expr.evalWith_invoke (e : Expr) (argument bound : Deferred) :
    (Reader.of stores).evalWith (Deferred.invoke stores) argument bound e = some (e.eval stores argument bound) :=
  Reader.evalWith_raised _ (Deferred.applyWithin_raised_invoke stores _) argument bound e _
    (evalWithin_eq stores (Nat.le_refl _))

theorem StoredArray.filterWith_invoke (a : StoredArray) (predicate : Deferred) :
    (Reader.of stores).filterWith (Deferred.invoke stores) a predicate = some (a.filter stores predicate) :=
  Reader.filterWith_raised _ (Deferred.applyWithin_raised_invoke stores _) a predicate _
    (a.filterWithin_eq stores (Nat.le_refl _))

/-! ### Expressions -/

namespace Expr

variable (argument bound : Deferred)

@[simp] theorem eval_literal (v : Value) : (literal v).eval stores argument bound = .found (.value v) := by
  apply Option.some.inj
  rw [← evalWith_invoke, Reader.evalWith]
  rfl

@[simp] theorem eval_argument : Expr.argument.eval stores argument bound = .found argument := by
  apply Option.some.inj
  rw [← evalWith_invoke, Reader.evalWith]
  rfl

@[simp] theorem eval_bound : Expr.bound.eval stores argument bound = .found bound := by
  apply Option.some.inj
  rw [← evalWith_invoke, Reader.evalWith]
  rfl

theorem eval_item (subject index : Expr) :
    (item subject index).eval stores argument bound = (do
      let d ← subject.eval stores argument bound
      let i ← index.eval stores argument bound
      let n ← Outcome.ofExcept i.toIndex
      d.item stores n) := by
  apply Option.some.inj
  rw [← evalWith_invoke, Reader.evalWith]
  refine Bounded.some_bind (subject.evalWith_invoke stores argument bound) fun d => ?_
  refine Bounded.some_bind (index.evalWith_invoke stores argument bound) fun i => ?_
  exact Bounded.some_bind rfl fun n => Reader.of_item stores n d

theorem eval_lambda (body captured : Expr) :
    (lambda body captured).eval stores argument bound = .closure body <$> captured.eval stores argument bound := by
  apply Option.some.inj
  rw [← evalWith_invoke, Reader.evalWith]
  exact Bounded.some_bind (captured.evalWith_invoke stores argument bound) fun d => rfl

theorem eval_filter (input predicate : Expr) :
    (filter input predicate).eval stores argument bound = (do
      let d ← input.eval stores argument bound
      let p ← predicate.eval stores argument bound
      match d with
      | .array a => a.filter stores p
      | _ => .fault (.notAnArray d.kind)) := by
  apply Option.some.inj
  rw [← evalWith_invoke, Reader.evalWith]
  refine Bounded.some_bind (input.evalWith_invoke stores argument bound) fun d => ?_
  refine Bounded.some_bind (predicate.evalWith_invoke stores argument bound) fun p => ?_
  cases d with
  | array a => exact a.filterWith_invoke stores p
  | value v => rfl
  | tuple ds => rfl
  | closure body b => rfl

theorem eval_equals (left right : Expr) :
    (equals left right).eval stores argument bound = (do
      let l ← left.eval stores argument bound
      let v ← l.force stores
      let r ← right.eval stores argument bound
      let w ← r.force stores
      return .value (.bit (v == w))) := by
  apply Option.some.inj
  rw [← evalWith_invoke, Reader.evalWith]
  refine Bounded.some_bind (left.evalWith_invoke stores argument bound) fun l => ?_
  refine Bounded.some_bind (Reader.of_force stores l) fun v => ?_
  refine Bounded.some_bind (right.evalWith_invoke stores argument bound) fun r => ?_
  exact Bounded.some_bind (Reader.of_force stores r) fun w => rfl

end Expr

/-! ### Closures -/

namespace Deferred

variable (body : Expr) (argument : Deferred)

/-- A closure that evaluation made yields what its body evaluates to. -/
theorem apply_closure (bound : Deferred) :
    (closure body bound).apply stores argument = body.eval stores argument bound := by
  let depth := body.closureDepth + max argument.closureDepth bound.closureDepth +
    ((closure body bound).closureDepth + argument.closureDepth)
  have hap : (closure body bound).applyWithin stores (depth + 1) argument =
      some ((closure body bound).apply stores argument) := applyWithin_eq stores (by omega)
  have hev : body.evalWithin stores depth argument bound = some (body.eval stores argument bound) :=
    Expr.evalWithin_eq stores (by omega)
  exact Option.some.inj (hap.symm.trans hev)

/-- What a closure that came as data yields is forced. -/
theorem apply_value_closure (bound : Value) :
    (value (.closure body bound)).apply stores argument = (do
      let r ← body.eval stores argument (.value bound)
      return .value (← r.force stores)) := by
  let depth := body.closureDepth + max argument.closureDepth (value bound).closureDepth +
    ((value (.closure body bound)).closureDepth + argument.closureDepth)
  have hap : (value (.closure body bound)).applyWithin stores (depth + 1) argument =
      some ((value (.closure body bound)).apply stores argument) := applyWithin_eq stores (by omega)
  have hev : body.evalWithin stores depth argument (.value bound) =
      some (body.eval stores argument (.value bound)) := Expr.evalWithin_eq stores (by omega)
  refine Option.some.inj (hap.symm.trans ?_)
  exact Bounded.some_bind hev fun r => Bounded.some_bind (Reader.of_force stores r) fun v => rfl

end Deferred

end BitStore
