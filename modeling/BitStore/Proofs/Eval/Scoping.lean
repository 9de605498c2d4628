import BitStore.Proofs.Eval.Equations

/-! Argument and bound value are lexically scoped. An expression may have other expressions put in
their place: everywhere but in the bodies of lambdas, which belong to invocations of their own,
and in literals, which are data. If those evaluate to some values, then the expression evaluates
as it would with these values for inputs. So a literal in the place of an input makes the
input irrelevant, and a closure knows of the surroundings of its lambda only what it captured. -/

namespace BitStore

mutual

/-- The expression with `f` in place of the argument and `g` in place of the bound value. -/
def Expr.substitute : Expr → (f g : Expr) → Expr
  | .literal v, _, _ => .literal v
  | .argument, f, _ => f
  | .bound, _, g => g
  | .tuple elements, f, g => .tuple (Expr.substituteAll elements f g)
  | .item subject index, f, g => .item (subject.substitute f g) (index.substitute f g)
  | .branch condition positive negative, f, g =>
    .branch (condition.substitute f g) (positive.substitute f g) (negative.substitute f g)
  -- What is captured is evaluated along with the lambda, but the body has inputs of its own.
  | .lambda body captured, f, g => .lambda body (captured.substitute f g)
  | .call function input, f, g => .call (function.substitute f g) (input.substitute f g)
  | .filter input predicate, f, g => .filter (input.substitute f g) (predicate.substitute f g)
  | .equals left right, f, g => .equals (left.substitute f g) (right.substitute f g)
termination_by structural e => e

def Expr.substituteAll : List Expr → (f g : Expr) → List Expr
  | [], _, _ => []
  | e :: es, f, g => e.substitute f g :: Expr.substituteAll es f g
termination_by structural es => es

end

namespace Expr

/-- The body of a lambda keeps its bound value, and what the lambda captures does not. -/
example : (tuple [.bound, .lambda .bound .bound]).substitute .argument (literal .unit) =
    tuple [literal .unit, .lambda .bound (literal .unit)] := by rfl

end Expr

/-! ### Evaluating what was substituted -/

namespace Reader

variable {m : Type → Type} [Monad m] [MonadLiftT Outcome m] (reader : Reader m)
variable (invoke : Deferred → Deferred → m Deferred) {f g : Expr} {argument bound x y : Deferred}

mutual

/-- Expressions that evaluate to the inputs may stand in their place, however arrays are read and closures invoked. -/
theorem evalWith_substitute (hf : reader.evalWith invoke argument bound f = pure x)
    (hg : reader.evalWith invoke argument bound g = pure y) :
    ∀ e : Expr, reader.evalWith invoke argument bound (e.substitute f g) = reader.evalWith invoke x y e
  | .literal _ | .branch _ _ _ | .call _ _ => by rw [Expr.substitute, evalWith, evalWith]
  | .argument => by rw [Expr.substitute, evalWith, hf]
  | .bound => by rw [Expr.substitute, evalWith, hg]
  | .tuple es => by rw [Expr.substitute, evalWith, evalWith, evalAllWith_substituteAll hf hg es]
  | .item subject index => by
    rw [Expr.substitute, evalWith, evalWith, evalWith_substitute hf hg subject, evalWith_substitute hf hg index]
  | .lambda _ captured => by rw [Expr.substitute, evalWith, evalWith, evalWith_substitute hf hg captured]
  | .filter input predicate => by
    rw [Expr.substitute, evalWith, evalWith, evalWith_substitute hf hg input, evalWith_substitute hf hg predicate]
  | .equals left right => by
    rw [Expr.substitute, evalWith, evalWith, evalWith_substitute hf hg left, evalWith_substitute hf hg right]

theorem evalAllWith_substituteAll (hf : reader.evalWith invoke argument bound f = pure x)
    (hg : reader.evalWith invoke argument bound g = pure y) :
    ∀ es : List Expr,
      reader.evalAllWith invoke argument bound (Expr.substituteAll es f g) = reader.evalAllWith invoke x y es
  | [] => rfl
  | e :: es => by
    rw [Expr.substituteAll, evalAllWith, evalAllWith, evalWith_substitute hf hg e, evalAllWith_substituteAll hf hg es]

end

end Reader

namespace Expr

variable (stores : Storages) {f g : Expr} {argument bound x y : Deferred}

theorem eval_substitute (hf : f.eval stores argument bound = .found x) (hg : g.eval stores argument bound = .found y)
    (e : Expr) : (e.substitute f g).eval stores argument bound = e.eval stores x y := by
  have hinvoke {e : Expr} {d : Deferred} (h : e.eval stores argument bound = .found d) :
      (Reader.of stores).evalWith (Deferred.invoke stores) argument bound e = pure d := by
    rw [evalWith_invoke, h]
    rfl
  apply Option.some.inj
  rw [← evalWith_invoke, ← evalWith_invoke]
  exact (Reader.of stores).evalWith_substitute (Deferred.invoke stores) (hinvoke hf) (hinvoke hg) e

/-- What a lambda evaluates to is invoked on its body, with the argument of the invocation and the captured value. -/
theorem eval_lambda_apply (body captured : Expr) (argument bound x : Deferred) :
    ((lambda body captured).eval stores argument bound >>= fun closure => closure.apply stores x) =
      captured.eval stores argument bound >>= fun c => body.eval stores x c := by
  rw [eval_lambda]
  cases captured.eval stores argument bound with
  | found c => exact Deferred.apply_closure stores body x c
  | missing | fault e => rfl

/-- An input that is a plain value may be written into the expression, and then whatever comes in its
stead makes no difference. A closure makes none between the inputs that its lambda had, as
long as the same is captured. -/
theorem eval_lexically_scoped :
    (∀ (e : Expr) (v : Value) (argument other : Deferred),
      e.eval stores argument (.value v) = (e.substitute .argument (.literal v)).eval stores argument other) ∧
    (∀ (e : Expr) (v : Value) (bound other : Deferred),
      e.eval stores (.value v) bound = (e.substitute (.literal v) .bound).eval stores other bound) ∧
    ∀ (body captured : Expr) (argument bound x : Deferred),
      ((lambda body captured).eval stores argument bound >>= fun closure => closure.apply stores x) =
        captured.eval stores argument bound >>= fun c => body.eval stores x c := by
  refine ⟨fun e v argument other => ?_, fun e v bound other => ?_, eval_lambda_apply stores⟩
  · exact (eval_substitute stores (eval_argument stores argument other) (eval_literal stores argument other v) e).symm
  · exact (eval_substitute stores (eval_literal stores other bound v) (eval_bound stores other bound) e).symm

end Expr

end BitStore
