import BitStore.Eval.Depth

/-! Raising the limit. An outcome reached within a limit is reached within every
higher one, so from some limit on evaluation, invocation and filtering settle on
what `eval`, `apply` and `filter` yield. These three in turn satisfy the
equations of the evaluator, with closures invoked without any limit. -/

namespace BitStore

namespace Bounded

variable {α β : Type}

/-- An outcome that `x` reaches is what `y` reaches. -/
def RaisedTo (x y : Bounded α) : Prop :=
  ∀ r, x = some r → y = some r

theorem RaisedTo.refl (x : Bounded α) : x.RaisedTo x :=
  fun _ h => h

theorem RaisedTo.bind {x y : Bounded α} {f g : α → Bounded β} (hx : x.RaisedTo y)
    (hf : ∀ a, (f a).RaisedTo (g a)) : (x >>= f).RaisedTo (y >>= g) := by
  intro r hr
  cases x with
  | none => cases hr
  | some o =>
    rw [hx o rfl]
    cases o with
    | found a => exact hf a r hr
    | missing => exact hr
    | fault e => exact hr

end Bounded

/-! ### A way to invoke that reaches more -/

namespace Reader

variable (reader : Reader Bounded) {invoke further : Deferred → Deferred → Bounded Deferred}

theorem holdsOf_raised (h : ∀ f x, (invoke f x).RaisedTo (further f x)) (predicate : Deferred) (element : Value) :
    (reader.holdsOf invoke predicate element).RaisedTo (reader.holdsOf further predicate element) :=
  (h _ _).bind fun _ => .refl _

theorem filterAfter_raised (h : ∀ f x, (invoke f x).RaisedTo (further f x)) (a : StoredArray) (predicate : Deferred)
    (kept : Array Value) (index count : Nat) :
    (reader.filterAfter invoke a predicate kept index count).RaisedTo
      (reader.filterAfter further a predicate kept index count) := by
  induction count generalizing kept index with
  | zero => exact .refl _
  | succ count ih =>
    refine (Bounded.RaisedTo.refl _).bind fun element => ?_
    exact (reader.holdsOf_raised h predicate element).bind fun holds => ih _ _

theorem filterWith_raised (h : ∀ f x, (invoke f x).RaisedTo (further f x)) (a : StoredArray) (predicate : Deferred) :
    (reader.filterWith invoke a predicate).RaisedTo (reader.filterWith further a predicate) := by
  unfold filterWith
  split
  · refine (Bounded.RaisedTo.refl _).bind fun length => ?_
    exact (reader.filterAfter_raised h a predicate #[] 0 length).bind fun kept => .refl _
  · exact .refl _

mutual

theorem evalWith_raised (h : ∀ f x, (invoke f x).RaisedTo (further f x)) (argument bound : Deferred) :
    ∀ e : Expr, (reader.evalWith invoke argument bound e).RaisedTo (reader.evalWith further argument bound e)
  | .literal _ | .argument | .bound | .branch _ _ _ | .call _ _ => by
    rw [evalWith, evalWith]
    exact .refl _
  | .tuple elements => by
    rw [evalWith, evalWith]
    exact (evalAllWith_raised h argument bound elements).bind fun ds => .refl _
  | .item subject index => by
    rw [evalWith, evalWith]
    refine (evalWith_raised h argument bound subject).bind fun d => ?_
    exact (evalWith_raised h argument bound index).bind fun i => .refl _
  | .lambda body captured => by
    rw [evalWith, evalWith]
    exact (evalWith_raised h argument bound captured).bind fun d => .refl _
  | .filter input predicate => by
    rw [evalWith, evalWith]
    refine (evalWith_raised h argument bound input).bind fun d => ?_
    refine (evalWith_raised h argument bound predicate).bind fun p => ?_
    split
    · exact reader.filterWith_raised h _ p
    · exact .refl _
  | .equals left right => by
    rw [evalWith, evalWith]
    refine (evalWith_raised h argument bound left).bind fun l => ?_
    refine (Bounded.RaisedTo.refl _).bind fun v => ?_
    exact (evalWith_raised h argument bound right).bind fun r => .refl _

theorem evalAllWith_raised (h : ∀ f x, (invoke f x).RaisedTo (further f x)) (argument bound : Deferred) :
    ∀ es : List Expr,
      (reader.evalAllWith invoke argument bound es).RaisedTo (reader.evalAllWith further argument bound es)
  | [] => .refl _
  | e :: es => by
    rw [evalAllWith, evalAllWith]
    refine (evalWith_raised h argument bound e).bind fun d => ?_
    exact (evalAllWith_raised h argument bound es).bind fun ds => .refl _

end

end Reader

variable (stores : Storages)

theorem Deferred.applyWithin_raised {depth further : Nat} (h : depth ≤ further) (function argument : Deferred) :
    (function.applyWithin stores depth argument).RaisedTo (function.applyWithin stores further argument) := by
  induction depth generalizing further function argument with
  | zero =>
    cases hf : function.isClosure with
    | true =>
      intro r hr
      rw [applyWithin, Reader.applyWithin_zero _ hf] at hr
      cases hr
    | false =>
      rw [applyWithin, applyWithin, Reader.applyWithin_of_not_isClosure _ hf, Reader.applyWithin_of_not_isClosure _ hf]
      exact .refl _
  | succ depth ih =>
    obtain ⟨further, rfl⟩ : ∃ n, further = n + 1 := ⟨further - 1, by omega⟩
    have hle : depth ≤ further := by omega
    have hinvoke (f x : Deferred) : (f.applyWithin stores depth x).RaisedTo (f.applyWithin stores further x) :=
      ih hle f x
    obtain hf | ⟨body, bound, rfl⟩ | ⟨body, bound, rfl⟩ := function.isClosure_cases
    · rw [applyWithin, applyWithin, Reader.applyWithin_of_not_isClosure _ hf, Reader.applyWithin_of_not_isClosure _ hf]
      exact .refl _
    · exact Reader.evalWith_raised _ hinvoke _ _ _
    · exact (Reader.evalWith_raised _ hinvoke _ _ _).bind fun d => .refl _

/-! ### Where evaluation settles -/

theorem Deferred.applyWithin_eq {depth : Nat} {function argument : Deferred}
    (h : function.closureDepth + argument.closureDepth ≤ depth) :
    function.applyWithin stores depth argument = some (function.apply stores argument) :=
  applyWithin_raised stores h _ _ _ (Option.some_get _).symm

theorem Expr.evalWithin_eq {depth : Nat} {e : Expr} {argument bound : Deferred}
    (h : e.closureDepth + max argument.closureDepth bound.closureDepth ≤ depth) :
    e.evalWithin stores depth argument bound = some (e.eval stores argument bound) :=
  Reader.evalWith_raised _ (Deferred.applyWithin_raised stores h) _ _ _ _ (Option.some_get _).symm

theorem StoredArray.filterWithin_eq {depth : Nat} {predicate : Deferred} (a : StoredArray)
    (h : predicate.closureDepth ≤ depth) :
    a.filterWithin stores depth predicate = some (a.filter stores predicate) :=
  Reader.filterWith_raised _ (Deferred.applyWithin_raised stores h) _ _ _ (Option.some_get _).symm

/-- Whatever the storages, the expression and the inputs, from some limit on the
outcome is reached and no longer changes; the same holds of invoking any function
and of filtering any stored array. -/
theorem evaluation_settles :
    (∀ (e : Expr) (argument bound : Deferred), ∃ limit, ∀ depth, limit ≤ depth →
      e.evalWithin stores depth argument bound = some (e.eval stores argument bound)) ∧
    (∀ function argument : Deferred, ∃ limit, ∀ depth, limit ≤ depth →
      function.applyWithin stores depth argument = some (function.apply stores argument)) ∧
    (∀ (a : StoredArray) (predicate : Deferred), ∃ limit, ∀ depth, limit ≤ depth →
      a.filterWithin stores depth predicate = some (a.filter stores predicate)) := by
  refine ⟨fun e argument bound => ?_, fun function argument => ?_, fun a predicate => ?_⟩
  · exact ⟨_, fun depth h => Expr.evalWithin_eq stores h⟩
  · exact ⟨_, fun depth h => Deferred.applyWithin_eq stores h⟩
  · exact ⟨_, fun depth h => a.filterWithin_eq stores h⟩

end BitStore
