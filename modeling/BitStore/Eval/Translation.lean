import BitStore.Eval.Basic

/-! Evaluation commutes with translations. A translation leads from one monad to another
and keeps what is returned, steps in order and outcomes. Translating what evaluation
comes to is evaluating with the translated reader. So forcing and picking items, which
need no limit on depth, come to the same among outcomes and among limited computations. -/

namespace BitStore

variable {m n : Type → Type} [Monad m] [MonadLiftT Outcome m] [Monad n] [MonadLiftT Outcome n]

structure Translation (m n : Type → Type) [Monad m] [MonadLiftT Outcome m] [Monad n] [MonadLiftT Outcome n] where
  apply {α : Type} : m α → n α
  apply_pure {α : Type} (a : α) : apply (pure a) = pure a
  apply_bind {α β : Type} (x : m α) (f : α → m β) : apply (x >>= f) = apply x >>= fun a => apply (f a)
  apply_lift {α : Type} (x : Outcome α) : apply (liftM x) = liftM x

def Reader.map (T : Translation m n) (reader : Reader m) : Reader n where
  length a := T.apply (reader.length a)
  element a index := T.apply (reader.element a index)

namespace Translation

variable (T : Translation m n) (reader : Reader m)

theorem apply_raise {α : Type} (e : Fault) : T.apply (e.raise : m α) = e.raise :=
  T.apply_lift (.fault e)

/-! ### Arrays and deferred values -/

theorem apply_length (a : StoredArray) : T.apply (reader.length a) = (reader.map T).length a := rfl

theorem apply_element (a : StoredArray) (index : Nat) :
    T.apply (reader.element a index) = (reader.map T).element a index := rfl

theorem apply_get (a : StoredArray) (index : Nat) : T.apply (reader.get a index) = (reader.map T).get a index := by
  rw [Reader.get, Reader.get, apply_bind]
  refine bind_congr fun length => ?_
  split
  · rfl
  · exact T.apply_raise _

theorem apply_elementsAfter (a : StoredArray) (read : Array Value) (index count : Nat) :
    T.apply (reader.elementsAfter a read index count) = (reader.map T).elementsAfter a read index count := by
  induction count generalizing read index with
  | zero => exact T.apply_pure _
  | succ count ih => simp only [Reader.elementsAfter, apply_bind, apply_element, ih]

theorem apply_materialize (a : StoredArray) : T.apply (reader.materialize a) = (reader.map T).materialize a := by
  simp only [Reader.materialize, apply_bind, apply_length, apply_elementsAfter, apply_pure]

mutual

theorem apply_force : ∀ d : Deferred, T.apply (reader.force d) = (reader.map T).force d
  | .value v => by
    rw [Reader.force, Reader.force]
    split
    · exact T.apply_raise _
    · exact T.apply_pure v
  | .array a => by rw [Reader.force, Reader.force, apply_materialize]
  | .tuple elements => by
    simp only [Reader.force, apply_bind, apply_forceAll elements, apply_pure]
  | .closure _ _ => by rw [Reader.force, Reader.force, apply_raise]

theorem apply_forceAll : ∀ ds : List Deferred, T.apply (reader.forceAll ds) = (reader.map T).forceAll ds
  | [] => T.apply_pure []
  | d :: ds => by
    simp only [Reader.forceAll, apply_bind, apply_force d, apply_forceAll ds, apply_pure]

end

theorem apply_item (index : Nat) (d : Deferred) :
    T.apply (reader.item index d) = (reader.map T).item index d := by
  match d with
  | .array a => simp only [Reader.item, apply_bind, apply_get, apply_pure]
  | .tuple elements => exact T.apply_lift _
  | .value (.tuple elements) => simp only [Reader.item, apply_bind, apply_lift, apply_pure]
  | .value .unit | .value (.bit _) | .value (.variant _) | .value (.closure _ _) | .closure _ _ =>
    exact T.apply_raise _

/-! ### Expressions and closures -/

section Invoking

variable {invoke : Deferred → Deferred → m Deferred} {invoke' : Deferred → Deferred → n Deferred}

theorem apply_holdsOf (h : ∀ f x, T.apply (invoke f x) = invoke' f x) (predicate : Deferred) (element : Value) :
    T.apply (reader.holdsOf invoke predicate element) = (reader.map T).holdsOf invoke' predicate element := by
  simp only [Reader.holdsOf, apply_bind, h, apply_force]
  refine bind_congr fun d => bind_congr fun verdict => ?_
  cases verdict.asBool with
  | some b => exact T.apply_pure b
  | none => exact T.apply_raise _

theorem apply_filterAfter (h : ∀ f x, T.apply (invoke f x) = invoke' f x) (a : StoredArray) (predicate : Deferred)
    (kept : Array Value) (index count : Nat) :
    T.apply (reader.filterAfter invoke a predicate kept index count) =
      (reader.map T).filterAfter invoke' a predicate kept index count := by
  induction count generalizing kept index with
  | zero => exact T.apply_pure _
  | succ count ih => simp only [Reader.filterAfter, apply_bind, apply_element, T.apply_holdsOf reader h, ih]

theorem apply_filterWith (h : ∀ f x, T.apply (invoke f x) = invoke' f x) (a : StoredArray) (predicate : Deferred) :
    T.apply (reader.filterWith invoke a predicate) = (reader.map T).filterWith invoke' a predicate := by
  unfold Reader.filterWith
  split
  · simp only [apply_bind, apply_length, T.apply_filterAfter reader h, apply_pure]
  · exact T.apply_raise _

mutual

theorem apply_evalWith (h : ∀ f x, T.apply (invoke f x) = invoke' f x) (argument bound : Deferred) :
    ∀ e : Expr, T.apply (reader.evalWith invoke argument bound e) = (reader.map T).evalWith invoke' argument bound e
  | .literal _ | .argument | .bound => by
    rw [Reader.evalWith, Reader.evalWith, apply_pure]
  | .branch _ _ _ | .call _ _ => by
    rw [Reader.evalWith, Reader.evalWith, apply_raise]
  | .tuple elements => by
    simp only [Reader.evalWith, apply_bind, apply_evalAllWith h argument bound elements, apply_pure]
  | .item subject index => by
    simp only [Reader.evalWith, apply_bind, apply_evalWith h argument bound subject,
      apply_evalWith h argument bound index, apply_lift, apply_item]
  | .lambda body captured => by
    simp only [Reader.evalWith, apply_bind, apply_evalWith h argument bound captured, apply_pure]
  | .filter input predicate => by
    simp only [Reader.evalWith, apply_bind, apply_evalWith h argument bound input,
      apply_evalWith h argument bound predicate]
    refine bind_congr fun d => bind_congr fun p => ?_
    cases d with
    | array a => exact T.apply_filterWith reader h a p
    | value | tuple | closure => exact T.apply_raise _
  | .equals left right => by
    simp only [Reader.evalWith, apply_bind, apply_evalWith h argument bound left,
      apply_evalWith h argument bound right, apply_force, apply_pure]

theorem apply_evalAllWith (h : ∀ f x, T.apply (invoke f x) = invoke' f x) (argument bound : Deferred) :
    ∀ es : List Expr,
      T.apply (reader.evalAllWith invoke argument bound es) = (reader.map T).evalAllWith invoke' argument bound es
  | [] => T.apply_pure []
  | e :: es => by
    simp only [Reader.evalAllWith, apply_bind, apply_evalWith h argument bound e,
      apply_evalAllWith h argument bound es, apply_pure]

end

end Invoking

theorem apply_applyWithin {exhausted : m Deferred} (depth : Nat) (function argument : Deferred) :
    T.apply (reader.applyWithin exhausted depth function argument) =
      (reader.map T).applyWithin (T.apply exhausted) depth function argument := by
  induction depth generalizing function argument with
  | zero =>
    cases hf : function.isClosure with
    | true => rw [reader.applyWithin_zero hf, Reader.applyWithin_zero _ hf]
    | false => rw [reader.applyWithin_of_not_isClosure hf, Reader.applyWithin_of_not_isClosure _ hf, apply_raise]
  | succ depth ih =>
    obtain hf | ⟨body, bound, rfl⟩ | ⟨body, bound, rfl⟩ := function.isClosure_cases
    · rw [reader.applyWithin_of_not_isClosure hf, Reader.applyWithin_of_not_isClosure _ hf, apply_raise]
    · exact T.apply_evalWith reader ih argument bound body
    · simp only [Reader.applyWithin, apply_bind, T.apply_evalWith reader ih, apply_force, apply_pure]

end Translation

/-! ### Limited evaluation over storages -/

/-- What needs no limit goes on under any. -/
def Bounded.lifting : Translation Outcome Bounded where
  apply := liftM
  apply_pure := monadLift_pure
  apply_bind := monadLift_bind
  apply_lift _ := rfl

namespace Reader

variable (stores : Storages)

theorem of_force (d : Deferred) : (of stores : Reader Bounded).force d = liftM (d.force stores) :=
  (Bounded.lifting.apply_force (of stores) d).symm

theorem of_item (index : Nat) (d : Deferred) :
    (of stores : Reader Bounded).item index d = liftM (d.item stores index) :=
  (Bounded.lifting.apply_item (of stores) index d).symm

end Reader

end BitStore
