import BitStore.Proofs.Getter.ClosureFree

/-! Closures that evaluation makes and closures that come as data are the same predicates. What the latter
yield is forced at once, so it need not be what the former yield: a stored array, say, is read in
full by the one and handed on by the other. But a filter forces what its predicate yields, and
this is all that it learns of it; and forcing again what was forced changes nothing. -/

namespace BitStore

variable {stores : Storages}

namespace Deferred

theorem force_force (d : Deferred) : (d.force stores >>= fun v => (value v).force stores) = d.force stores := by
  cases h : d.force stores with
  | found v =>
    rw [Outcome.found_bind]
    exact force_value_eq_found_iff.2 ⟨(closureFree_of_force h).2, rfl⟩
  | missing | fault e => rfl

/-- Both forms of a closure yield what is forced to the same, or stop alike. -/
theorem force_apply_forms (body : Expr) (v : Value) (x : Deferred) :
    ((closure body (.value v)).apply stores x >>= force stores) =
      ((value (.closure body v)).apply stores x >>= force stores) := by
  rw [apply_closure, apply_value_closure, bind_assoc]
  refine bind_congr fun r => ?_
  rw [bind_assoc]
  exact (force_force r).symm

/-- A step of a scan takes for its verdict what the predicate yields, forced. -/
theorem holdsOf_invoke (p : Deferred) (element : Value) : (Reader.of stores).holdsOf (invoke stores) p element =
    some ((p.apply stores (.value element) >>= force stores) >>= fun verdict =>
      match verdict.asBool with
      | some b => .found b
      | none => .fault (.notABoolean verdict)) := by
  rw [bind_assoc, Reader.holdsOf]
  refine Bounded.some_bind rfl fun d => Bounded.some_bind (Reader.of_force stores d) fun verdict => ?_
  cases verdict.asBool with
  | some b => rfl
  | none => rfl

end Deferred

theorem Reader.filterAfter_congr {m : Type → Type} [Monad m] [MonadLiftT Outcome m] {reader : Reader m}
    {invoke : Deferred → Deferred → m Deferred} {p q : Deferred}
    (h : ∀ element, reader.holdsOf invoke p element = reader.holdsOf invoke q element) (a : StoredArray)
    (kept : Array Value) (index count : Nat) :
    reader.filterAfter invoke a p kept index count = reader.filterAfter invoke a q kept index count := by
  induction count generalizing kept index with
  | zero => rfl
  | succ count ih => simp only [filterAfter, h, ih]

namespace StoredArray

variable {a : StoredArray} {p q : Deferred}

/-- Closures that yield what is forced to the same filter alike. -/
theorem filter_congr (hp : p.isClosure = true) (hq : q.isClosure = true)
    (h : ∀ x, (p.apply stores x >>= Deferred.force stores) = (q.apply stores x >>= Deferred.force stores)) :
    a.filter stores p = a.filter stores q := by
  have hstep (element : Value) : (Reader.of stores).holdsOf (Deferred.invoke stores) p element =
      (Reader.of stores).holdsOf (Deferred.invoke stores) q element := by
    rw [Deferred.holdsOf_invoke, Deferred.holdsOf_invoke, h]
  apply Option.some.inj
  rw [← filterWith_invoke, ← filterWith_invoke, Reader.filterWith, Reader.filterWith, if_pos hp, if_pos hq]
  refine bind_congr fun length => ?_
  rw [Reader.filterAfter_congr hstep]

theorem filter_forms (a : StoredArray) (body : Expr) (v : Value) :
    a.filter stores (.closure body (.value v)) = a.filter stores (.value (.closure body v)) :=
  filter_congr rfl rfl (Deferred.force_apply_forms body v)

end StoredArray

/-- A filter may be given its predicate as a lambda over a literal or as a literal closure. -/
theorem Expr.eval_filter_forms (body input : Expr) (v : Value) (argument bound : Deferred) :
    (filter input (lambda body (literal v))).eval stores argument bound =
      (filter input (literal (.closure body v))).eval stores argument bound := by
  rw [eval_filter, eval_filter, eval_lambda, eval_literal, eval_literal]
  refine bind_congr fun d => ?_
  cases d with
  | array a => exact a.filter_forms body v
  | value | tuple | closure => rfl

/-- A closure over a plain value and the same closure as data are one predicate: filters by the one and by
the other come to the same outcome, fault or not, also where an expression makes the one
and holds the other. For any argument at all, what the two yield is forced to the same outcome. -/
theorem StoredArray.filter_closure_forms (stores : Storages) (body : Expr) (v : Value) :
    (∀ x : Deferred, ((Deferred.closure body (.value v)).apply stores x >>= Deferred.force stores) =
      ((Deferred.value (.closure body v)).apply stores x >>= Deferred.force stores)) ∧
    (∀ a : StoredArray, a.filter stores (.closure body (.value v)) = a.filter stores (.value (.closure body v))) ∧
    ∀ (input : Expr) (argument bound : Deferred),
      (Expr.filter input (.lambda body (.literal v))).eval stores argument bound =
        (Expr.filter input (.literal (.closure body v))).eval stores argument bound :=
  ⟨Deferred.force_apply_forms body v, fun a => a.filter_forms body v, fun input => Expr.eval_filter_forms body input v⟩

/-- What the two forms yield is not the same before it is forced. -/
example :
    (Deferred.closure .argument (.value .unit)).apply (fun _ => ⟨[0, 0, 0, 0, 0, 0, 0, 0]⟩)
      (.array ⟨.zero, .bitset 8⟩) = .found (.array ⟨.zero, .bitset 8⟩) ∧
    (Deferred.value (.closure .argument .unit)).apply (fun _ => ⟨[0, 0, 0, 0, 0, 0, 0, 0]⟩)
      (.array ⟨.zero, .bitset 8⟩) = .found (.value (.tuple [])) := ⟨rfl, rfl⟩

end BitStore
