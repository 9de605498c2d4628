import BitStore.Proofs.Getter.Answer
import BitStore.Proofs.Value.Leaves

/-! No closure gets out. Forcing a value succeeds only if there is no closure in it, plain or
deferred, in any tuple or variant; and then the value it is forced to has none either, so
forcing that again changes nothing. Every answer of a getter was forced, whatever came in
with the argument or the getter itself, so all answers have bits. -/

namespace BitStore

namespace Deferred

/-- A value is part of itself, of the tuples it is an element of and of the variants it is the
content of. What a closure has captured is no part of it. -/
inductive Part : Deferred → Deferred → Prop
  | refl (d) : Part d d
  | element {c d ds} : d ∈ ds → Part c d → Part c (.tuple ds)
  | plain {c v vs} : v ∈ vs → Part c (.value v) → Part c (.value (.tuple vs))
  | content {c v} : Part c (.value v) → Part c (.value (.variant v))

/-- No part of the value is a closure. -/
def ClosureFree (d : Deferred) : Prop :=
  ∀ c, Part c d → c.isClosure = false

/-! ### Plain values -/

theorem closureFree_plain_iff {vs : List Value} :
    (value (.tuple vs)).ClosureFree ↔ ∀ v ∈ vs, (value v).ClosureFree := by
  constructor
  · exact fun h v hv c hc => h c (.plain hv hc)
  · intro h c hc
    cases hc with
    | refl => rfl
    | plain hv hc => exact h _ hv c hc

theorem closureFree_variant_iff {v : Value} : (value (.variant v)).ClosureFree ↔ (value v).ClosureFree := by
  constructor
  · exact fun h c hc => h c (.content hc)
  · intro h c hc
    cases hc with
    | refl => rfl
    | content hc => exact h c hc

mutual

theorem closureFree_value_iff : ∀ {v : Value}, (value v).ClosureFree ↔ v.containsClosure = false
  | .unit | .bit _ => by
    refine iff_of_true (fun c hc => ?_) rfl
    cases hc
    rfl
  | .tuple vs => by rw [closureFree_plain_iff, Value.containsClosure, closureFree_values_iff]
  | .variant v => by rw [closureFree_variant_iff, Value.containsClosure, closureFree_value_iff]
  | .closure body bound => iff_of_false (fun h => nomatch h _ (.refl _)) nofun

theorem closureFree_values_iff : ∀ {vs : List Value},
    (∀ v ∈ vs, (value v).ClosureFree) ↔ Value.anyContainsClosure vs = false
  | [] => iff_of_true nofun rfl
  | v :: vs => by
    rw [List.forall_mem_cons, Value.anyContainsClosure, Bool.or_eq_false_iff, closureFree_value_iff,
      closureFree_values_iff]

end

/-! ### Forcing -/

section Force

variable {stores : Storages}

theorem containsClosure_of_materialize {a : StoredArray} {v : Value} (h : a.materialize stores = .found v) :
    v.containsClosure = false := by
  obtain ⟨es, rfl, _⟩ := StoredArray.materialize_eq_found_iff.1 h
  refine Value.containsClosure_tuple fun e he => ?_
  obtain ⟨bits, rfl⟩ := StoredArray.eq_ofBits_of_mem h he
  exact Value.containsClosure_ofBits bits

theorem closureFree_array (a : StoredArray) : (array a).ClosureFree := by
  intro c hc
  cases hc
  rfl

theorem closureFree_tuple {ds : List Deferred} (h : ∀ d ∈ ds, d.ClosureFree) : (tuple ds).ClosureFree := by
  intro c hc
  cases hc with
  | refl => rfl
  | element hd hc => exact h _ hd c hc

theorem force_value_eq_found_iff {v w : Value} : (value v).force stores = .found w ↔ v.containsClosure = false ∧ v = w := by
  rw [force_value]
  cases v.containsClosure <;> simp

mutual

/-- Only a value without closures is forced, and only to one. -/
theorem closureFree_of_force : ∀ {d : Deferred} {v : Value}, d.force stores = .found v →
    d.ClosureFree ∧ v.containsClosure = false
  | .value v, w, h => by
    obtain ⟨hv, rfl⟩ := force_value_eq_found_iff.1 h
    exact ⟨closureFree_value_iff.2 hv, hv⟩
  | .array a, v, h => ⟨closureFree_array a, containsClosure_of_materialize h⟩
  | .tuple ds, v, h => by
    obtain ⟨vs, hvs, ⟨⟩⟩ := Outcome.bind_eq_found_iff.1 h
    obtain ⟨hds, hplain⟩ := closureFree_of_forceAll hvs
    exact ⟨closureFree_tuple hds, hplain⟩
  | .closure body bound, v, h => by cases h

theorem closureFree_of_forceAll : ∀ {ds : List Deferred} {vs : List Value}, forceAll stores ds = .found vs →
    (∀ d ∈ ds, d.ClosureFree) ∧ Value.anyContainsClosure vs = false
  | [], vs, h => by
    cases h
    exact ⟨nofun, rfl⟩
  | d :: ds, _, h => by
    obtain ⟨v, hv, h⟩ := Outcome.bind_eq_found_iff.1 h
    obtain ⟨vs, hvs, ⟨⟩⟩ := Outcome.bind_eq_found_iff.1 h
    obtain ⟨hd, hplain⟩ := closureFree_of_force hv
    obtain ⟨hds, hplains⟩ := closureFree_of_forceAll hvs
    refine ⟨List.forall_mem_cons.2 ⟨hd, hds⟩, ?_⟩
    rw [Value.anyContainsClosure, hplain, hplains]
    rfl

end

end Force

end Deferred

namespace Expr

/-- What a getter answers has no closure in it and so has bits. The same goes for whatever a value
is forced to; the value itself had none, and forcing the result again gives the result. -/
theorem run_closureFree :
    (∀ (getter : Expr) (store : Storage) (layout : Layout) (argument v : Value),
      getter.run store layout argument = .found v →
      v.containsClosure = false ∧ (Deferred.value v).ClosureFree ∧ ∃ bits, v.toBits = .ok bits) ∧
    ∀ (d : Deferred) (stores : Storages) (v : Value), d.force stores = .found v →
      v.containsClosure = false ∧ (Deferred.value v).ClosureFree ∧ d.ClosureFree ∧
        (Deferred.value v).force stores = .found v := by
  constructor
  · intro getter store layout argument v h
    obtain ⟨d, _, hforce⟩ := Outcome.bind_eq_found_iff.1 h
    have hv := (Deferred.closureFree_of_force hforce).2
    exact ⟨hv, Deferred.closureFree_value_iff.2 hv, v.leaves, Value.toBits_eq_ok_iff.2 ⟨hv, rfl⟩⟩
  · intro d stores v h
    obtain ⟨hd, hv⟩ := Deferred.closureFree_of_force h
    exact ⟨hv, Deferred.closureFree_value_iff.2 hv, hd, Deferred.force_value_eq_found_iff.2 ⟨hv, rfl⟩⟩

/-- The argument has a closure in it, and the predicate captures that together with the dataset, but
the elements it keeps are data. So is a pair of the dataset and a bit. -/
theorem run_closureFree_beside_closures :
    ∃ getter : Expr, getter = .filter (Expr.argument.nth 0) (.lambda (.literal (.bit true)) .argument) ∧
    getter.run ⟨[0, 0, 0, 0, 0, 0, 0, 2, 5, 6]⟩ (.array (.bitset 8)) (.tuple [.closure .argument .unit, .bit true]) =
      .found (.tuple [.unsigned 8 5, .unsigned 8 6]) ∧
    (∃ bits, (Value.tuple [.unsigned 8 5, .unsigned 8 6]).toBits = .ok bits) ∧
    (Deferred.tuple [.array ⟨.zero, .bitset 8⟩, .value (.bit true)]).ClosureFree := by
  have hrun : (Expr.filter (Expr.argument.nth 0) (.lambda (.literal (.bit true)) .argument)).run
      ⟨[0, 0, 0, 0, 0, 0, 0, 2, 5, 6]⟩ (.array (.bitset 8)) (.tuple [.closure .argument .unit, .bit true]) =
      .found (.tuple [.unsigned 8 5, .unsigned 8 6]) := by
    rw [run_eq_answer, answer, eval_filter, eval_dataset, eval_lambda, eval_argument]
    rfl
  have hforce : (Deferred.tuple [.array ⟨.zero, .bitset 8⟩, .value (.bit true)]).force
      (fun _ => ⟨[0, 0, 0, 0, 0, 0, 0, 2, 5, 6]⟩) =
        .found (.tuple [.tuple [.unsigned 8 5, .unsigned 8 6], .bit true]) := by rfl
  exact ⟨_, rfl, hrun, (run_closureFree.1 _ _ _ _ _ hrun).2.2, (run_closureFree.2 _ _ _ hforce).2.2.1⟩

end Expr

end BitStore
