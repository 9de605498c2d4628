import BitStore.Proofs.Eval.Simulation

/-! Evaluation reads storages only through the arrays of its inputs. Over storages that
answer alike all reads of these arrays, every expression evaluates alike,
and the arrays in what it yields are again among those it was given. -/

namespace BitStore

variable {τ : Tolerance} {s t : Storages}

/-! ### Reading one array -/

namespace StoredArray

variable {a : StoredArray}

theorem get_matches (h : a.ReadsAlike τ s t) (index : Nat) : (a.get s index).Matches τ Eq (a.get t index) := by
  rw [get_eq, get_eq]
  refine h.length.and_found.bind fun length _ hl => ?_
  obtain ⟨hl, rfl⟩ := hl
  by_cases hi : index < length
  · rw [if_pos hi, if_pos hi]
    exact h.element (Outcome.ofOption_eq_found_iff.1 hl) index hi
  · rw [if_neg hi, if_neg hi]
    exact .same_fault _

theorem elementsAfter_matches (read : Array Value) (index count : Nat)
    (h : ∀ i, index ≤ i → i < index + count → (a.elementAt s i).Matches τ Eq (a.elementAt t i)) :
    (a.elementsAfter s read index count).Matches τ Eq (a.elementsAfter t read index count) := by
  induction count generalizing read index with
  | zero => exact .found rfl
  | succ count ih =>
    refine (h index (Nat.le_refl _) (by omega)).bind fun element _ he => ?_
    subst he
    exact ih _ _ fun i hi hlt => h i (by omega) (by omega)

theorem materialize_matches (h : a.ReadsAlike τ s t) : (a.materialize s).Matches τ Eq (a.materialize t) := by
  refine h.length.and_found.bind fun length _ hl => ?_
  obtain ⟨hl, rfl⟩ := hl
  have helement := h.element (Outcome.ofOption_eq_found_iff.1 hl)
  refine (elementsAfter_matches #[] 0 length fun i _ hi => helement i (by omega)).bind fun vs _ hvs => ?_
  exact .found (congrArg Value.tuple hvs)

end StoredArray

/-! ### The arrays of a deferred value -/

namespace Deferred

/-- Every stored array in the value, at any depth, has the property. -/
inductive Arrays (P : StoredArray → Prop) : Deferred → Prop
  | value (v) : Arrays P (.value v)
  | array {a} : P a → Arrays P (.array a)
  | nil : Arrays P (.tuple [])
  | cons {d ds} : Arrays P d → Arrays P (.tuple ds) → Arrays P (.tuple (d :: ds))
  | closure (body) {d} : Arrays P d → Arrays P (.closure body d)

variable {P : StoredArray → Prop}

theorem Arrays.of_mem {d : Deferred} {ds : List Deferred} (hds : Arrays P (.tuple ds)) (h : d ∈ ds) : Arrays P d := by
  induction ds with
  | nil => cases h
  | cons c cs ih =>
    cases hds with
    | cons hc hcs =>
      rcases List.mem_cons.1 h with rfl | h
      · exact hc
      · exact ih hcs h

/-- Forcing a tuple matches if forcing its first element and the rest does. -/
theorem force_cons_matches {d d' : Deferred} {ds ds' : List Deferred} (hd : (d.force s).Matches τ Eq (d'.force t))
    (hds : (force s (.tuple ds)).Matches τ Eq (force t (.tuple ds'))) :
    (force s (.tuple (d :: ds))).Matches τ Eq (force t (.tuple (d' :: ds'))) := by
  have hall : (forceAll s ds).Matches τ Eq (forceAll t ds') := by
    rw [force_tuple, force_tuple] at hds
    exact hds.of_map fun vs ws h => Value.tuple.inj h
  rw [force_tuple, force_tuple, forceAll_cons, forceAll_cons]
  refine (hd.bind fun v _ hv => hall.bind fun vs _ hvs => ?_).bind fun vs _ hvs => .found (congrArg Value.tuple hvs)
  exact .found (by rw [hv, hvs])

theorem value_force_ne_missing (stores : Storages) (v : Value) : (value v).force stores ≠ .missing := by
  rw [force_value]
  split <;> rintro ⟨⟩

/-- Data without closures is what it is forced to. -/
theorem force_plain (stores : Storages) {v : Value} (hv : v.containsClosure = false) :
    (value v).force stores = .found v := by
  rw [force_value, if_neg (by simp [hv])]

theorem force_matches (hP : ∀ a, P a → a.ReadsAlike τ s t) {d : Deferred} (hd : Arrays P d) :
    (d.force s).Matches τ Eq (d.force t) := by
  induction hd with
  | value v =>
    rw [show (value v).force t = (value v).force s from rfl]
    exact .refl fun h => absurd h (value_force_ne_missing s v)
  | array ha => exact StoredArray.materialize_matches (hP _ ha)
  | nil => exact .found rfl
  | cons _ _ ihd ihds => exact force_cons_matches ihd ihds
  | closure body _ _ => exact .same_fault _

theorem ofExcept_matches {α : Type} (x : Except Fault α) : (Outcome.ofExcept x).Matches τ Eq (.ofExcept x) := by
  cases x with
  | ok a => exact .found rfl
  | error e => exact .same_fault e

theorem value_item_matches {R : Deferred → Deferred → Prop} (hR : ∀ v, R (.value v) (.value v)) (w : Value) (n : Nat) :
    ((value w).item s n).Matches τ R ((value w).item t n) := by
  match w with
  | .tuple vs =>
    refine (ofExcept_matches (pick vs n)).map ?_
    rintro v _ rfl
    exact hR v
  | .unit | .bit _ | .variant _ | .closure _ _ => exact .same_fault _

theorem item_matches (hP : ∀ a, P a → a.ReadsAlike τ s t) {d : Deferred} (hd : Arrays P d) (n : Nat) :
    (d.item s n).Matches τ (fun r r' => r = r' ∧ Arrays P r) (d.item t n) := by
  match d, hd with
  | .array a, .array ha =>
    exact (StoredArray.get_matches (hP a ha) n).map fun v _ hv => ⟨congrArg value hv, .value v⟩
  | .tuple ds, hds =>
    rw [item_tuple, item_tuple, pick]
    cases h : ds[n]? with
    | none => exact .same_fault _
    | some d => exact .found ⟨rfl, hds.of_mem (List.mem_of_getElem? h)⟩
  | .value w, _ => exact value_item_matches (fun v => ⟨rfl, .value v⟩) w n
  | .closure _ _, _ => exact .same_fault _

/-- Where the arrays with a property read alike, values built on them stand for themselves. -/
theorem arrays_simulation (hP : ∀ a, P a → a.ReadsAlike τ s t) :
    StrictSimulation τ s t fun d d' => d = d' ∧ Arrays P d where
  value v := ⟨rfl, .value v⟩
  nil := ⟨rfl, .nil⟩
  cons := by
    rintro d _ ds _ ⟨rfl, hd⟩ ⟨h, hds⟩
    exact ⟨by rw [Deferred.tuple.inj h], .cons hd hds⟩
  closure body := by
    rintro d _ ⟨rfl, hd⟩
    exact ⟨rfl, .closure body hd⟩
  force := by
    rintro d _ ⟨rfl, hd⟩
    exact force_matches hP hd
  index := by
    rintro d _ ⟨rfl, _⟩
    exact ofExcept_matches d.toIndex
  item n := by
    rintro ⟨rfl, hd⟩
    exact item_matches hP hd n
  kind := by
    rintro d _ ⟨rfl, _⟩
    rfl
  array := by
    rintro a _ ⟨rfl, ha⟩
    cases ha with
    | array h => exact ⟨rfl, hP a h⟩
  captured := by
    rintro body b _ ⟨rfl, hb⟩
    cases hb with
    | closure _ h => exact ⟨b, rfl, rfl, h⟩
  code := by
    rintro body v _ ⟨rfl, _⟩
    rfl

end Deferred

end BitStore
