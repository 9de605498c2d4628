import BitStore.Proofs.Getter.Answer

/-! Lazy and eager evaluation agree. An array that can be read in full may be handed
to an expression as it is stored or as the tuple it holds. Without filters, whatever
the lazy evaluation finds the eager one finds too, and neither lacks data. They
fault alike, unless the array is empty: only then does its tuple pass for an index. -/

namespace BitStore

namespace Deferred

/-- The second value is the first with every array read in full, where `v` is what `a` holds. -/
inductive Settles (a : StoredArray) (v : Value) : Deferred → Deferred → Prop
  | value (w) : Settles a v (.value w) (.value w)
  | array : Settles a v (.array a) (.value v)
  | nil : Settles a v (.tuple []) (.tuple [])
  | cons {d d' ds ds'} :
    Settles a v d d' → Settles a v (.tuple ds) (.tuple ds') → Settles a v (.tuple (d :: ds)) (.tuple (d' :: ds'))
  | closure (body) {d d'} : Settles a v d d' → Settles a v (.closure body d) (.closure body d')

variable {a : StoredArray} {v : Value} {stores : Storages}

/-! ### Indices -/

/-- Only bits settle as bits. -/
theorem Settles.eq_digits_iff (hv : ∀ b, v ≠ .bit b) {ds ds' : List Deferred} (h : Settles a v (.tuple ds) (.tuple ds'))
    (bits : Bits) : ds = digits bits ↔ ds' = digits bits := by
  induction bits generalizing ds ds' with
  | nil => cases h <;> simp [digits]
  | cons b bits ih =>
    cases h with
    | nil => rfl
    | @cons d d' ds ds' hd hds =>
      have hbit : d = .value (.bit b) ↔ d' = .value (.bit b) := by
        cases hd with
        | value w => rfl
        | array => simp [hv b]
        | nil | cons | closure => simp
      simp only [digits, List.map_cons, List.cons.injEq, hbit]
      exact and_congr_right fun _ => ih hds

theorem ne_bit_of_materialize (hv : a.materialize stores = .found v) (b : Bool) : v ≠ .bit b := by
  obtain ⟨es, rfl, _⟩ := StoredArray.materialize_eq_found_iff.1 hv
  exact nofun

/-- The tuple that an array holds has tuples for elements, so it is no index unless it is empty. -/
theorem eq_nil_of_toIndex (hv : a.materialize stores = .found v) {n : Nat} (h : (value v).toIndex = .ok n) :
    v = .tuple [] := by
  obtain ⟨es, rfl, _, hes⟩ := StoredArray.materialize_eq_found_iff.1 hv
  obtain ⟨_, bits, rfl, _⟩ := Value.numberOf_eq_ok_iff.1 (toIndex_value_eq_ok_iff.1 h)
  cases bits with
  | nil => rfl
  | cons b bits =>
    obtain ⟨row, hrow⟩ := StoredArray.elementAt_eq_ofBits (hes 0 (Nat.succ_pos _))
    cases hrow

theorem Settles.toIndex (hv : a.materialize stores = .found v) {d d' : Deferred} (h : Settles a v d d') (n : Nat) :
    (d.toIndex = .ok n → d'.toIndex = .ok n) ∧ (d'.toIndex = .ok n → v = .tuple [] ∨ d.toIndex = .ok n) := by
  have htuple {ds ds' : List Deferred} (h : Settles a v (.tuple ds) (.tuple ds')) :
      (tuple ds).toIndex = .ok n ↔ (tuple ds').toIndex = .ok n := by
    simp only [toIndex_tuple_eq_ok_iff, h.eq_digits_iff (ne_bit_of_materialize hv)]
  cases h with
  | value w => exact ⟨id, .inr⟩
  | array => exact ⟨nofun, fun h => .inl (eq_nil_of_toIndex hv h)⟩
  | nil => exact ⟨id, .inr⟩
  | cons hd hds => exact ⟨(htuple (.cons hd hds)).1, fun h => .inr ((htuple (.cons hd hds)).2 h)⟩
  | closure body _ => exact ⟨nofun, nofun⟩

/-! ### The simulation -/

/-- Nothing goes missing, and only the tuple of an empty array excuses a fault. -/
def eagerly (v : Value) : Tolerance :=
  ⟨False, v = .tuple [], Fault.Alike, .refl⟩

theorem Settles.index_matches (hv : a.materialize stores = .found v) {d d' : Deferred} (h : Settles a v d d') :
    (Outcome.ofExcept d.toIndex).Matches (eagerly v) Eq (.ofExcept d'.toIndex) := by
  rcases d.toIndex_cases with ⟨n, hn⟩ | he
  · rw [hn, (h.toIndex hv n).1 hn]
    exact .found rfl
  · rcases d'.toIndex_cases with ⟨n, hn⟩ | he'
    · rcases (h.toIndex hv n).2 hn with hnil | hn
      · rw [he]
        exact .inl hnil
      · rw [he] at hn
        cases hn
    · rw [he, he']
      exact .fault (.invalidIndex d d')

theorem Settles.force_matches (hv : a.materialize stores = .found v) {d d' : Deferred} (h : Settles a v d d') :
    (d.force stores).Matches (eagerly v) Eq (d'.force stores) := by
  induction h with
  | value w => exact .refl fun h => absurd h (value_force_ne_missing stores w)
  | array =>
    have hplain : v.containsClosure = false := by
      obtain ⟨es, rfl, _, _⟩ := StoredArray.materialize_eq_found_iff.1 hv
      refine Value.containsClosure_tuple fun e he => ?_
      obtain ⟨row, rfl⟩ := StoredArray.eq_ofBits_of_mem hv he
      exact Value.containsClosure_ofBits row
    rw [force_array, force_value, hv, hplain]
    exact .found rfl
  | nil => exact .found rfl
  | cons _ _ ihd ihds => exact force_cons_matches ihd ihds
  | closure body _ _ => exact .same_fault _

theorem Settles.length_eq {ds ds' : List Deferred} (h : Settles a v (.tuple ds) (.tuple ds')) :
    ds.length = ds'.length := by
  induction ds generalizing ds' with
  | nil => cases h; rfl
  | cons d ds ih =>
    cases h with
    | cons _ hds => rw [List.length_cons, List.length_cons, ih hds]

theorem Settles.getElem {ds ds' : List Deferred} (h : Settles a v (.tuple ds) (.tuple ds')) (n : Nat)
    (hn : n < ds.length) (hn' : n < ds'.length) : Settles a v ds[n] ds'[n] := by
  induction ds generalizing ds' n with
  | nil => cases hn
  | cons d ds ih =>
    cases h with
    | cons hd hds =>
      cases n with
      | zero => exact hd
      | succ n => exact ih hds n (Nat.lt_of_succ_lt_succ hn) (Nat.lt_of_succ_lt_succ hn')

theorem Settles.pick_matches {ds ds' : List Deferred} (h : Settles a v (.tuple ds) (.tuple ds')) (n : Nat) :
    (Outcome.ofExcept (pick ds n)).Matches (eagerly v) (Settles a v) (.ofExcept (pick ds' n)) := by
  have hlen := h.length_eq
  by_cases hn : n < ds.length
  · have hn' : n < ds'.length := by omega
    rw [pick, pick, List.getElem?_eq_getElem hn, List.getElem?_eq_getElem hn']
    exact .found (h.getElem n hn hn')
  · rw [pick, pick, List.getElem?_eq_none (by omega), List.getElem?_eq_none (by omega), hlen]
    exact .same_fault _

/-- Indexing a stored array and indexing the tuple it holds match. -/
theorem item_array_matches (hv : a.materialize stores = .found v) (n : Nat) :
    ((array a).item stores n).Matches (eagerly v) (Settles a v) ((value v).item stores n) := by
  obtain ⟨es, rfl, hlen, hes⟩ := StoredArray.materialize_eq_found_iff.1 hv
  rw [item_array, item_value_tuple, pick]
  by_cases hn : n < es.length
  · rw [StoredArray.get_of_lt hlen hn, hes n hn, List.getElem?_eq_getElem hn]
    exact .found (.value es[n])
  · rw [StoredArray.get_of_le hlen (Nat.le_of_not_lt hn), List.getElem?_eq_none (Nat.le_of_not_lt hn)]
    exact .same_fault _

theorem Settles.item_matches (hv : a.materialize stores = .found v) {d d' : Deferred} (h : Settles a v d d') (n : Nat) :
    (d.item stores n).Matches (eagerly v) (Settles a v) (d'.item stores n) := by
  cases h with
  | value w => exact value_item_matches .value w n
  | array => exact item_array_matches hv n
  | nil => exact Settles.nil.pick_matches n
  | cons hd hds => exact (hd.cons hds).pick_matches n
  | closure body _ => exact .same_fault _

/-- An array and the tuple it holds can stand for each other where nothing is filtered. -/
theorem settles_simulation (hv : a.materialize stores = .found v) :
    Simulation (eagerly v) stores stores (Settles a v) where
  value := .value
  nil := .nil
  cons := .cons
  closure := .closure
  force h := h.force_matches hv
  index h := h.index_matches hv
  item n h := h.item_matches hv n

end Deferred

/-! ### Lazy and eager answers -/

/-- A getter that is handed no stored array never lacks data. -/
theorem Expr.answer_value_ne_missing (getter : Expr) (stores : Storages) (v w : Value) :
    getter.answer stores (.value v) w ≠ .missing := by
  have hlocal : (getter.answer stores (.value v) w).Matches .none Eq (getter.answer stores (.value v) w) :=
    answer_local w (fun _ => False.elim) (.value v) getter
  exact hlocal.ne_missing not_false

variable {a : StoredArray} {v : Value} {stores : Storages}

theorem Expr.answer_matches (hv : a.materialize stores = .found v) (w : Value) {getter : Expr}
    (hg : getter.filterFree = true) :
    (getter.answer stores (.array a) w).Matches (Deferred.eagerly v) Eq (getter.answer stores (.value v) w) := by
  have H := Deferred.settles_simulation hv
  have hinput : Deferred.Settles a v (.tuple [.array a, .value w]) (.tuple [.value v, .value w]) :=
    .cons .array (.cons (.value w) .nil)
  exact (Expr.eval_matches_of_filterFree H hinput (.value .unit) hg).bind fun d d' hd => H.force hd

/-- An expression without filters answers about an array in storage as it does about the
tuple the array holds: what it finds lazily it finds eagerly, it never lacks data, and
about an array that is not empty it faults alike. -/
theorem Expr.answer_lazy_eager (hv : a.materialize stores = .found v) (w : Value) {getter : Expr}
    (hg : getter.filterFree = true) :
    (∀ r, getter.answer stores (.array a) w = .found r → getter.answer stores (.value v) w = .found r) ∧
    getter.answer stores (.array a) w ≠ .missing ∧
    getter.answer stores (.value v) w ≠ .missing ∧
    (∀ length, a.length? stores = some length → 0 < length →
      (∀ e, getter.answer stores (.array a) w = .fault e →
        ∃ f, getter.answer stores (.value v) w = .fault f ∧ e.Alike f) ∧
      (∀ f, getter.answer stores (.value v) w = .fault f →
        ∃ e, getter.answer stores (.array a) w = .fault e ∧ e.Alike f)) := by
  have hmatch := Expr.answer_matches hv w hg
  refine ⟨fun r => hmatch.eq_found, hmatch.ne_missing not_false, getter.answer_value_ne_missing stores v w, ?_⟩
  intro length hlen hpos
  have hstrict : v ≠ .tuple [] := by
    obtain ⟨es, rfl, hes, _⟩ := StoredArray.materialize_eq_found_iff.1 hv
    obtain rfl : length = es.length := Option.some.inj (hlen.symm.trans hes)
    rintro ⟨⟩
    exact Nat.lt_irrefl 0 hpos
  refine ⟨fun e => hmatch.eq_fault hstrict, fun f hf => ?_⟩
  cases hl : getter.answer stores (.array a) w with
  | found r =>
    rw [hmatch.eq_found hl] at hf
    cases hf
  | missing => exact absurd hl (hmatch.ne_missing not_false)
  | fault e =>
    obtain ⟨f', hf', hef⟩ := hmatch.eq_fault hstrict hl
    obtain rfl : f = f' := Outcome.fault.inj (hf.symm.trans hf')
    exact ⟨e, rfl, hef⟩

/-- The third of two bytes is out of range, whether they are read in full or not. -/
theorem Expr.answer_lazy_eager_third_of_two :
    ∃ stores : Storages, stores = (fun _ => ⟨[0, 0, 0, 0, 0, 0, 0, 2, 5, 6]⟩) ∧
      (StoredArray.mk .zero (.bitset 8)).materialize stores = .found (.tuple [.unsigned 8 5, .unsigned 8 6]) ∧
      ((Expr.argument.nth 0).nth 2).filterFree = true ∧
      ∃ f, ((Expr.argument.nth 0).nth 2).answer stores (.value (.tuple [.unsigned 8 5, .unsigned 8 6])) .unit =
          .fault f ∧
        Fault.Alike (.indexOutOfRange 2 2) f := by
  let stores : Storages := fun _ => ⟨[0, 0, 0, 0, 0, 0, 0, 2, 5, 6]⟩
  have hv : (StoredArray.mk .zero (.bitset 8)).materialize stores = .found (.tuple [.unsigned 8 5, .unsigned 8 6]) := by
    rfl
  have hg : ((Expr.argument.nth 0).nth 2).filterFree = true := by rfl
  have hlen : (StoredArray.mk .zero (.bitset 8)).length? stores = some 2 := by decide
  have hlazy : ((Expr.argument.nth 0).nth 2).answer stores (.array ⟨.zero, .bitset 8⟩) .unit =
      .fault (.indexOutOfRange 2 2) := by
    rw [Expr.answer_item _ _ _ (by decide), Deferred.item_array, StoredArray.get_of_le hlen (Nat.le_refl 2)]
    rfl
  exact ⟨stores, rfl, hv, hg, ((Expr.answer_lazy_eager hv .unit hg).2.2.2 2 hlen (by decide)).1 _ hlazy⟩

end BitStore
