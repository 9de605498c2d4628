import BitStore.Proofs.Storage.ElementAccess

/-! Reading an array in full against getting its elements one by one. The full read neither
looks at the range of an index nor at the element count again, but it comes to the same: it
finds the tuple of what the single reads find, and otherwise it stops as the first single
read does that finds nothing. Where bitsets of one bit or more are stored and every bit has
an address, it finds something exactly if the storage reaches to the end of the last element. -/

namespace BitStore

namespace Outcome

variable {α β : Type}

/-- Nothing found, by a fault if one is given and otherwise for lack of data. -/
def stopped : Option Fault → Outcome α
  | none => .missing
  | some e => .fault e

theorem stopped_ne_found (reason : Option Fault) (a : α) : stopped reason ≠ .found a := by
  cases reason <;> rintro ⟨⟩

theorem eq_stopped_or_eq_found (x : Outcome α) : (∃ reason, x = stopped reason) ∨ ∃ a, x = .found a := by
  cases x with
  | found a => exact .inr ⟨a, rfl⟩
  | missing => exact .inl ⟨none, rfl⟩
  | fault e => exact .inl ⟨some e, rfl⟩

theorem stopped_bind (reason : Option Fault) (f : α → Outcome β) : (stopped reason >>= f) = stopped reason := by
  cases reason <;> rfl

theorem stopped_inj {r reason : Option Fault} (h : (stopped r : Outcome α) = stopped reason) : r = reason := by
  cases r <;> cases reason <;> simp_all [stopped]

theorem bind_eq_stopped_iff {x : Outcome α} {f : α → Outcome β} {reason : Option Fault} :
    (x >>= f) = stopped reason ↔ x = stopped reason ∨ ∃ a, x = .found a ∧ f a = stopped reason := by
  rcases eq_stopped_or_eq_found x with ⟨r, rfl⟩ | ⟨a, rfl⟩
  · rw [stopped_bind]
    constructor
    · exact fun h => .inl (congrArg stopped (stopped_inj h))
    · rintro (h | ⟨a, ha, _⟩)
      · exact congrArg stopped (stopped_inj h)
      · exact absurd ha (stopped_ne_found r a)
  · simp [(stopped_ne_found reason a).symm]

theorem ofOption_eq_stopped_iff {x : Option α} {reason : Option Fault} :
    ofOption x = stopped reason ↔ x = none ∧ reason = none := by
  cases x <;> cases reason <;> simp [ofOption, stopped]

end Outcome

namespace StoredArray

variable {a : StoredArray} {stores : Storages}

/-! ### Where a full read stops -/

/-- A run of elements is read up to the first one that cannot be. -/
theorem elementsAfter_eq_stopped_iff {read : Array Value} {index count : Nat} {reason : Option Fault} :
    a.elementsAfter stores read index count = .stopped reason ↔
      ∃ i < count, (∀ j < i, ∃ v, a.elementAt stores (index + j) = .found v) ∧
        a.elementAt stores (index + i) = .stopped reason := by
  induction count generalizing read index with
  | zero =>
    rw [elementsAfter_zero]
    refine iff_of_false (Outcome.stopped_ne_found reason _).symm ?_
    rintro ⟨i, hi, _⟩
    exact Nat.not_lt_zero i hi
  | succ count ih =>
    have hshift (i : Nat) : index + (i + 1) = index + 1 + i := by omega
    rw [elementsAfter_succ, Outcome.bind_eq_stopped_iff]
    constructor
    · rintro (h | ⟨v, hv, h⟩)
      · exact ⟨0, Nat.succ_pos count, fun j hj => absurd hj (Nat.not_lt_zero j), h⟩
      · obtain ⟨i, hi, hbefore, hstop⟩ := ih.1 h
        refine ⟨i + 1, Nat.succ_lt_succ hi, fun j hj => ?_, by rw [hshift]; exact hstop⟩
        cases j with
        | zero => exact ⟨v, hv⟩
        | succ j =>
          rw [hshift]
          exact hbefore j (Nat.lt_of_succ_lt_succ hj)
    · rintro ⟨i, hi, hbefore, hstop⟩
      cases i with
      | zero => exact .inl hstop
      | succ i =>
        obtain ⟨v, hv⟩ := hbefore 0 (Nat.succ_pos i)
        refine .inr ⟨v, hv, ih.2 ⟨i, Nat.lt_of_succ_lt_succ hi, fun j hj => ?_, ?_⟩⟩
        · rw [← hshift]
          exact hbefore (j + 1) (Nat.succ_lt_succ hj)
        · rw [← hshift]
          exact hstop

/-- Below the element count, elements are read as they are got. -/
theorem elementsAfter_eq_stopped_iff_get {length : Nat} (hlen : a.length? stores = some length) {reason : Option Fault} :
    a.elementsAfter stores #[] 0 length = .stopped reason ↔
      ∃ i < length, (∀ j < i, ∃ v, a.get stores j = .found v) ∧ a.get stores i = .stopped reason := by
  rw [elementsAfter_eq_stopped_iff]
  refine exists_congr fun i => and_congr_right fun hi => ?_
  have hget (j : Nat) (hj : j ≤ i) : a.elementAt stores (0 + j) = a.get stores j := by
    rw [Nat.zero_add, get_of_lt hlen (Nat.lt_of_le_of_lt hj hi)]
  rw [hget i (Nat.le_refl i)]
  refine and_congr_left fun _ => forall_congr' fun j => forall_congr' fun hj => ?_
  rw [hget j (Nat.le_of_lt hj)]

/-- The index is below the element count and the first at which no element can be got. -/
def StopsAt (a : StoredArray) (stores : Storages) (index : Nat) : Prop :=
  (∃ length, a.length? stores = some length ∧ index < length) ∧
    (∀ i < index, ∃ v, a.get stores i = .found v) ∧ ∀ v, a.get stores index ≠ .found v

theorem materialize_eq_stopped_iff {reason : Option Fault} :
    a.materialize stores = .stopped reason ↔
      a.length? stores = none ∧ reason = none ∨ ∃ i, a.StopsAt stores i ∧ a.get stores i = .stopped reason := by
  rw [materialize_eq, Outcome.bind_eq_stopped_iff, Outcome.ofOption_eq_stopped_iff]
  refine or_congr_right ?_
  constructor
  · rintro ⟨length, hlen, h⟩
    rw [Outcome.ofOption_eq_found_iff] at hlen
    rcases Outcome.bind_eq_stopped_iff.1 h with h | ⟨vs, _, h⟩
    · obtain ⟨i, hi, hbefore, hstop⟩ := (elementsAfter_eq_stopped_iff_get hlen).1 h
      refine ⟨i, ⟨⟨length, hlen, hi⟩, hbefore, fun v hv => ?_⟩, hstop⟩
      exact Outcome.stopped_ne_found reason v (hstop.symm.trans hv)
    · exact absurd h (Outcome.stopped_ne_found reason _).symm
  · rintro ⟨i, ⟨⟨length, hlen, hi⟩, hbefore, _⟩, hstop⟩
    refine ⟨length, Outcome.ofOption_eq_found_iff.2 hlen, Outcome.bind_eq_stopped_iff.2 (.inl ?_)⟩
    exact (elementsAfter_eq_stopped_iff_get hlen).2 ⟨i, hi, hbefore, hstop⟩

/-! ### What a full read finds -/

theorem materialize_eq_found_iff_get {v : Value} :
    a.materialize stores = .found v ↔
      ∃ es : List Value, v = .tuple es ∧ a.length? stores = some es.length ∧
        ∀ i (h : i < es.length), a.get stores i = .found es[i] := by
  rw [materialize_eq_found_iff]
  refine exists_congr fun es => and_congr_right fun _ => and_congr_right fun hlen => ?_
  refine forall_congr' fun i => forall_congr' fun hi => ?_
  rw [get_of_lt hlen hi]

/-- An array can be read in full exactly if each element below its count can be got. -/
theorem exists_materialize_iff :
    (∃ v, a.materialize stores = .found v) ↔
      ∃ length, a.length? stores = some length ∧ ∀ i < length, ∃ e, a.get stores i = .found e := by
  constructor
  · rintro ⟨v, h⟩
    obtain ⟨es, _, hlen, hes⟩ := materialize_eq_found_iff_get.1 h
    exact ⟨es.length, hlen, fun i hi => ⟨es[i], hes i hi⟩⟩
  · rintro ⟨length, hlen, hget⟩
    refine (Outcome.eq_stopped_or_eq_found _).resolve_left ?_
    rintro ⟨reason, h⟩
    rcases materialize_eq_stopped_iff.1 h with ⟨hnone, _⟩ | ⟨i, ⟨⟨n, hn, hi⟩, _, hstop⟩, _⟩
    · rw [hlen] at hnone
      cases hnone
    · obtain rfl : length = n := Option.some.inj (hlen.symm.trans hn)
      obtain ⟨e, he⟩ := hget i hi
      exact hstop e he

/-- Of several elements the last one decides, and of none the element count. -/
theorem forall_exists_get_iff {start : StoragePointer} {width length : Nat}
    (hs : 8 * (stores start.storage).bytes.length < AddressSpace.size) (hw : 0 < width)
    (hlen : (mk start (.bitset width)).length? stores = some length) :
    (∀ i < length, ∃ e, (mk start (.bitset width)).get stores i = .found e) ↔
      start.elementStart width length ≤ 8 * (stores start.storage).bytes.length := by
  have helement (i : Nat) (hi : i < length) : (∃ e, (mk start (.bitset width)).get stores i = .found e) ↔
      start.elementStart width (i + 1) ≤ 8 * (stores start.storage).bytes.length := by
    rw [get_of_lt hlen hi, Address.elementStart_succ]
    constructor
    · rintro ⟨e, he⟩
      exact ((elementAt_eq_found_iff hs hw).1 he).1
    · exact fun h => ⟨_, (elementAt_eq_found_iff hs hw).2 ⟨h, rfl⟩⟩
  constructor
  · intro h
    cases length with
    | zero => exact (Storage.readable_iff_of_pos _ (by decide)).1 ((stores start.storage).countAt_eq_some_iff.1 hlen).1
    | succ length => exact (helement length (Nat.lt_succ_self length)).1 (h length (Nat.lt_succ_self length))
  · exact fun h i hi => (helement i hi).2 (Nat.le_trans (start.elementStart_mono width hi) h)

/-- Reading an array in full finds the tuple of all its elements, as each of them is got by its index.
It lacks data exactly if the element count does or the first element that cannot be got does, and
it faults exactly if that element does, in the same way. With bitsets of one bit or more in a
storage whose bits all have addresses, it finds something exactly if the element count can be
read and this storage reaches to the end of that many elements. -/
theorem materialize_iff_get (a : StoredArray) (stores : Storages) :
    (∀ v, a.materialize stores = .found v ↔
      ∃ es : List Value, v = .tuple es ∧ a.length? stores = some es.length ∧
        ∀ i (h : i < es.length), a.get stores i = .found es[i]) ∧
    (a.materialize stores = .missing ↔
      a.length? stores = none ∨ ∃ i, a.StopsAt stores i ∧ a.get stores i = .missing) ∧
    (∀ e, a.materialize stores = .fault e ↔ ∃ i, a.StopsAt stores i ∧ a.get stores i = .fault e) ∧
    ∀ width, a.element = .bitset width → 0 < width → 8 * (stores a.start.storage).bytes.length < AddressSpace.size →
      ((∃ v, a.materialize stores = .found v) ↔
        ∃ n, a.length? stores = some n ∧ a.start.elementStart width n ≤ 8 * (stores a.start.storage).bytes.length) := by
  refine ⟨fun v => materialize_eq_found_iff_get, ?_, fun e => ?_, ?_⟩
  · have h : a.materialize stores = .stopped none ↔ _ := materialize_eq_stopped_iff
    simpa [Outcome.stopped] using h
  · have h : a.materialize stores = .stopped (some e) ↔ _ := materialize_eq_stopped_iff
    simpa [Outcome.stopped] using h
  · obtain ⟨start, element⟩ := a
    rintro width rfl hw hs
    rw [exists_materialize_iff]
    exact exists_congr fun n => and_congr_right fun hlen => forall_exists_get_iff hs hw hlen

/-- Under the highest element count there is, two bytes are got and then there is no third, so the array
cannot be read in full. Three bits into another storage, a single element of six bits can. -/
theorem materialize_iff_get_highest_count :
    ∃ stores : Storages, stores = (fun n =>
      if n = 0 then ⟨[255, 255, 255, 255, 255, 255, 255, 255, 1, 2]⟩ else ⟨[0, 0, 0, 0, 0, 0, 0, 0, 0x36, 0x80]⟩) ∧
      (mk .zero (.bitset 8)).length? stores = some (AddressSpace.size - 1) ∧
      (mk .zero (.bitset 8)).materialize stores = .missing ∧
      (¬ ∃ v, (mk .zero (.bitset 8)).materialize stores = .found v) ∧
      ∃ v, (mk ⟨⟨3, by decide⟩, 1⟩ (.bitset 6)).materialize stores = .found v := by
  let stores : Storages := fun n =>
    if n = 0 then ⟨[255, 255, 255, 255, 255, 255, 255, 255, 1, 2]⟩ else ⟨[0, 0, 0, 0, 0, 0, 0, 0, 0x36, 0x80]⟩
  have hlen : (mk .zero (.bitset 8)).length? stores = some (AddressSpace.size - 1) := by rfl
  have hthird : (mk .zero (.bitset 8)).get stores 2 = .missing := by rfl
  have hstops : (mk .zero (.bitset 8)).StopsAt stores 2 := by
    refine ⟨⟨_, hlen, by decide⟩, fun i hi => ?_, fun v => by rw [hthird]; rintro ⟨⟩⟩
    match i, hi with
    | 0, _ => exact ⟨_, rfl⟩
    | 1, _ => exact ⟨_, rfl⟩
  obtain ⟨_, hmissing, _, hfound⟩ := materialize_iff_get (mk .zero (.bitset 8)) stores
  refine ⟨stores, rfl, hlen, hmissing.2 (.inr ⟨2, hstops, hthird⟩), ?_, ?_⟩
  · rw [hfound 8 rfl (by decide) (by decide)]
    rintro ⟨n, hn, hend⟩
    obtain rfl : AddressSpace.size - 1 = n := Option.some.inj (hlen.symm.trans hn)
    exact absurd hend (by decide)
  · have h := materialize_iff_get (mk ⟨⟨3, by decide⟩, 1⟩ (.bitset 6)) stores
    exact (h.2.2.2 6 rfl (by decide) (by decide)).2 ⟨1, by rfl, by decide⟩

end StoredArray

end BitStore
