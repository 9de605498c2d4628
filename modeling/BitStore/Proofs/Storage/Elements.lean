import BitStore.Eval.Depth
import BitStore.Proofs.Eval.Comparison

/-! The elements of a stored array. Reading the whole array succeeds exactly if its
count can be read and so can every element below the count; it then yields these
elements in order, each a run of bits. -/

namespace BitStore.StoredArray

variable {a : StoredArray} {stores : Storages}

theorem elementsAfter_eq_found_iff {read : Array Value} {index count : Nat} {vs : List Value} :
    a.elementsAfter stores read index count = .found vs ↔
      ∃ es : List Value, vs = read.toList ++ es ∧ es.length = count ∧
        ∀ i (h : i < es.length), a.elementAt stores (index + i) = .found es[i] := by
  induction count generalizing read index with
  | zero =>
    rw [elementsAfter_zero, Outcome.found.injEq]
    constructor
    · rintro rfl
      exact ⟨[], by simp, rfl, nofun⟩
    · rintro ⟨es, rfl, hlen, _⟩
      rw [List.eq_nil_of_length_eq_zero hlen, List.append_nil]
  | succ count ih =>
    rw [elementsAfter_succ, Outcome.bind_eq_found_iff]
    constructor
    · rintro ⟨e, he, h⟩
      obtain ⟨es, rfl, rfl, hes⟩ := ih.1 h
      refine ⟨e :: es, by simp, rfl, fun i hi => ?_⟩
      cases i with
      | zero => exact he
      | succ i =>
        rw [show index + (i + 1) = index + 1 + i by omega]
        exact hes i (Nat.lt_of_succ_lt_succ hi)
    · rintro ⟨es, rfl, hlen, hes⟩
      cases es with
      | nil => cases hlen
      | cons e es =>
        refine ⟨e, hes 0 (Nat.succ_pos _), ih.2 ⟨es, by simp, Nat.succ.inj hlen, fun i hi => ?_⟩⟩
        rw [show index + 1 + i = index + (i + 1) by omega]
        exact hes (i + 1) (Nat.succ_lt_succ hi)

theorem elementsAfter_succ_eq_found_iff {index count : Nat} {vs : List Value} :
    a.elementsAfter stores #[] index (count + 1) = .found vs ↔
      ∃ e es, vs = e :: es ∧ a.elementAt stores index = .found e ∧
        a.elementsAfter stores #[] (index + 1) count = .found es := by
  have hread (e : Value) : a.elementsAfter stores #[e] (index + 1) count = .found vs ↔
      ∃ es, vs = e :: es ∧ a.elementsAfter stores #[] (index + 1) count = .found es := by
    simp [elementsAfter_eq_found_iff]
  rw [elementsAfter_succ, Outcome.bind_eq_found_iff]
  constructor
  · rintro ⟨e, he, h⟩
    obtain ⟨es, hvs, hes⟩ := (hread e).1 h
    exact ⟨e, es, hvs, he, hes⟩
  · rintro ⟨e, es, hvs, he, hes⟩
    exact ⟨e, he, (hread e).2 ⟨es, hvs, hes⟩⟩

/-- An array is read in full exactly if each of its elements can be read. -/
theorem materialize_eq_found_iff {v : Value} :
    a.materialize stores = .found v ↔
      ∃ es : List Value, v = .tuple es ∧ a.length? stores = some es.length ∧
        ∀ i (h : i < es.length), a.elementAt stores i = .found es[i] := by
  constructor
  · intro h
    obtain ⟨length, hlen, hread⟩ := Outcome.bind_eq_found_iff.1 h
    obtain ⟨vs, hvs, hv⟩ := Outcome.bind_eq_found_iff.1 hread
    obtain ⟨es, he, rfl, hes⟩ := elementsAfter_eq_found_iff.1 hvs
    obtain rfl : vs = es := by simpa using he
    refine ⟨vs, (Outcome.found.inj hv).symm, ?_, fun i hi => by simpa using hes i hi⟩
    exact Outcome.ofOption_eq_found_iff.1 hlen
  · rintro ⟨es, rfl, hlen, hes⟩
    have hread : a.elementsAfter stores #[] 0 es.length = .found es :=
      elementsAfter_eq_found_iff.2 ⟨es, by simp, rfl, fun i hi => by simpa using hes i hi⟩
    rw [materialize_eq, hlen]
    simp [Outcome.ofOption, hread]

theorem elementAt_of_access {width index : Nat} {address : Address} {v : Value} (helement : a.element = .bitset width)
    (haddress : a.start.element width index = .ok address)
    (haccess : (stores a.start.storage).access address width = some v) : a.elementAt stores index = .found v := by
  rw [elementAt, helement]
  simp only [haddress, haccess, Outcome.ofOption]

theorem elementAt_eq_ofBits {index : Nat} {v : Value} (h : a.elementAt stores index = .found v) :
    ∃ bits, v = .ofBits bits := by
  have hb := a.elementAt_holds stores index
  rw [h] at hb
  exact hb

/-- What is read of an array in full is a tuple of runs of bits. -/
theorem eq_ofBits_of_mem {es : List Value} (h : a.materialize stores = .found (.tuple es)) {e : Value} (he : e ∈ es) :
    ∃ bits, e = .ofBits bits := by
  obtain ⟨_, ⟨⟩, _, hes⟩ := materialize_eq_found_iff.1 h
  obtain ⟨i, hi, rfl⟩ := List.getElem_of_mem he
  exact elementAt_eq_ofBits (hes i hi)

theorem get_of_lt {length index : Nat} (hlen : a.length? stores = some length) (h : index < length) :
    a.get stores index = a.elementAt stores index := by
  simp [get_eq, hlen, Outcome.ofOption, h]

theorem get_of_le {length index : Nat} (hlen : a.length? stores = some length) (h : length ≤ index) :
    a.get stores index = .fault (.indexOutOfRange index length) := by
  simp [get_eq, hlen, Outcome.ofOption, Nat.not_lt.2 h]

theorem get_eq_ofBits {index : Nat} {v : Value} (h : a.get stores index = .found v) : ∃ bits, v = .ofBits bits := by
  have hb := a.get_holds stores index
  rw [h] at hb
  exact hb

end BitStore.StoredArray
