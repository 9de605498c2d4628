import BitStore.Proofs.Eval.Equations
import BitStore.Proofs.Storage.Elements

/-! Filtering in storage is filtering a list. A predicate accepts an element, rejects it,
or does neither. The scan of a stored array comes to an end exactly if every element can
be read and is accepted or rejected, and then it has kept the accepted ones in order. So
an array that lacks an element has no filtered part either. -/

namespace BitStore

namespace Bounded

variable {α β : Type}

theorem bind_eq_found_iff {x : Bounded α} {f : α → Bounded β} {b : β} :
    (x >>= f) = some (.found b) ↔ ∃ a, x = some (.found a) ∧ f a = some (.found b) := by
  match x with
  | some (.found a) =>
    constructor
    · exact fun h => ⟨a, rfl, h⟩
    · rintro ⟨_, ⟨⟩, h⟩
      exact h
  | some .missing | some (.fault _) | none => exact ⟨nofun, nofun⟩

theorem lift_eq_some_iff {x o : Outcome α} : (liftM x : Bounded α) = some o ↔ x = o :=
  Option.some_inj

theorem pure_eq_found_iff {a b : α} : (pure a : Bounded α) = some (.found b) ↔ a = b :=
  Option.some_inj.trans (Outcome.found.injEq a b).to_iff

end Bounded

variable (stores : Storages)

/-! ### Verdicts -/

namespace Deferred

variable (predicate : Deferred)

/-- What the predicate yields for an element, if that can be forced and is a boolean. -/
def verdict? (element : Value) : Option Bool :=
  match predicate.apply stores (.value element) >>= force stores with
  | .found v => v.asBool
  | _ => none

def Accepts (element : Value) : Prop :=
  predicate.verdict? stores element = some true

def Rejects (element : Value) : Prop :=
  predicate.verdict? stores element = some false

instance : DecidablePred (Accepts stores predicate) :=
  fun _ => inferInstanceAs (Decidable (_ = _))

variable {stores predicate}

theorem verdict?_eq_some_iff {element : Value} {b : Bool} :
    predicate.verdict? stores element = some b ↔
      ∃ d, predicate.apply stores (.value element) = .found d ∧
        ∃ v, d.force stores = .found v ∧ v.asBool = some b := by
  rw [verdict?]
  cases predicate.apply stores (.value element) with
  | found d => cases hd : d.force stores <;> simp [hd]
  | missing | fault e => simp

theorem accepts_or_rejects_iff {element : Value} :
    predicate.Accepts stores element ∨ predicate.Rejects stores element ↔
      ∃ b, predicate.verdict? stores element = some b := by
  rw [Accepts, Rejects, Bool.exists_bool, or_comm]

/-- A step of a scan comes to a boolean exactly if the element is accepted or rejected. -/
theorem holdsOf_invoke_eq_found_iff {element : Value} {b : Bool} :
    (Reader.of stores).holdsOf (invoke stores) predicate element = some (.found b) ↔
      predicate.verdict? stores element = some b := by
  rw [verdict?_eq_some_iff, Reader.holdsOf, Bounded.bind_eq_found_iff]
  refine exists_congr fun d => and_congr Option.some_inj ?_
  rw [Bounded.bind_eq_found_iff, Reader.of_force]
  refine exists_congr fun v => and_congr Bounded.lift_eq_some_iff ?_
  cases v.asBool with
  | some c => exact Bounded.pure_eq_found_iff.trans Option.some_inj.symm
  | none => exact iff_of_false (by rintro ⟨⟩) (by rintro ⟨⟩)

end Deferred

/-! ### Scans -/

namespace StoredArray

variable {stores} {a : StoredArray} {predicate : Deferred}

/-- The scan keeps what a list filter keeps of the elements it reads. -/
theorem filterAfter_eq_found_iff {kept : Array Value} {index count : Nat} {vs : List Value} :
    (Reader.of stores).filterAfter (Deferred.invoke stores) a predicate kept index count = some (.found vs) ↔
      ∃ es, a.elementsAfter stores #[] index count = .found es ∧
        (∀ e ∈ es, predicate.Accepts stores e ∨ predicate.Rejects stores e) ∧
        vs = kept.toList ++ es.filter (predicate.Accepts stores) := by
  induction count generalizing kept index with
  | zero =>
    rw [Reader.filterAfter, Bounded.pure_eq_found_iff]
    constructor
    · rintro rfl
      exact ⟨[], rfl, by simp, by simp⟩
    · rintro ⟨es, ⟨⟩, _, rfl⟩
      simp
  | succ count ih =>
    -- The scan and the list filter agree on one element, whichever way the verdict goes.
    have hstep (e : Value) (holds : Bool) (h : predicate.verdict? stores e = some holds) (es : List Value) :
        (if holds then kept.push e else kept).toList ++ es.filter (predicate.Accepts stores) =
          kept.toList ++ (e :: es).filter (predicate.Accepts stores) := by
      cases holds with
      | true => simp [Deferred.Accepts, h]
      | false => simp [Deferred.Accepts, h]
    rw [Reader.filterAfter, Bounded.bind_eq_found_iff]
    constructor
    · rintro ⟨e, he, h⟩
      obtain ⟨holds, hverdict, h⟩ := Bounded.bind_eq_found_iff.1 h
      obtain ⟨es, hes, hdecided, rfl⟩ := ih.1 h
      rw [Deferred.holdsOf_invoke_eq_found_iff] at hverdict
      refine ⟨e :: es, ?_, ?_, hstep e holds hverdict es⟩
      · exact elementsAfter_succ_eq_found_iff.2 ⟨e, es, rfl, Bounded.lift_eq_some_iff.1 he, hes⟩
      · exact List.forall_mem_cons.2 ⟨Deferred.accepts_or_rejects_iff.2 ⟨holds, hverdict⟩, hdecided⟩
    · rintro ⟨es, hread, hdecided, rfl⟩
      obtain ⟨e, es, rfl, he, hes⟩ := elementsAfter_succ_eq_found_iff.1 hread
      obtain ⟨hfirst, hrest⟩ := List.forall_mem_cons.1 hdecided
      obtain ⟨holds, hverdict⟩ := Deferred.accepts_or_rejects_iff.1 hfirst
      refine ⟨e, Bounded.lift_eq_some_iff.2 he, Bounded.bind_eq_found_iff.2 ⟨holds, ?_, ?_⟩⟩
      · exact Deferred.holdsOf_invoke_eq_found_iff.2 hverdict
      · exact ih.2 ⟨es, hes, hrest, (hstep e holds hverdict es).symm⟩

/-- A filter finds what its scan keeps. -/
theorem filter_eq_found_iff_filterAfter {x : Deferred} :
    a.filter stores predicate = .found x ↔ predicate.isClosure = true ∧ ∃ length, a.length? stores = some length ∧
      ∃ vs, (Reader.of stores).filterAfter (Deferred.invoke stores) a predicate #[] 0 length = some (.found vs) ∧
        Deferred.value (.tuple vs) = x := by
  have hunlimited : a.filter stores predicate = .found x ↔
      (Reader.of stores).filterWith (Deferred.invoke stores) a predicate = some (.found x) := by
    rw [filterWith_invoke]
    exact Option.some_inj.symm
  rw [hunlimited, Reader.filterWith]
  by_cases hp : predicate.isClosure = true
  · rw [if_pos hp, Bounded.bind_eq_found_iff]
    refine (exists_congr fun length => and_congr ?_ ?_).trans (and_iff_right hp).symm
    · exact Bounded.lift_eq_some_iff.trans Outcome.ofOption_eq_found_iff
    · exact Bounded.bind_eq_found_iff.trans (exists_congr fun vs => and_congr_right fun _ => Bounded.pure_eq_found_iff)
  · rw [if_neg hp]
    exact ⟨nofun, fun h => absurd h.1 hp⟩

theorem materialize_of_filter {x : Deferred} (h : a.filter stores predicate = .found x) :
    ∃ es, a.materialize stores = .found (.tuple es) ∧
      (∀ e ∈ es, predicate.Accepts stores e ∨ predicate.Rejects stores e) ∧
      x = .value (.tuple (es.filter (predicate.Accepts stores))) := by
  obtain ⟨_, length, hlen, vs, hscan, rfl⟩ := filter_eq_found_iff_filterAfter.1 h
  obtain ⟨es, hes, hdecided, rfl⟩ := filterAfter_eq_found_iff.1 hscan
  refine ⟨es, ?_, hdecided, rfl⟩
  rw [materialize_eq, hlen, Outcome.ofOption, Outcome.found_bind, hes]
  rfl

theorem filter_of_materialize (hp : predicate.isClosure = true) {es : List Value}
    (hes : a.materialize stores = .found (.tuple es))
    (hdecided : ∀ e ∈ es, predicate.Accepts stores e ∨ predicate.Rejects stores e) :
    a.filter stores predicate = .found (.value (.tuple (es.filter (predicate.Accepts stores)))) := by
  obtain ⟨length, hlen, hread⟩ := Outcome.bind_eq_found_iff.1 hes
  obtain ⟨vs, hvs, htuple⟩ := Outcome.bind_eq_found_iff.1 hread
  obtain rfl : vs = es := by simpa using htuple
  refine filter_eq_found_iff_filterAfter.2 ⟨hp, length, Outcome.ofOption_eq_found_iff.1 hlen, _, ?_, rfl⟩
  exact filterAfter_eq_found_iff.2 ⟨vs, hvs, hdecided, rfl⟩

/-- A filter over a stored array finds something exactly if its predicate is a closure, the array
can be read in full, and every element of it is accepted or rejected. It finds the tuple of
the accepted elements, in their order and as often as they occur. -/
theorem filter_eq_found_iff {x : Deferred} :
    a.filter stores predicate = .found x ↔ predicate.isClosure = true ∧
      ∃ es, a.materialize stores = .found (.tuple es) ∧
        (∀ e ∈ es, predicate.Accepts stores e ∨ predicate.Rejects stores e) ∧
        x = .value (.tuple (es.filter (predicate.Accepts stores))) := by
  constructor
  · intro h
    exact ⟨(filter_eq_found_iff_filterAfter.1 h).1, materialize_of_filter h⟩
  · rintro ⟨hp, es, hes, hdecided, rfl⟩
    exact filter_of_materialize hp hes hdecided

example : (mk .zero (.bitset 8)).filter (fun _ => ⟨[0, 0, 0, 0, 0, 0, 0, 3, 2, 1, 2]⟩)
    (.closure (.equals .argument .bound) (.value (.ofBits (Bits.ofNat 8 2)))) =
      .found (.value (.tuple [.ofBits (Bits.ofNat 8 2), .ofBits (Bits.ofNat 8 2)])) := by rfl

end StoredArray

end BitStore
