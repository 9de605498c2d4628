import BitStore.Proofs.Eval.Filter
import BitStore.Proofs.Plan.RoundTrip

/-! Looking up a key in stored data. The getter `lookup` filters the dataset by equality
with the argument of its caller. From a dataset that a plan has written it finds the
records that equal the key, each as its bits, in order and as often as they were written. -/

namespace BitStore

/-- The elements of the dataset that equal the argument of the caller. -/
def Expr.lookup : Expr :=
  .filter (Expr.argument.nth 0) (.lambda (.equals .argument .bound) (Expr.argument.nth 1))

variable (store : Storage) {key : Value}

/-! ### Comparing with a key -/

namespace Deferred

/-- A predicate that compares with the value it has captured. -/
def equalTo (key : Value) : Deferred :=
  .closure (.equals .argument .bound) (.value key)

theorem verdict?_equalTo (hkey : key.containsClosure = false) {element : Value}
    (helement : element.containsClosure = false) : (equalTo key).verdict? store element = some (element == key) := by
  rw [verdict?_eq_some_iff]
  refine ⟨.value (.bit (element == key)), ?_, .bit (element == key), force_plain store rfl, rfl⟩
  rw [equalTo, apply_closure, Expr.eval_equals, Expr.eval_argument, Expr.eval_bound]
  simp [force_plain store helement, force_plain store hkey]

end Deferred

namespace Expr

theorem eval_lookup (a : StoredArray) :
    lookup.eval store (.tuple [.array a, .value key]) (.value .unit) = a.filter store (Deferred.equalTo key) := by
  rw [lookup, eval_filter, eval_dataset, eval_lambda, eval_caller_argument]
  rfl

/-- From a dataset that can be read in full, `lookup` finds the elements that equal the key. -/
theorem run_lookup (hkey : key.containsClosure = false) {layout : Layout} {es : List Value}
    (hes : layout.root.materialize store = .found (.tuple es)) :
    lookup.run store layout key = .found (.tuple (es.filter (· = key))) := by
  have hplain (e : Value) (he : e ∈ es) : e.containsClosure = false := by
    obtain ⟨bits, rfl⟩ := StoredArray.eq_ofBits_of_mem hes he
    exact Value.containsClosure_ofBits bits
  have hverdict (e : Value) (he : e ∈ es) : (Deferred.equalTo key).verdict? store e = some (e == key) :=
    Deferred.verdict?_equalTo store hkey (hplain e he)
  have hfilter : layout.root.filter store (Deferred.equalTo key) = .found (.value (.tuple (es.filter (· = key)))) := by
    have hsame : es.filter ((Deferred.equalTo key).Accepts store) = es.filter (· = key) :=
      List.filter_congr fun e he => by simp [Deferred.Accepts, hverdict e he]
    rw [← hsame]
    exact StoredArray.filter_of_materialize rfl hes fun e he =>
      Deferred.accepts_or_rejects_iff.2 ⟨_, hverdict e he⟩
  have hresult : (Value.tuple (es.filter (· = key))).containsClosure = false :=
    Value.containsClosure_tuple fun e he => hplain e (List.mem_filter.1 he).1
  rw [run_eq_answer, answer, eval_lookup, hfilter, Outcome.found_bind, Deferred.force_plain store hresult]

end Expr

/-! ### Looking up what was written -/

namespace Plan

variable {record : Schema} {width : Nat} {vs : List Value}

/-- Once records were written, looking up a key finds those whose bits equal it: one entry for
each, in order, and none where nothing equals the key. -/
theorem lookup_exact (h : record.layout = .ok (.bitset width)) (hvs : ∀ v ∈ vs, record.accepts v = true)
    (hcount : vs.length < AddressSpace.size) (hspace : AddressSpace.width + width * vs.length < AddressSpace.size)
    {getters : List Expr} {index : Nat} (hgetter : getters[index]? = some .lookup) (settings : Settings)
    (memory : Storage.Memory) (old : Storage) (hkey : key.containsClosure = false) :
    ∃ plan new found, compile (.array record) getters [] settings = .ok plan ∧
      (plan.write (.tuple vs) memory).run old = .ok () new ∧
      plan.get new index key = .found (.tuple found) ∧
      (∀ v ∈ vs, v.toBits = .ok v.row) ∧
      found = (vs.map Value.flat).filter (· = key) ∧
      found.length = vs.countP (fun v => v.flat = key) := by
  obtain ⟨plan, new, hplan, hgetters, hroot, hwrite, hholds⟩ :=
    write_array_holds memory old h getters settings hvs hcount hspace
  have hread : plan.layout.root.materialize new = .found (.tuple (vs.map Value.flat)) := by
    rw [hroot, hholds.materialize, List.map_map]
    rfl
  refine ⟨plan, new, _, hplan, hwrite, ?_, ?_, rfl, ?_⟩
  · rw [get, hgetters, hgetter]
    exact Expr.run_lookup new hkey hread
  · exact fun v hv => (Schema.Records.of_accepts h hvs v hv).2.toBits
  · rw [← List.countP_eq_length_filter, List.countP_map]
    rfl

/-- Of three records of two bits, written over stale bytes, the two that equal the key are found. -/
theorem lookup_exact_two_of_three :
    ∃ plan new, compile (.array (.tuple [.bit, .bit])) [.argument, .lookup] [] {} = .ok plan ∧
      (plan.write (.tuple [.unsigned 2 2, .unsigned 2 1, .unsigned 2 2])).run
        ⟨[255, 255, 255, 255, 255, 255, 255, 255, 255, 255]⟩ = .ok () new ∧
      plan.get new 1 (.unsigned 2 2) = .found (.tuple [.unsigned 2 2, .unsigned 2 2]) := by
  have hlayout : (Schema.tuple [.bit, .bit]).layout = .ok (.bitset 2) := by rfl
  have hfits : ∀ v ∈ [Value.unsigned 2 2, .unsigned 2 1, .unsigned 2 2],
      (Schema.tuple [.bit, .bit]).accepts v = true := by
    intro v hv
    simp only [List.mem_cons, List.not_mem_nil, or_false] at hv
    rcases hv with rfl | rfl | rfl <;> rfl
  have hgetter : [Expr.argument, .lookup][1]? = some .lookup := rfl
  obtain ⟨plan, new, found, hplan, hwrite, hget, _, rfl, _⟩ := lookup_exact hlayout hfits (by decide) (by decide)
    hgetter {} Storage.Memory.usual ⟨[255, 255, 255, 255, 255, 255, 255, 255, 255, 255]⟩
    (Value.containsClosure_ofBits (Bits.ofNat 2 2))
  exact ⟨plan, new, hplan, hwrite, hget⟩

end Plan

end BitStore
