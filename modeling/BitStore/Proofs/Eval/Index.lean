import BitStore.Proofs.Eval.Equations

/-! Reading deferred values as indices. An index is a tuple of at most 64 bits,
plain or under construction; everything else is refused. A fixed index below
`2 ^ 64` reads back as itself, so that `nth` picks the element it names. -/

namespace BitStore

namespace Deferred

/-- Bits as a tuple under construction. -/
def digits (bits : Bits) : List Deferred :=
  bits.map fun b => .value (.bit b)

theorem toIndex_cases (d : Deferred) : (∃ n, d.toIndex = .ok n) ∨ d.toIndex = .error (.invalidIndex d) := by
  unfold toIndex
  split
  all_goals
    dsimp only
    split
    · exact .inl ⟨_, rfl⟩
    · exact .inr rfl

theorem toIndex_value_eq_ok_iff {vs : List Value} {n : Nat} :
    (value (.tuple vs)).toIndex = .ok n ↔ Value.numberOf AddressSpace.width vs = .ok n := by
  rw [toIndex]
  dsimp only [Option.map_some]
  cases Value.numberOf AddressSpace.width vs <;> simp

theorem values?_eq_some_iff {ds : List Deferred} {vs : List Value} : values? ds = some vs ↔ ds = vs.map .value := by
  induction ds generalizing vs with
  | nil => cases vs <;> simp [values?]
  | cons d ds ih =>
    cases d <;> cases vs <;> simp [values?, ih]
    grind

theorem toIndex_tuple_eq_ok_iff {ds : List Deferred} {n : Nat} :
    (tuple ds).toIndex = .ok n ↔
      ∃ bits : Bits, ds = digits bits ∧ bits.length ≤ AddressSpace.width ∧ bits.toNat = n := by
  have hmap (bits : Bits) : digits bits = (bits.map Value.bit).map .value := by
    rw [digits, List.map_map]
    rfl
  constructor
  · intro h
    rw [toIndex] at h
    cases hv : values? ds with
    | none => simp [hv] at h
    | some vs =>
      cases hn : Value.numberOf AddressSpace.width vs with
      | error e => simp [hv, hn] at h
      | ok m =>
        obtain ⟨hlen, bits, rfl, rfl⟩ := Value.numberOf_eq_ok_iff.1 hn
        refine ⟨bits, ?_, by simpa using hlen, by simpa [hv, hn] using h⟩
        rw [hmap]
        exact values?_eq_some_iff.1 hv
  · rintro ⟨bits, rfl, hlen, rfl⟩
    have hv : values? (digits bits) = some (bits.map .bit) := values?_eq_some_iff.2 (hmap bits)
    have hn : Value.numberOf AddressSpace.width (bits.map .bit) = .ok bits.toNat :=
      Value.numberOf_eq_ok_iff.2 ⟨by simpa using hlen, bits, rfl, rfl⟩
    simp [toIndex, hv, hn]

/-- A number that an address has room for is the index it is written for. -/
theorem toIndex_unsigned {n : Nat} (h : n < AddressSpace.size) :
    (value (.unsigned AddressSpace.width n)).toIndex = .ok n := by
  rw [Value.unsigned, Value.ofBits, toIndex_value_eq_ok_iff, Value.numberOf_eq_ok_iff]
  refine ⟨by simp, Bits.ofNat AddressSpace.width n, rfl, ?_⟩
  rw [Bits.toNat_ofNat]
  exact Nat.mod_eq_of_lt h

end Deferred

theorem Expr.eval_nth {index : Nat} (h : index < AddressSpace.size) (subject : Expr) (stores : Storages)
    (argument bound : Deferred) :
    (subject.nth index).eval stores argument bound =
      subject.eval stores argument bound >>= fun d => d.item stores index := by
  rw [nth, eval_item]
  simp [Deferred.toIndex_unsigned h, Outcome.ofExcept]

end BitStore
