import BitStore.Proofs.Bits.Bytes
import BitStore.Proofs.Getter.ClosureFree

/-! How far serialization gets. Tuples and variants leave nothing of themselves in the bits of a value.
Without them its atoms stand in a row: bits, and closures, with nothing of what these captured. The
leaves are the bits in front of the first closure, and it is these that serialization
adds to what a sink holds, whatever the sink. If there is no closure, that was all.
Otherwise serialization fails there, and the value has neither bits nor bytes. -/

namespace BitStore

/-! ### What a sink holds -/

section View

variable {σ : Type} [BitSink σ] {view : σ → Bits}

/-- The view shows the bits that a sink holds, and every push adds its bit behind them. -/
def BitSink.IsView (view : σ → Bits) : Prop :=
  ∀ sink b, view (BitSink.push sink b) = view sink ++ [b]

theorem BitSink.IsView.foldl_push (h : IsView view) (bits : Bits) (sink : σ) :
    view (bits.foldl BitSink.push sink) = view sink ++ bits := by
  induction bits generalizing sink with
  | nil => simp
  | cons b bits ih => simp [ih, h sink b]

theorem BitPacker.isView_toBits : BitSink.IsView BitPacker.toBits :=
  BitPacker.toBits_push

/-- The leaves are added to what the sink holds, whether serialization fails behind them or not. -/
theorem Value.exists_serialize_run (h : BitSink.IsView view) (v : Value) (sink : σ) :
    ∃ after, view after = view sink ++ v.leaves ∧
      v.serialize.run sink = if v.containsClosure then .error .unserializable after else .ok () after :=
  ⟨v.leaves.foldl BitSink.push sink, h.foldl_push v.leaves sink, v.serialize_run sink⟩

end View

namespace Value

/-! ### Atoms -/

mutual

/-- The bits and the closures of a value, from left to right. -/
def atoms : Value → List Value
  | .unit => []
  | .bit b => [.bit b]
  | .tuple elements => atomsAll elements
  | .variant content => atoms content
  | .closure body bound => [.closure body bound]

def atomsAll : List Value → List Value
  | [] => []
  | v :: vs => atoms v ++ atomsAll vs

end

mutual

theorem atoms_eq : ∀ v : Value, v.containsClosure = false → v.atoms = v.leaves.map .bit
  | .unit, _ | .bit _, _ => rfl
  | .tuple vs, h => atomsAll_eq vs h
  | .variant v, h => atoms_eq v h

theorem atomsAll_eq : ∀ vs : List Value, anyContainsClosure vs = false → atomsAll vs = (leavesAll vs).map .bit
  | [], _ => rfl
  | v :: vs, h => by
    rw [anyContainsClosure, Bool.or_eq_false_iff] at h
    simp [atomsAll, leavesAll, h.1, atoms_eq v h.1, atomsAll_eq vs h.2]

end

mutual

/-- The first closure comes right behind the leaves. -/
theorem exists_atoms_eq : ∀ v : Value, v.containsClosure = true →
    ∃ body bound rest, v.atoms = v.leaves.map .bit ++ .closure body bound :: rest
  | .tuple vs, h => exists_atomsAll_eq vs h
  | .variant v, h => exists_atoms_eq v h
  | .closure body bound, _ => ⟨body, bound, [], rfl⟩

theorem exists_atomsAll_eq : ∀ vs : List Value, anyContainsClosure vs = true →
    ∃ body bound rest, atomsAll vs = (leavesAll vs).map .bit ++ .closure body bound :: rest
  | v :: vs, h => by
    cases hv : v.containsClosure with
    | true =>
      obtain ⟨body, bound, rest, hrest⟩ := exists_atoms_eq v hv
      exact ⟨body, bound, rest ++ atomsAll vs, by simp [atomsAll, leavesAll, hv, hrest]⟩
    | false =>
      have hvs : anyContainsClosure vs = true := by simpa [anyContainsClosure, hv] using h
      obtain ⟨body, bound, rest, hrest⟩ := exists_atomsAll_eq vs hvs
      exact ⟨body, bound, rest, by simp [atomsAll, leavesAll, hv, atoms_eq v hv, hrest]⟩

end

/-! ### Bits and bytes along with it -/

/-- Serialization fails exactly if there is a closure anywhere in the value, and adds the leaves to what
the sink holds. They are all bits of the value in their order, or, if it fails, those in front of the
first closure. Along with this the value has bits and bytes or has none, and the bytes are the bits with
zeros to fill the last byte. -/
theorem serialize_until_closure (v : Value) :
    (v.containsClosure = false ↔ (Deferred.value v).ClosureFree) ∧
    (∀ {σ : Type} [BitSink σ] {view : σ → Bits}, BitSink.IsView view → ∀ sink : σ, ∃ after,
      view after = view sink ++ v.leaves ∧
        v.serialize.run sink = if v.containsClosure then .error .unserializable after else .ok () after) ∧
    (v.containsClosure = false → v.atoms = v.leaves.map .bit ∧ v.toBits = .ok v.leaves ∧
      ∃ bytes, v.toBytes = .ok bytes ∧ bytes.length = (v.leaves.length + 7) / 8 ∧
        Bits.ofBytes bytes = v.leaves ++ List.replicate ((8 - v.leaves.length % 8) % 8) false) ∧
    (v.containsClosure = true → (∃ body bound rest, v.atoms = v.leaves.map .bit ++ .closure body bound :: rest) ∧
      v.toBits = .error .unserializable ∧ v.toBytes = .error .unserializable) := by
  refine ⟨Deferred.closureFree_value_iff.symm, fun h sink => exists_serialize_run h v sink, fun hv => ?_, fun hv => ?_⟩
  · have hbits : v.toBits = .ok v.leaves := toBits_eq_ok_iff.2 ⟨hv, rfl⟩
    have hbytes : v.toBytes = .ok v.leaves.toBytes := by
      rw [toBytes_eq, hbits]
      rfl
    exact ⟨atoms_eq v hv, hbits, _, hbytes, Bits.length_toBytes v.leaves, Bits.ofBytes_toBytes v.leaves⟩
  · have hbits : v.toBits = .error .unserializable := by simp [toBits_eq, hv]
    have hbytes : v.toBytes = .error .unserializable := by
      rw [toBytes_eq, hbits]
      rfl
    exact ⟨exists_atoms_eq v hv, hbits, hbytes⟩

/-- A packer that holds a bit gets two more from in front of a closure, and neither the bit that the closure has
captured nor the one behind it. -/
theorem serialize_until_closure_in_variant :
    ∃ after : BitPacker, after.toBits = [false, true, false] ∧
      (tuple [.bit true, .variant (.tuple [.bit false, .closure .argument (.bit true)]), .bit true]).serialize.run
        ((BitPacker.onto #[]).push false) = .error .unserializable after := by
  obtain ⟨_, hserialize, _, _⟩ := serialize_until_closure
    (tuple [.bit true, .variant (.tuple [.bit false, .closure .argument (.bit true)]), .bit true])
  exact hserialize BitPacker.isView_toBits ((BitPacker.onto #[]).push false)

end Value

end BitStore
