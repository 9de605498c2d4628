import BitStore.Value.Codec

/-! What serialization writes. The bits of a value go to the sink from left to right until a
closure comes up, where serialization fails; what stood before the closure has been written
by then. So a value without closures has the same bits wherever it is written, and its
bytes are these bits packed. -/

namespace BitStore.Value

mutual

/-- The bits of a value in order, up to the first closure in it. -/
def leaves : Value → Bits
  | .unit => []
  | .bit b => [b]
  | .tuple elements => leavesAll elements
  | .variant content => leaves content
  | .closure _ _ => []

def leavesAll : List Value → Bits
  | [] => []
  | v :: vs => if v.containsClosure then leaves v else leaves v ++ leavesAll vs

end

/-! ### Any sink -/

section Serialize

variable {σ : Type} [BitSink σ]

mutual

theorem serialize_run : ∀ (v : Value) (sink : σ), v.serialize.run sink =
    if v.containsClosure then .error .unserializable (v.leaves.foldl BitSink.push sink)
    else .ok () (v.leaves.foldl BitSink.push sink)
  | .unit, _ | .bit _, _ | .closure _ _, _ => rfl
  | .tuple vs, sink => by
    rw [serialize, containsClosure, leaves]
    exact serializeAll_run vs sink
  | .variant v, sink => by
    rw [serialize, containsClosure, leaves]
    exact serialize_run v sink

theorem serializeAll_run : ∀ (vs : List Value) (sink : σ), (serializeAll vs).run sink =
    if anyContainsClosure vs then .error .unserializable ((leavesAll vs).foldl BitSink.push sink)
    else .ok () ((leavesAll vs).foldl BitSink.push sink)
  | [], _ => rfl
  | v :: vs, sink => by
    rw [serializeAll, EStateM.run_bind, serialize_run v sink, anyContainsClosure, leavesAll]
    cases v.containsClosure with
    | true => rfl
    | false => simpa using serializeAll_run vs (v.leaves.foldl BitSink.push sink)

end

end Serialize

/-! ### Bits and bytes -/

theorem toBits_eq (v : Value) : v.toBits = if v.containsClosure then .error .unserializable else .ok v.leaves := by
  rw [toBits, serializeInto, serialize_run]
  cases v.containsClosure with
  | true => rfl
  | false => exact congrArg Except.ok (by simp [BitSink.push, List.foldl_push_eq_append'])

theorem toBits_eq_ok_iff {v : Value} {bits : Bits} :
    v.toBits = .ok bits ↔ v.containsClosure = false ∧ v.leaves = bits := by
  rw [toBits_eq]
  cases v.containsClosure <;> simp

theorem toBytes_eq (v : Value) : v.toBytes = v.toBits.map Bits.toBytes := by
  rw [toBytes, serializeInto, serialize_run, toBits_eq]
  cases v.containsClosure <;> rfl

end BitStore.Value
