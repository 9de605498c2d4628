import BitStore.Plan
import BitStore.Proofs.Layout.Emission
import BitStore.Proofs.Storage.Records

/-! Writing a value is all or nothing. Whether it can be encoded, and as which bits, has nothing to do
with the storage. If it can, the packed bits replace as many bytes at the start of the
storage, and what lies behind them stays. If it cannot, the storage stays as it was, however many
bits had been pushed before the fault came up. This goes for plain bits and for those of a plan. -/

namespace BitStore

namespace Storage

theorem overwrite_zero (old : Storage) (bytes : List UInt8) :
    old.overwrite 0 bytes = ⟨bytes ++ old.bytes.drop bytes.length⟩ := by
  rw [overwrite, List.take_zero, List.nil_append, Nat.zero_add]

/-- On every storage alike, encoded bits go to the start, with fewer than eight zeros to fill their
last byte, and the rest of the storage stays; or the change faults, and all of it stays. -/
def Change.Installs (change : Change Unit) : Except Fault Bits → Prop
  | .ok bits => ∃ bytes : List UInt8, (∃ n < 8, Bits.ofBytes bytes = bits ++ List.replicate n false) ∧
      ∀ old : Storage, change.run old = .ok () ⟨bytes ++ old.bytes.drop bytes.length⟩
  | .error e => ∀ old : Storage, change.run old = .error e old

variable (memory : Memory)

theorem installs_packed (bits : Bits) : (writeAt .zero bits.toBytes memory).Installs (.ok bits) := by
  refine ⟨bits.toBytes, ⟨(8 - bits.length % 8) % 8, Nat.mod_lt _ (by decide), Bits.ofBytes_toBytes bits⟩, fun old => ?_⟩
  rw [writeAt_zero, overwrite_zero]

theorem installs_throw (e : Fault) : (throw e : Change Unit).Installs (.error e) :=
  fun _ => rfl

theorem writeValue_installs (v : Value) : (writeValue v memory).Installs (v.toBits.mapError .value) := by
  rw [writeValue, Value.toBytes_eq]
  cases v.toBits with
  | ok bits => exact installs_packed memory bits
  | error e => exact installs_throw (.value e)

end Storage

namespace Plan

variable (memory : Storage.Memory)

theorem write_installs (plan : Plan) (v : Value) : (plan.write v memory).Installs (plan.layout.encodeRoot v) := by
  rw [write]
  cases plan.layout.encodeRoot v with
  | ok bits => exact Storage.installs_packed memory bits
  | error e => exact Storage.installs_throw e

/-- Plain bits and those of a plan are pushed into a packer one by one. If this comes to its end, they
replace the start of the storage, and if it faults after any number of them, nothing changes. How much
memory there is makes no difference. -/
theorem writes_all_or_nothing (v : Value) :
    (Emits (σ := BitPacker) (v.serialize.adaptExcept .value) (v.toBits.mapError .value) ∧
      (Storage.writeValue v memory).Installs (v.toBits.mapError .value)) ∧
    ∀ plan : Plan, Emits (σ := BitPacker) (plan.layout.emitRoot v) (plan.layout.encodeRoot v) ∧
      (plan.write v memory).Installs (plan.layout.encodeRoot v) :=
  ⟨⟨v.serialize_emits, Storage.writeValue_installs memory v⟩,
    fun plan => ⟨plan.layout.emitRoot_emits v, write_installs memory plan v⟩⟩

/-- The second of two numbers is too wide. The first has been pushed by then, but not written. -/
example : ((Plan.mk (.array (.bitset 8)) []).write (.tuple [.unsigned 8 9, .unsigned 16 1])).run ⟨[1, 2, 3]⟩ =
    .error (.layoutMismatch (.bitset 8) (.unsigned 16 1)) ⟨[1, 2, 3]⟩ := by rfl

end Plan

end BitStore
