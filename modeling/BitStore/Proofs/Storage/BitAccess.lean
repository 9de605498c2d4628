import BitStore.Proofs.Bits.Bytes
import BitStore.Storage

/-! Bits at an address. A cursor at an address yields the bits of the storage from there to
its end, each byte from its most significant bit on. There is no cursor where the address
lies past the end and inside a byte. Past the end and on the border of a byte there is one,
and it is dry. -/

namespace BitStore

namespace Storage

/-- Bit `k` of a storage. -/
def bit (s : Storage) (k : Nat) : Bool :=
  (s.bytes.getD (k / 8) 0).toNat.testBit (7 - k % 8)

theorem drop_toBits (s : Storage) (k : Nat) :
    s.toBits.drop k = (List.range' k (8 * s.bytes.length - k)).map s.bit := by
  rw [toBits, Bits.ofBytes_eq_map, ← List.map_drop, List.range_eq_range', List.drop_range', Nat.zero_add,
    Nat.mul_one]
  rfl

/-- An address is out of reach exactly if it lies past the end and inside a byte. From any other
the storage is read bit by bit to its end. -/
theorem bitsAt_exact (s : Storage) (a : Address) :
    (s.bitsAt a = none ↔ 8 * s.bytes.length < a.bits ∧ a.bits % 8 ≠ 0) ∧
    ∀ c, s.bitsAt a = some c → BitSource.Yields c ((List.range' a.bits (8 * s.bytes.length - a.bits)).map s.bit) := by
  have h := s.bitsAt_eq a
  constructor
  · rw [← Option.map_eq_none_iff (f := BitCursor.toBits), h, ite_eq_right_iff, Address.bitInByte, Address.byteIndex]
    simp only [reduceCtorEq, imp_false]
    omega
  · intro c hc
    rw [hc, Option.map_some] at h
    split at h
    next =>
      rw [BitCursor.yields_iff, ← drop_toBits]
      exact Option.some.inj h
    next => cases h

/-- Past the end of two bytes, the address of the fourth byte is in reach though no bit is there. -/
theorem bitsAt_past_the_end :
    ¬ ∀ (s : Storage) (a : Address), s.bitsAt a = none ↔ 8 * s.bytes.length < a.bits := by
  intro h
  have hreached : Storage.bitsAt ⟨[0x12, 0x34]⟩ ⟨24, by decide⟩ = some ⟨[], []⟩ := by rfl
  have hnone := (h ⟨[0x12, 0x34]⟩ ⟨24, by decide⟩).2 (by decide)
  rw [hreached] at hnone
  cases hnone

end Storage

end BitStore
