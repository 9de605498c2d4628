import BitStore.StoredArray

/-! What reads answer. The `width` bits at an address are readable if the storage
holds all of them; of no bits at all, an aligned address has as many as it is asked
for wherever it lies. Bytes added at the end change no answer. -/

namespace BitStore

namespace Storage

variable (s : Storage)

/-- The `width` bits at an address can be read. -/
def Readable (a : Address) (width : Nat) : Prop :=
  a.bits + width ≤ 8 * s.bytes.length ∨ width = 0 ∧ a.bitInByte = 0

/-- The `width` bits at an address, as far as the storage has them. -/
def bitsFrom (a : Address) (width : Nat) : Bits :=
  (s.toBits.drop a.bits).take width

theorem readable_iff (a : Address) (width : Nat) : s.Readable a width ↔
    a.bitInByte ≤ 8 * (s.bytes.length - a.byteIndex) ∧ width ≤ (s.toBits.drop a.bits).length := by
  rw [Readable, List.length_drop, length_toBits, Address.bitInByte, Address.byteIndex]
  omega

/-- Whatever is made of the bits read, it is made of those the storage has. -/
theorem read_eq_some_iff {α : Type} (f : Bits → α) {a : Address} {width : Nat} {r : α} :
    (((s.bitsAt a).map BitCursor.toBits).bind fun bits =>
      if width ≤ bits.length then some (f (bits.take width)) else none) = some r ↔
    s.Readable a width ∧ r = f (s.bitsFrom a width) := by
  rw [bitsAt_eq, readable_iff]
  by_cases ha : a.bitInByte ≤ 8 * (s.bytes.length - a.byteIndex)
  · rw [if_pos ha, Option.bind_some]
    by_cases hw : width ≤ (s.toBits.drop a.bits).length
    · rw [if_pos hw, Option.some_inj, eq_comm]
      exact ⟨fun h => ⟨⟨ha, hw⟩, h⟩, And.right⟩
    · rw [if_neg hw]
      exact ⟨nofun, fun h => absurd h.1.2 hw⟩
  · rw [if_neg ha]
    exact ⟨nofun, fun h => absurd h.1.1 ha⟩

theorem access_eq_some_iff {a : Address} {width : Nat} {v : Value} :
    s.access a width = some v ↔ s.Readable a width ∧ v = .ofBits (s.bitsFrom a width) := by
  rw [access_eq]
  exact s.read_eq_some_iff Value.ofBits

theorem countAt_eq_some_iff {a : Address} {n : Nat} :
    s.countAt a = some n ↔ s.Readable a AddressSpace.width ∧ n = Bits.toNat (s.bitsFrom a AddressSpace.width) := by
  rw [countAt_eq]
  exact s.read_eq_some_iff Bits.toNat

/-! ### Bytes added at the end -/

/-- The storage with further bytes at its end. -/
def append (tail : List UInt8) : Storage :=
  ⟨s.bytes ++ tail⟩

variable (tail : List UInt8)

theorem toBits_append : (s.append tail).toBits = s.toBits ++ Bits.ofBytes tail :=
  Bits.ofBytes_append s.bytes tail

theorem length_append : (s.append tail).bytes.length = s.bytes.length + tail.length :=
  List.length_append

variable {s}

theorem Readable.append {a : Address} {width : Nat} (h : s.Readable a width) : (s.append tail).Readable a width := by
  rw [Readable, length_append]
  rcases h with h | h
  · exact .inl (by omega)
  · exact .inr h

theorem Readable.bitsFrom_append {a : Address} {width : Nat} (h : s.Readable a width) :
    (s.append tail).bitsFrom a width = s.bitsFrom a width := by
  have hw := ((s.readable_iff a width).1 h).2
  rw [bitsFrom, bitsFrom, toBits_append, List.drop_append, List.take_append_of_le_length hw]

theorem access_append {a : Address} {width : Nat} {v : Value} (h : s.access a width = some v) :
    (s.append tail).access a width = some v := by
  rw [access_eq_some_iff] at h ⊢
  exact ⟨h.1.append tail, by rw [h.1.bitsFrom_append]; exact h.2⟩

theorem countAt_append {a : Address} {n : Nat} (h : s.countAt a = some n) : (s.append tail).countAt a = some n := by
  rw [countAt_eq_some_iff] at h ⊢
  exact ⟨h.1.append tail, by rw [h.1.bitsFrom_append]; exact h.2⟩

end Storage

end BitStore
