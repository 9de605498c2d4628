import BitStore.Proofs.Storage.BitAccess
import BitStore.Proofs.Storage.Elements
import BitStore.Proofs.Storage.Reading

/-! Elements by place. Where an element starts is one sum over its array's start, the element
width and the index. The element has an address exactly if that sum is one, and the sum may
be worked out in any order, since no part of it is larger than the whole. In a storage whose
bits all have addresses, an element of one bit or more can be read exactly if its last bit
is stored, and then it is the bits from its place on. Everything else is missing. -/

namespace BitStore

namespace Address

variable (start : Address) (width : Nat)

/-- The number of the bit where element `index` starts, whether or not it has an address. -/
def elementStart (index : Nat) : Nat :=
  start.bits + AddressSpace.width + width * index

theorem elementStart_succ (index : Nat) : start.elementStart width (index + 1) = start.elementStart width index + width := by
  rw [elementStart, elementStart, Nat.mul_succ, ← Nat.add_assoc]

theorem elementStart_mono {i j : Nat} (h : i ≤ j) : start.elementStart width i ≤ start.elementStart width j :=
  Nat.add_le_add_left (Nat.mul_le_mul_left width h) _

variable {start width} {index : Nat}

theorem exists_element_iff :
    (∃ a, start.element width index = .ok a) ↔ start.elementStart width index < AddressSpace.size := by
  constructor
  · rintro ⟨a, h⟩
    have hbits : a.bits = start.elementStart width index := element_eq_ok_iff.1 h
    exact hbits ▸ a.bits_lt
  · exact fun h => ⟨⟨start.elementStart width index, h⟩, element_eq_ok_iff.2 rfl⟩

end Address

namespace Storage

variable (s : Storage)

/-- The bits with the numbers from `start` up to `start + width`. -/
def bitsBetween (start width : Nat) : Bits :=
  (List.range' start width).map s.bit

theorem take_drop_toBits {start width : Nat} (h : start + width ≤ 8 * s.bytes.length) :
    (s.toBits.drop start).take width = s.bitsBetween start width := by
  have hsplit : List.range' start (8 * s.bytes.length - start) =
      List.range' start width ++ List.range' (start + width) (8 * s.bytes.length - start - width) := by
    rw [List.range'_append_1]
    congr 1
    omega
  have hlen : (s.bitsBetween start width).length = width := by simp [bitsBetween]
  rw [drop_toBits, hsplit, List.map_append]
  exact List.take_left' hlen

theorem readable_iff_of_pos {a : Address} {width : Nat} (hw : 0 < width) :
    s.Readable a width ↔ a.bits + width ≤ 8 * s.bytes.length :=
  or_iff_left fun h => Nat.ne_of_gt hw h.1

end Storage

namespace StoredArray

variable {start : StoragePointer} {width index : Nat} {stores : Storages}

theorem elementAt_bitset_ne_fault (e : Fault) : (mk start (.bitset width)).elementAt stores index ≠ .fault e := by
  rw [elementAt]
  dsimp only
  cases start.element width index with
  | error _ => rintro ⟨⟩
  | ok a => cases h : (stores start.storage).access a width <;> simp [Outcome.ofOption, h]

/-- An element is found where it has an address and its bits can be read there. -/
theorem elementAt_bitset_eq_found_iff {x : Value} :
    (mk start (.bitset width)).elementAt stores index = .found x ↔
      ∃ a : Address, a.bits = start.elementStart width index ∧ (stores start.storage).Readable a width ∧
        x = .ofBits ((stores start.storage).bitsFrom a width) := by
  rw [elementAt]
  dsimp only
  cases h : start.element width index with
  | ok a =>
    have ha : a.bits = start.elementStart width index := Address.element_eq_ok_iff.1 h
    dsimp only
    rw [Outcome.ofOption_eq_found_iff, Storage.access_eq_some_iff]
    constructor
    · exact fun hx => ⟨a, ha, hx⟩
    · rintro ⟨b, hb, hx⟩
      obtain rfl : a = b := Except.ok.inj (h.symm.trans (Address.element_eq_ok_iff.2 hb))
      exact hx
  | error e =>
    constructor
    · rintro ⟨⟩
    · rintro ⟨a, ha, _⟩
      rw [Address.element_eq_ok_iff.2 ha] at h
      cases h

/-- An element of one bit or more is there exactly if its last bit is stored. -/
theorem elementAt_eq_found_iff (hs : 8 * (stores start.storage).bytes.length < AddressSpace.size) (hw : 0 < width)
    {x : Value} :
    (mk start (.bitset width)).elementAt stores index = .found x ↔
      start.elementStart width index + width ≤ 8 * (stores start.storage).bytes.length ∧
        x = .ofBits ((stores start.storage).bitsBetween (start.elementStart width index) width) := by
  rw [elementAt_bitset_eq_found_iff]
  constructor
  · rintro ⟨a, ha, hread, rfl⟩
    rw [Storage.readable_iff_of_pos _ hw] at hread
    rw [← ha, Storage.bitsFrom, Storage.take_drop_toBits _ hread]
    exact ⟨hread, rfl⟩
  · rintro ⟨hend, rfl⟩
    refine ⟨⟨start.elementStart width index, by omega⟩, rfl, (Storage.readable_iff_of_pos _ hw).2 hend, ?_⟩
    rw [Storage.bitsFrom, Storage.take_drop_toBits _ hend]

/-- The address of an element is the sum over start, width and index, and there is one exactly if
that sum lies in the address space. If the bits of the array's storage all have addresses, an element of
one bit or more is found exactly if the storage reaches to its end, and consists of just the
bits at its place; otherwise it is missing, for whatever reason. -/
theorem elementAt_exact (start : StoragePointer) (width index : Nat) :
    ((∃ a, start.element width index = .ok a) ↔ start.elementStart width index < AddressSpace.size) ∧
    (∀ a, start.element width index = .ok a → a.bits = start.elementStart width index) ∧
    ∀ stores : Storages, 8 * (stores start.storage).bytes.length < AddressSpace.size → 0 < width →
      (∀ x, (mk start (.bitset width)).elementAt stores index = .found x ↔
        start.elementStart width index + width ≤ 8 * (stores start.storage).bytes.length ∧
          x = .ofBits ((stores start.storage).bitsBetween (start.elementStart width index) width)) ∧
      ((mk start (.bitset width)).elementAt stores index = .missing ↔
        8 * (stores start.storage).bytes.length < start.elementStart width index + width) := by
  refine ⟨Address.exists_element_iff, fun a => Address.element_eq_ok_iff.1, fun stores hs hw => ?_⟩
  have hfound (x : Value) : (mk start (.bitset width)).elementAt stores index = .found x ↔ _ := elementAt_eq_found_iff hs hw
  refine ⟨hfound, ?_⟩
  cases h : (mk start (.bitset width)).elementAt stores index with
  | found x =>
    have hend := ((hfound x).1 h).1
    exact iff_of_false nofun (by omega)
  | missing =>
    refine iff_of_true rfl (Nat.lt_of_not_le fun hend => ?_)
    have hx := (hfound _).2 ⟨hend, rfl⟩
    rw [h] at hx
    cases hx
  | fault e => exact absurd h (elementAt_bitset_ne_fault e)

/-- In the second of two storages, elements of six bits start three bits into a byte. The first goes over a border
between bytes, the second ends before the last bit stored, and the third is not there in full. -/
theorem elementAt_exact_three_bits_in :
    ∃ stores : Storages, stores = (fun n => if n = 0 then ⟨[]⟩ else ⟨[0, 0, 0, 0, 0, 0, 0, 0, 0x16, 0xb3]⟩) ∧
    ∃ a : StoredArray, a = ⟨⟨⟨3, by decide⟩, 1⟩, .bitset 6⟩ ∧
      a.elementAt stores 0 = .found (.ofBits [true, false, true, true, false, true]) ∧
      a.elementAt stores 1 = .found (.ofBits [false, true, true, false, false, true]) ∧
      a.elementAt stores 2 = .missing ∧
      a.elementAt stores (AddressSpace.size - 1) = .missing := by
  have h (index : Nat) := (elementAt_exact ⟨⟨3, by decide⟩, 1⟩ 6 index).2.2
    (fun n => if n = 0 then ⟨[]⟩ else ⟨[0, 0, 0, 0, 0, 0, 0, 0, 0x16, 0xb3]⟩) (by decide) (by decide)
  exact ⟨_, rfl, _, rfl, ((h 0).1 _).2 ⟨by decide, by rfl⟩, ((h 1).1 _).2 ⟨by decide, by rfl⟩,
    (h 2).2.2 (by decide), (h _).2.2 (by decide)⟩

end StoredArray

end BitStore
