import BitStore.Layout.Encode
import BitStore.Proofs.Storage.Elements
import BitStore.Proofs.Storage.Reading

/-! Storages that hold records: their count, then the rows of bits that they are, all
of one width, end to end. Rows start wherever the width puts them, on the border of a
byte or not, and whatever comes after the last one is no part of any. Writing the
count and the rows over the start of a storage makes it hold them. -/

namespace BitStore

namespace Bits

variable {rows : List Bits} {width : Nat}

theorem length_flatten (h : ∀ row ∈ rows, row.length = width) : rows.flatten.length = width * rows.length := by
  induction rows with
  | nil => rfl
  | cons row rows ih =>
    rw [List.flatten_cons, List.length_append, h row List.mem_cons_self, List.length_cons, Nat.mul_succ, Nat.add_comm]
    rw [ih fun r hr => h r (List.mem_cons_of_mem row hr)]

/-- Behind the rows before it comes a row. -/
theorem drop_flatten_append (h : ∀ row ∈ rows, row.length = width) {index : Nat} (hi : index < rows.length)
    (tail : Bits) : ∃ rest, (rows.flatten ++ tail).drop (width * index) = rows[index] ++ rest := by
  induction rows generalizing index with
  | nil => cases hi
  | cons row rows ih =>
    have hrow : row.length = width := h row List.mem_cons_self
    rw [List.flatten_cons, List.append_assoc]
    cases index with
    | zero => exact ⟨rows.flatten ++ tail, rfl⟩
    | succ index =>
      have hskip : width * (index + 1) = row.length + width * index := by rw [Nat.mul_succ, hrow, Nat.add_comm]
      rw [hskip, ← List.drop_drop, List.drop_left]
      exact ih (fun r hr => h r (List.mem_cons_of_mem row hr)) (Nat.lt_of_succ_lt_succ hi)

end Bits

@[simp] theorem Layout.length_countBits (n : Nat) : (countBits n).length = AddressSpace.width :=
  Bits.length_ofNat AddressSpace.width n

namespace Storage

/-- From its start on, the storage holds rows of the given width, under their count. -/
structure Holds (s : Storage) (width : Nat) (rows : List Bits) : Prop where
  bits : ∃ rest, s.toBits = Layout.countBits rows.length ++ (rows.flatten ++ rest)
  wide : ∀ row ∈ rows, row.length = width
  count_lt : rows.length < AddressSpace.size
  start_lt : ∀ index, index < rows.length → AddressSpace.width + width * index < AddressSpace.size

/-! ### Reading -/

namespace Holds

variable {s : Storage} {width : Nat} {rows : List Bits}

theorem length_toBits (h : s.Holds width rows) :
    AddressSpace.width + width * rows.length ≤ 8 * s.bytes.length := by
  obtain ⟨rest, hbits⟩ := h.bits
  rw [← s.length_toBits, hbits, List.length_append, List.length_append, Bits.length_flatten h.wide,
    Layout.length_countBits]
  omega

theorem length? (h : s.Holds width rows) :
    (StoredArray.mk .zero (.bitset width)).length? s = some rows.length := by
  obtain ⟨rest, hbits⟩ := h.bits
  have hlen := h.length_toBits
  have hcount := Layout.length_countBits rows.length
  change s.countAt .zero = some rows.length
  rw [countAt_eq_some_iff]
  refine ⟨.inl (by rw [Address.bits_zero]; omega), ?_⟩
  rw [bitsFrom, hbits, Address.bits_zero, List.drop_zero, ← hcount, List.take_left, Layout.countBits, Bits.toNat_ofNat]
  exact (Nat.mod_eq_of_lt h.count_lt).symm

/-- A cursor at the address of a row has that row to read next. -/
theorem cursor (h : s.Holds width rows) {index : Nat} (hi : index < rows.length) :
    ∃ address cursor rest, Address.zero.element width index = .ok address ∧ s.bitsAt address = some cursor ∧
      cursor.toBits = rows[index] ++ rest := by
  obtain ⟨tail, hbits⟩ := h.bits
  obtain ⟨rest, hrest⟩ := Bits.drop_flatten_append h.wide hi tail
  have hcount := Layout.length_countBits rows.length
  have hdrop : s.toBits.drop (AddressSpace.width + width * index) = rows[index] ++ rest := by
    rw [hbits, ← hcount, ← List.drop_drop, List.drop_left, hrest]
  let address : Address := ⟨AddressSpace.width + width * index, h.start_lt index hi⟩
  have haddress : Address.zero.element width index = .ok address := by
    rw [Address.element_eq_ok_iff, Address.bits_zero, Nat.zero_add]
  have hreach : address.bitInByte ≤ 8 * (s.bytes.length - address.byteIndex) := by
    have hlen := h.length_toBits
    have hmul : width * index ≤ width * rows.length := Nat.mul_le_mul_left width (Nat.le_of_lt hi)
    have hle : address.bits ≤ 8 * s.bytes.length := Nat.le_trans (Nat.add_le_add_left hmul AddressSpace.width) hlen
    rw [Address.bitInByte, Address.byteIndex]
    omega
  have hbitsAt := s.bitsAt_eq address
  rw [if_pos hreach, hdrop] at hbitsAt
  obtain ⟨cursor, hcursor, hrow⟩ := Option.map_eq_some_iff.1 hbitsAt
  exact ⟨address, cursor, rest, haddress, hcursor, hrow⟩

theorem elementAt (h : s.Holds width rows) {index : Nat} (hi : index < rows.length) :
    (StoredArray.mk .zero (.bitset width)).elementAt s index = .found (.ofBits rows[index]) := by
  obtain ⟨address, cursor, rest, haddress, hcursor, hrow⟩ := h.cursor hi
  have hwide : rows[index].length = width := h.wide _ (List.getElem_mem hi)
  have haccess : s.access address width = some (.ofBits rows[index]) := by
    rw [access_eq, hcursor, Option.map_some, Option.bind_some, hrow, List.length_append, hwide,
      if_pos (Nat.le_add_right width _), List.take_append_of_le_length (Nat.le_of_eq hwide.symm),
      List.take_of_length_le (Nat.le_of_eq hwide)]
  exact StoredArray.elementAt_of_access rfl haddress haccess

theorem materialize (h : s.Holds width rows) :
    (StoredArray.mk .zero (.bitset width)).materialize s = .found (.tuple (rows.map .ofBits)) := by
  rw [StoredArray.materialize_eq_found_iff]
  refine ⟨rows.map .ofBits, rfl, ?_, fun i hi => ?_⟩
  · rw [List.length_map]
    exact h.length?
  · rw [List.getElem_map]
    exact h.elementAt (by simpa using hi)

theorem get_of_lt (h : s.Holds width rows) {index : Nat} (hi : index < rows.length) :
    (StoredArray.mk .zero (.bitset width)).get s index = .found (.ofBits rows[index]) := by
  rw [StoredArray.get_of_lt h.length? hi]
  exact h.elementAt hi

theorem get_of_le (h : s.Holds width rows) {index : Nat} (hi : rows.length ≤ index) :
    (StoredArray.mk .zero (.bitset width)).get s index = .fault (.indexOutOfRange index rows.length) :=
  StoredArray.get_of_le h.length? hi

end Holds

/-! ### Writing -/

/-- No storage ends before address zero, so no memory is asked for. -/
theorem writeAt_zero (memory : Memory) (bytes : List UInt8) (old : Storage) :
    (writeAt .zero bytes memory).run old = .ok () (old.overwrite 0 bytes) := by
  have hextend : (extendTo memory 0).run old = .ok () old := by
    simp [extendTo, extended]
  rw [writeAt, EStateM.run_bind]
  exact hextend ▸ rfl

theorem toBits_overwrite_zero (bits : Bits) (old : Storage) :
    ∃ rest, (old.overwrite 0 bits.toBytes).toBits = bits ++ rest := by
  rw [toBits, overwrite, List.take_zero, List.nil_append, Bits.ofBytes_append, Bits.ofBytes_toBytes, List.append_assoc]
  exact ⟨_, rfl⟩

theorem holds_overwrite {width : Nat} {rows : List Bits} (wide : ∀ row ∈ rows, row.length = width)
    (count_lt : rows.length < AddressSpace.size)
    (start_lt : ∀ index, index < rows.length → AddressSpace.width + width * index < AddressSpace.size) (old : Storage) :
    (old.overwrite 0 (Layout.countBits rows.length ++ rows.flatten).toBytes).Holds width rows := by
  obtain ⟨rest, hrest⟩ := toBits_overwrite_zero (Layout.countBits rows.length ++ rows.flatten) old
  exact ⟨⟨rest, by rw [hrest, List.append_assoc]⟩, wide, count_lt, start_lt⟩

end Storage

end BitStore
