import BitStore.Proofs.Bits.Shifting

/-! Bits framed in bytes. A packer adds a byte to its container with every eighth bit, and one more for
what is left at the end, filled up with zeros. A cursor over the bytes that were added gives the
bits back, then these zeros. Packing all that a cursor over some bytes gives adds just these
bytes. What the container held before is left as it is. -/

namespace BitStore

namespace BitPacker

/-! ### What a packer adds to its container -/

theorem exists_bytes_foldl_push (bits : Bits) (p : BitPacker) :
    ∃ added : Array UInt8, (bits.foldl push p).bytes = p.bytes ++ added := by
  induction bits generalizing p with
  | nil => exact ⟨#[], Array.append_empty.symm⟩
  | cons b bits ih =>
    obtain ⟨added, hadded⟩ := ih (p.push b)
    rw [List.foldl_cons, hadded]
    by_cases hfull : p.pending.length = 7
    · refine ⟨#[Bits.toByte (p.pending ++ [b])] ++ added, ?_⟩
      rw [push, dif_pos hfull, ← Array.append_assoc]
      rfl
    · exact ⟨added, by rw [push, dif_neg hfull]⟩

/-- The bits that were pushed are in the bytes that were added, up to those that wait for their byte to fill. -/
theorem exists_foldl_push_eq (start : Array UInt8) (bits : Bits) :
    ∃ added : Array UInt8, (bits.foldl push (onto start)).bytes = start ++ added ∧
      Bits.ofBytes added.toList ++ (bits.foldl push (onto start)).pending = bits := by
  obtain ⟨added, hadded⟩ := exists_bytes_foldl_push bits (onto start)
  have hbits : (bits.foldl push (onto start)).toBits = Bits.ofBytes start.toList ++ bits := by
    rw [toBits_foldl_push, toBits_onto]
  rw [toBits, hadded, onto, Array.toList_append, Bits.ofBytes_append, List.append_assoc] at hbits
  exact ⟨added, hadded, List.append_cancel_left hbits⟩

theorem exists_finish_eq (p : BitPacker) : ∃ added : Array UInt8, p.finish = p.bytes ++ added := by
  unfold finish
  split
  next => exact ⟨#[], Array.append_empty.symm⟩
  next => exact ⟨#[Bits.toByte p.pending], rfl⟩

theorem buffered_foldl_push_onto (start : Array UInt8) (bits : Bits) :
    (bits.foldl push (onto start)).buffered = bits.length % 8 := by
  rw [Bits.buffered_foldl_push, onto, buffered, List.length_nil, Nat.zero_add]

/-- The bits that were pushed are in the bytes that were added in all, and zeros fill the last byte. -/
theorem exists_finish_foldl_push_eq (start : Array UInt8) (bits : Bits) :
    ∃ added : Array UInt8, (bits.foldl push (onto start)).finish = start ++ added ∧
      Bits.ofBytes added.toList = bits ++ List.replicate ((8 - bits.length % 8) % 8) false := by
  obtain ⟨full, hfull⟩ := exists_bytes_foldl_push bits (onto start)
  obtain ⟨last, hlast⟩ := exists_finish_eq (bits.foldl push (onto start))
  have hfinish : (bits.foldl push (onto start)).finish = start ++ (full ++ last) := by
    rw [hlast, hfull, onto, Array.append_assoc]
  have hbits := ofBytes_finish (bits.foldl push (onto start))
  rw [hfinish, buffered_foldl_push_onto, toBits_foldl_push, toBits_onto, Array.toList_append, Bits.ofBytes_append,
    List.append_assoc] at hbits
  exact ⟨full ++ last, hfinish, List.append_cancel_left hbits⟩

/-- All bits of a run of bytes add just these bytes, and none is left waiting. -/
theorem foldl_push_ofBytes (start : Array UInt8) (bytes : List UInt8) :
    ((Bits.ofBytes bytes).foldl push (onto start)).bytes = start ++ bytes.toArray ∧
      ((Bits.ofBytes bytes).foldl push (onto start)).buffered = 0 := by
  obtain ⟨added, hbytes, hbits⟩ := exists_foldl_push_eq start (Bits.ofBytes bytes)
  have hbuffered : ((Bits.ofBytes bytes).foldl push (onto start)).buffered = 0 := by
    rw [buffered_foldl_push_onto, Bits.length_ofBytes, Nat.mul_mod_right]
  rw [List.eq_nil_of_length_eq_zero hbuffered, List.append_nil] at hbits
  have hadded : added.toList = bytes := Bits.ofBytes_inj hbits
  exact ⟨by rw [hbytes, ← hadded, Array.toArray_toList], hbuffered⟩

end BitPacker

theorem ShiftPacker.follows_foldl_push (start : Array UInt8) (bits : Bits) :
    Follows id (bits.foldl push (onto start)) (bits.foldl BitPacker.push (.onto start)) :=
  Follows.pushAll (fun _ _ => rfl) (Follows.onto start) bits

/-! ### Bits to bytes and back -/

/-- Packing adds a byte with every eighth bit, and at the end one for the bits that are left. What was added
reads back as the bits, then zeros, and packing all bits of some bytes adds these. So do
the shift registers, in lockstep. -/
theorem framing_lossless (start : Array UInt8) (bits : Bits) :
    (∀ k ≤ bits.length, ∃ added : Array UInt8, added.size = k / 8 ∧
      ((bits.take k).foldl BitPacker.push (.onto start)).bytes = start ++ added ∧
      ((bits.take k).foldl BitPacker.push (.onto start)).buffered = k % 8 ∧
      ((bits.take k).foldl ShiftPacker.push (.onto start)).sink = start ++ added ∧
      ((bits.take k).foldl ShiftPacker.push (.onto start)).filled = k % 8) ∧
    (∃ added : Array UInt8, added.size = (bits.length + 7) / 8 ∧
      (bits.foldl BitPacker.push (.onto start)).finish = start ++ added ∧
      (bits.foldl ShiftPacker.push (.onto start)).finish = start ++ added ∧
      BitSource.Yields (BitCursor.ofBytes added.toList) (bits ++ List.replicate ((8 - bits.length % 8) % 8) false) ∧
      BitSource.Yields (ShiftCursor.ofBytes added.toList) (bits ++ List.replicate ((8 - bits.length % 8) % 8) false)) ∧
    (∀ bytes : List UInt8, BitSource.Yields (BitCursor.ofBytes bytes) bits ∨ BitSource.Yields (ShiftCursor.ofBytes bytes) bits →
      (bits.foldl BitPacker.push (.onto start)).bytes = start ++ bytes.toArray ∧
      (bits.foldl BitPacker.push (.onto start)).buffered = 0 ∧
      (bits.foldl ShiftPacker.push (.onto start)).sink = start ++ bytes.toArray ∧
      (bits.foldl ShiftPacker.push (.onto start)).filled = 0) := by
  refine ⟨fun k hk => ?_, ?_, fun bytes hyields => ?_⟩
  · obtain ⟨added, hbytes, hbits⟩ := BitPacker.exists_foldl_push_eq start (bits.take k)
    have hfollows := ShiftPacker.follows_foldl_push start (bits.take k)
    have hbuffered := BitPacker.buffered_foldl_push_onto start (bits.take k)
    have hlen := congrArg List.length hbits
    rw [List.length_take, Nat.min_eq_left hk] at hbuffered hlen
    rw [List.length_append, Bits.length_ofBytes, Array.length_toList] at hlen
    have hsize : added.size = k / 8 := by
      rw [BitPacker.buffered] at hbuffered
      omega
    exact ⟨added, hsize, hbytes, hbuffered, hfollows.sink.trans hbytes, hfollows.filled.trans hbuffered⟩
  · obtain ⟨added, hfinish, hbits⟩ := BitPacker.exists_finish_foldl_push_eq start bits
    have hshift := ShiftPacker.Follows.finish (fun _ _ => rfl) (ShiftPacker.follows_foldl_push start bits)
    have hlen := congrArg List.length hbits
    rw [Bits.length_ofBytes, Array.length_toList, List.length_append, List.length_replicate] at hlen
    have hsize : added.size = (bits.length + 7) / 8 := by omega
    exact ⟨added, hsize, hfinish, hshift.trans hfinish, BitCursor.yields_iff.2 hbits, ShiftCursor.yields_iff.2 hbits⟩
  · have hbits : Bits.ofBytes bytes = bits := hyields.elim BitCursor.yields_iff.1 ShiftCursor.yields_iff.1
    have hfollows := ShiftPacker.follows_foldl_push start bits
    obtain ⟨hbytes, hbuffered⟩ := BitPacker.foldl_push_ofBytes start bytes
    rw [hbits] at hbytes hbuffered
    exact ⟨hbytes, hbuffered, hfollows.sink.trans hbytes, hfollows.filled.trans hbuffered⟩

/-- Eleven bits behind a byte add one byte with the eighth bit and one at the end. The bits of two bytes add these. -/
theorem framing_lossless_eleven_bits :
    ∃ added last : Array UInt8, added.size = 9 / 8 ∧ last.size = 2 ∧
      (([true, false, true, true, false, false, true, false, true, true, false].take 9).foldl BitPacker.push
        (.onto #[7])).bytes = #[7] ++ added ∧
      ([true, false, true, true, false, false, true, false, true, true, false].foldl ShiftPacker.push
        (.onto #[7])).finish = #[7] ++ last ∧
      ((Bits.ofBytes [0x81, 0x40]).foldl BitPacker.push (.onto #[7])).bytes = #[7] ++ #[0x81, 0x40] := by
  have hyields : BitSource.Yields (BitCursor.ofBytes [0x81, 0x40]) (Bits.ofBytes [0x81, 0x40]) := BitCursor.yields_iff.2 rfl
  obtain ⟨hfirst, ⟨last, hsize, _, hfinish, _⟩, _⟩ :=
    framing_lossless #[7] [true, false, true, true, false, false, true, false, true, true, false]
  obtain ⟨_, _, hback⟩ := framing_lossless #[7] (Bits.ofBytes [0x81, 0x40])
  obtain ⟨added, hadded, hbytes, _⟩ := hfirst 9 (by decide)
  exact ⟨added, last, hadded, hsize, hbytes, hfinish, (hback _ (.inl hyields)).1⟩

end BitStore
