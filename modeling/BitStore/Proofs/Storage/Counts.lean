import BitStore.Layout.Encode
import BitStore.Proofs.Schema.Bitset
import BitStore.Proofs.Storage.Reading
import BitStore.Proofs.Value.Atoms
import BitStore.Proofs.Value.Numbers
import BitStore.StoredArray

/-! Element counts and runs of bits, however they are written and read. A count that is shifted out of a word,
the count in front of an encoded array and the tuple of the number are the same 64 bits. What
a word takes in from these, the number that is summed up from them and the number of the tuple at
their address are the same. A run of bits read at an address is the value that a schema of
as many bits decodes there. All of them lack data in the same places. -/

namespace BitStore

/-! ### Runs of bits -/

namespace Schema

theorem decodeAll_bits_run (width : Nat) (c : BitCursor) :
    ∃ after, (decodeAll (List.replicate width .bit)).run c =
      .ok (if width ≤ c.toBits.length then some ((c.toBits.take width).map .bit) else none) after := by
  induction width generalizing c with
  | zero => exact ⟨c, rfl⟩
  | succ width ih =>
    rw [List.replicate_succ, decodeAll, decode, EStateM.run_bind, EStateM.run_bind, BitSource.run_read]
    cases hnext : BitSource.next? c with
    | none =>
      have hdry : c.toBits = [] := BitCursor.next?_eq_none_iff.1 hnext
      rw [hdry, if_neg (by simp)]
      exact ⟨c, rfl⟩
    | some r =>
      obtain ⟨b, rest⟩ := r
      obtain ⟨after, hrest⟩ := ih rest
      refine ⟨after, ?_⟩
      have hbits : c.toBits = b :: rest.toBits := BitCursor.toBits_of_next? hnext
      have hall : ((do return (← decodeAll (List.replicate width .bit)).map (Value.bit b :: ·)).run rest) =
          (.ok ((if width ≤ rest.toBits.length then some ((rest.toBits.take width).map .bit) else none).map
            (Value.bit b :: ·)) after : EStateM.Result CodecError BitCursor (Option (List Value))) := by
        rw [EStateM.run_bind, hrest]
        rfl
      refine hall.trans ?_
      rw [hbits]
      simp

/-- A schema of bits decodes to the next bits, if that many are left. -/
theorem decode_unsigned_run (width : Nat) (c : BitCursor) :
    ∃ after, (unsigned width).decode.run c = .ok ((c.take? width).map fun r => .ofBits r.1) after := by
  obtain ⟨after, hall⟩ := decodeAll_bits_run width c
  have htake := congrArg (Option.map Value.ofBits) (c.take?_fst width)
  rw [Option.map_map] at htake
  have htuple : (if width ≤ c.toBits.length then some ((c.toBits.take width).map Value.bit) else none).map Value.tuple =
      (c.take? width).map fun r => .ofBits r.1 := by
    refine Eq.trans ?_ htake.symm
    split
    next => rfl
    next => rfl
  refine ⟨after, ?_⟩
  rw [unsigned, decode, EStateM.run_bind, hall]
  exact congrArg (EStateM.Result.ok · after) htuple

end Schema

namespace Storage

variable (s : Storage)

/-- The bits at an address are a value of the schema of as many bits, decoded there. -/
theorem access_eq_decode {a : Address} {c : BitCursor} (h : s.bitsAt a = some c) (width : Nat) :
    ∃ after, (Schema.unsigned width).decode.run c = .ok (s.access a width) after := by
  rw [access, h]
  exact Schema.decode_unsigned_run width c

theorem access_of_bitsAt_eq_none {a : Address} (h : s.bitsAt a = none) (width : Nat) : s.access a width = none := by
  rw [access, h]
  rfl

/-! ### Counts -/

/-- The tuple of the 64 bits at an address has the count there for its number. -/
theorem access_toUnsigned (a : Address) :
    (s.access a AddressSpace.width).map (Value.toUnsigned AddressSpace.width) = (s.countAt a).map .ok := by
  rw [access_eq, countAt_eq]
  cases (s.bitsAt a).map BitCursor.toBits with
  | none => rfl
  | some bits =>
    by_cases h : AddressSpace.width ≤ bits.length
    · simp only [Option.bind_some, if_pos h, Option.map_some, Value.toUnsigned_ofBits (List.length_take_le _ _)]
    · simp only [Option.bind_some, if_neg h, Option.map_none]

end Storage

/-- The running reader of counts reads what a word takes in. -/
theorem BitCursor.readNat?_eq_read? (c : BitCursor) :
    (c.readNat? AddressSpace.width).map (fun r => (r.1, r.2.toBits)) =
      (Word.read? c).map fun r => (r.1.toNat, r.2.toBits) := by
  rw [c.readNat?_eq, Word.read?_eq BitCursor.seenAs_toBits]

/-- Whatever the sink, a count that is shifted out of a word adds the bits of its tuple to it, and these are in front
of an encoded array. Whatever the source, they are taken into the same word again, and what is behind
them is left; there is no count exactly where fewer than 64 bits are left. A cursor sums up the number that
a word takes in. The count of an array in storage is the number of the tuple at its address, and a
tuple at an address is what a schema of as many bits decodes there; if one of the two lacks data, both do. -/
theorem counts_and_runs_agree :
    (∀ w : Word, ∃ bits : Bits, (Value.unsigned AddressSpace.width w.toNat).toBits = .ok bits ∧
      (Value.ofWord AddressSpace.width w).toBits = .ok bits ∧ Layout.countBits w.toNat = bits ∧
      (∀ {σ : Type} [BitSink σ] {view : σ → Bits}, BitSink.IsView view →
        ∀ sink : σ, view (w.push sink) = view sink ++ bits) ∧
      ∀ {σ : Type} [BitSource σ] {view : σ → Bits}, BitSource.SeenAs view →
        ∀ (source : σ) (rest : Bits), view source = bits ++ rest →
          ∃ after, Word.read? source = some (w, after) ∧ view after = rest) ∧
    (∀ {σ : Type} [BitSource σ] {view : σ → Bits}, BitSource.SeenAs view →
      ∀ source : σ, Word.read? source = none ↔ (view source).length < AddressSpace.width) ∧
    (∀ c : BitCursor, (c.readNat? AddressSpace.width).map (fun r => (r.1, r.2.toBits)) =
      (Word.read? c).map fun r => (r.1.toNat, r.2.toBits)) ∧
    (∀ (a : StoredArray) (stores : Storages),
      ((stores a.start.storage).access a.start.toAddress AddressSpace.width).map (Value.toUnsigned AddressSpace.width) =
        (a.length? stores).map .ok) ∧
    ∀ (store : Storage) (a : Address) (width : Nat),
      (store.bitsAt a = none → store.access a width = none) ∧
      ∀ c, store.bitsAt a = some c →
        ∃ after, (Schema.unsigned width).decode.run c = .ok (store.access a width) after := by
  refine ⟨fun w => ⟨Layout.countBits w.toNat, Value.toBits_ofBits _, ?_, rfl, fun h sink => ?_, fun h source rest hs => ?_⟩,
    fun h source => Word.read?_eq_none_iff h, BitCursor.readNat?_eq_read?,
    fun a stores => (stores a.start.storage).access_toUnsigned a.start.toAddress,
    fun store a width => ⟨fun h => store.access_of_bitsAt_eq_none h width, fun c h => store.access_eq_decode h width⟩⟩
  · rw [Value.ofWord, Value.toBits_ofBits, w.bits_eq (Nat.le_refl _), Layout.countBits]
  · rw [Word.push_eq, h.foldl_push, Layout.countBits]
  · exact Word.read?_of_bits h hs

/-- The count 258, pushed onto a bit that waits in a packer, and read from a shift register in front of a byte.
Of 63 bits no count is read. Three bits into a storage, ten bits are read as a tuple of ten, and
five bits in front of its end are too few for six. -/
theorem counts_and_runs_agree_inside_a_byte :
    (∃ bits : Bits, (Value.unsigned 64 258).toBits = .ok bits ∧
      (Word.push 258 ((BitPacker.onto #[]).push true)).toBits = true :: bits) ∧
    (∃ after : ShiftCursor, Word.read? (ShiftCursor.ofBytes [0, 0, 0, 0, 0, 0, 1, 2, 7]) = some (258, after) ∧
      after.toCursor.toBits = [false, false, false, false, false, true, true, true]) ∧
    Word.read? (BitCursor.ofBits (List.replicate 63 true)) = none ∧
    (∃ c after, Storage.bitsAt ⟨[0x36, 0x80]⟩ ⟨3, by decide⟩ = some c ∧
      (Schema.unsigned 10).decode.run c = .ok (Storage.access ⟨[0x36, 0x80]⟩ ⟨3, by decide⟩ 10) after) ∧
    ∃ c after, Storage.bitsAt ⟨[0x36, 0x80]⟩ ⟨11, by decide⟩ = some c ∧
      (Schema.unsigned 6).decode.run c = .ok none after := by
  obtain ⟨hcounts, hdry, _, _, hruns⟩ := counts_and_runs_agree
  obtain ⟨bits, hbits, _, hfront, hpush, hread⟩ := hcounts 258
  refine ⟨⟨bits, hbits, hpush BitPacker.isView_toBits _⟩, ?_, ?_, ?_, ?_⟩
  · exact hread ShiftCursor.seenAs_toBits _ _ (hfront ▸ rfl)
  · exact (hdry BitCursor.seenAs_toBits _).2 (by decide)
  · obtain ⟨after, hafter⟩ := (hruns ⟨[0x36, 0x80]⟩ ⟨3, by decide⟩ 10).2 _ rfl
    exact ⟨_, after, rfl, hafter⟩
  · obtain ⟨after, hafter⟩ := (hruns ⟨[0x36, 0x80]⟩ ⟨11, by decide⟩ 6).2 _ rfl
    exact ⟨_, after, rfl, hafter⟩

end BitStore
