import BitStore.Proofs.Bits.Shifting
import BitStore.Proofs.Bits.Words
import BitStore.Proofs.Value.Leaves
import BitStore.Value.Unsigned

/-! Unsigned numbers as tuples of bits. A tuple is read as a number exactly if it has bits for elements, and no more
of them than asked for; the number has these bits, the most significant first. Writing a number and
reading it is inverse in both directions, and a number of whole bytes has them in big-endian order.
In a word of 64 bits the same is computed, though reading shifts the word up and writing shifts
it down. -/

namespace BitStore

namespace Value

/-! ### Reading -/

theorem numberOf_eq_error {width : Nat} {elements : List Value}
    (h : ¬ (elements.length ≤ width ∧ ∀ e ∈ elements, ∃ b, e = .bit b)) :
    numberOf width elements = .error (.notAnInteger elements.length width) := by
  cases hn : numberOf width elements with
  | ok n =>
    obtain ⟨hlen, bits, rfl, _⟩ := numberOf_eq_ok_iff.1 hn
    refine absurd ⟨hlen, fun e he => ?_⟩ h
    obtain ⟨b, _, rfl⟩ := List.mem_map.1 he
    exact ⟨b, rfl⟩
  | error e =>
    unfold numberOf at hn
    split at hn
    next =>
      split at hn
      next => cases hn
      next => exact hn.symm ▸ rfl
    next => exact hn.symm ▸ rfl

theorem toUnsigned_ofBits {width : Nat} {bits : Bits} (h : bits.length ≤ width) :
    (ofBits bits).toUnsigned width = .ok bits.toNat := by
  refine numberOf_eq_ok_iff.2 ⟨?_, bits, rfl, rfl⟩
  rw [List.length_map]
  exact h

/-- Elements that are bits are bits in a row. -/
theorem exists_bits {elements : List Value} (h : ∀ e ∈ elements, ∃ b, e = .bit b) :
    ∃ bits : Bits, elements = bits.map .bit := by
  induction elements with
  | nil => exact ⟨[], rfl⟩
  | cons e es ih =>
    obtain ⟨⟨b, rfl⟩, hes⟩ := List.forall_mem_cons.1 h
    obtain ⟨bits, rfl⟩ := ih hes
    exact ⟨b :: bits, rfl⟩

/-- The number has the bits that were read, the most significant first. -/
theorem eq_testBits_of_numberOf {width n : Nat} {elements : List Value} (h : numberOf width elements = .ok n) :
    n < 1 <<< elements.length ∧
      elements = (List.range elements.length).map fun k => .bit (n.testBit (elements.length - 1 - k)) := by
  obtain ⟨_, bits, rfl, rfl⟩ := numberOf_eq_ok_iff.1 h
  rw [List.length_map]
  refine ⟨bits.toNat_lt, ?_⟩
  have hbits : bits = (List.range bits.length).map fun k => bits.toNat.testBit (bits.length - 1 - k) := by
    rw [← Bits.ofNat_eq_map, Bits.ofNat_toNat]
  conv => lhs; rw [hbits]
  rw [List.map_map]
  rfl

theorem numberOf_zeros_append {width n zeros : Nat} {elements : List Value} (h : numberOf width elements = .ok n)
    (hzeros : zeros + elements.length ≤ width) :
    numberOf width (List.replicate zeros (.bit false) ++ elements) = .ok n := by
  obtain ⟨_, bits, rfl, rfl⟩ := numberOf_eq_ok_iff.1 h
  refine numberOf_eq_ok_iff.2 ⟨?_, List.replicate zeros false ++ bits, ?_, ?_⟩
  · rw [List.length_append, List.length_replicate]
    exact hzeros
  · rw [List.map_append, List.map_replicate]
  · rw [Bits.toNat_append, Bits.toNat_replicate_false, Nat.zero_shiftLeft, Nat.zero_add]

/-! ### Writing -/

theorem toUnsigned_unsigned {width target n : Nat} (hn : n < 1 <<< width) (htarget : width ≤ target) :
    (unsigned width n).toUnsigned target = .ok n := by
  have hlen : (Bits.ofNat width n).length ≤ target := Nat.le_trans (Nat.le_of_eq (Bits.length_ofNat width n)) htarget
  rw [unsigned, toUnsigned_ofBits hlen, Bits.toNat_ofNat, Nat.mod_eq_of_lt hn]

theorem unsigned_of_numberOf {width n : Nat} {elements : List Value} (h : numberOf width elements = .ok n) :
    unsigned elements.length n = .tuple elements := by
  obtain ⟨_, bits, rfl, rfl⟩ := numberOf_eq_ok_iff.1 h
  rw [List.length_map, unsigned, Bits.ofNat_toNat, ofBits]

theorem leavesAll_map_bit (bits : Bits) : leavesAll (bits.map .bit) = bits := by
  induction bits with
  | nil => rfl
  | cons b bits ih => simp [leavesAll, leaves, containsClosure, ih]

theorem toBits_ofBits (bits : Bits) : (ofBits bits).toBits = .ok bits :=
  toBits_eq_ok_iff.2 ⟨containsClosure_ofBits bits, leavesAll_map_bit bits⟩

theorem toBytes_unsigned (count n : Nat) : (unsigned (8 * count) n).toBytes = .ok (Bits.bigEndian count n) := by
  have hbytes : (Bits.ofNat (8 * count) n).toBytes = Bits.bigEndian count n := by
    have happend := Bits.toBytes_ofBytes_append (Bits.bigEndian count n) []
    rw [List.append_nil, Bits.ofBytes_bigEndian] at happend
    rw [happend]
    exact List.append_nil _
  rw [toBytes_eq, unsigned, toBits_ofBits, Except.map, hbytes]

/-! ### In a word -/

/-- The word after the elements were taken in, if they are bits. -/
def takenInto (w : Word) : List Value → Option Word
  | [] => some w
  | .bit b :: es => takenInto (w.shiftIn b) es
  | _ :: _ => none

/-- The number whose bits are these elements, computed in a word that is then cut to the width. -/
def wordOf (width : Nat) (elements : List Value) : Except CodecError Nat :=
  if elements.length ≤ width then
    match takenInto 0 elements with
    | some w => .ok (w.toNat % 1 <<< width)
    | none => .error (.notAnInteger elements.length width)
  else
    .error (.notAnInteger elements.length width)

theorem takenInto_eq (w : Word) (elements : List Value) :
    takenInto w elements = (bits? elements).map (List.foldl Word.shiftIn w) := by
  induction elements generalizing w with
  | nil => rfl
  | cons e es ih =>
    cases e with
    | bit b =>
      rw [takenInto, ih, bits?, Option.map_map]
      rfl
    | unit | tuple | variant | closure => rfl

theorem wordOf_eq_numberOf {width : Nat} (h : width ≤ AddressSpace.width) (elements : List Value) :
    wordOf width elements = numberOf width elements := by
  rw [wordOf, numberOf, takenInto_eq]
  by_cases hlen : elements.length ≤ width
  · rw [if_pos hlen, if_pos hlen]
    cases hbits : bits? elements with
    | none => rfl
    | some bits =>
      have hbits : bits.length = elements.length := by rw [bits?_eq_some_iff.1 hbits, List.length_map]
      have hword : (bits.foldl Word.shiftIn 0).toNat = bits.toNat := Word.toNat_foldl_shiftIn_zero (by omega)
      have hlt : bits.toNat < 1 <<< width := by
        refine Nat.lt_of_lt_of_le bits.toNat_lt ?_
        rw [Nat.one_shiftLeft, Nat.one_shiftLeft, hbits]
        exact Nat.pow_le_pow_right (by decide) hlen
      simp only [Option.map_some, hword, Nat.mod_eq_of_lt hlt]
  · rw [if_neg hlen, if_neg hlen]

/-- The lowest `width` bits of a word as a tuple. -/
def ofWord (width : Nat) (w : Word) : Value :=
  ofBits (w.bits width)

theorem ofWord_eq_unsigned {width n : Nat} (h : width ≤ AddressSpace.width) (hn : n < 1 <<< width) :
    ofWord width (.ofNat n) = unsigned width n := by
  have hlt : n < 2 ^ 64 := by
    rw [Nat.one_shiftLeft] at hn
    exact Nat.lt_of_lt_of_le hn (Nat.pow_le_pow_right (by decide) h)
  rw [ofWord, Word.bits_eq _ h, UInt64.toNat_ofNat', Nat.mod_eq_of_lt hlt, unsigned]

/-! ### Both directions -/

/-- Bits are read as a number if there are no more of them than asked for. All of them are bits of the number, and
zeros in front of them make no difference. Anything else is refused. A number that is written is read
as itself in its own width and every larger one, a tuple of the full width is what is written for its
number, and whole bytes are the number in big-endian order. Up to 64 bits are computed in a word. -/
theorem unsigned_codec {width : Nat} (hwidth : width ≤ AddressSpace.width) :
    (∀ elements : List Value, (elements.length ≤ width ∧ ∀ e ∈ elements, ∃ b, e = .bit b) →
      ∃ n, numberOf width elements = .ok n ∧ wordOf width elements = .ok n ∧ n < 1 <<< elements.length ∧
        elements = (List.range elements.length).map (fun k => .bit (n.testBit (elements.length - 1 - k))) ∧
        ∀ zeros, zeros + elements.length ≤ width →
          numberOf width (List.replicate zeros (.bit false) ++ elements) = .ok n) ∧
    (∀ elements : List Value, ¬ (elements.length ≤ width ∧ ∀ e ∈ elements, ∃ b, e = .bit b) →
      numberOf width elements = .error (.notAnInteger elements.length width) ∧
        wordOf width elements = .error (.notAnInteger elements.length width)) ∧
    (∀ n, n < 1 <<< width → ofWord width (.ofNat n) = unsigned width n ∧
      (∀ target, width ≤ target → (unsigned width n).toUnsigned target = .ok n) ∧
      ∀ count, width = 8 * count → (unsigned width n).toBytes = .ok (Bits.bigEndian count n)) ∧
    ∀ (elements : List Value) (n : Nat), elements.length = width → numberOf width elements = .ok n →
      unsigned width n = .tuple elements := by
  refine ⟨fun elements h => ?_, fun elements h => ?_, fun n hn => ⟨?_, ?_, ?_⟩, ?_⟩
  · obtain ⟨bits, hbits⟩ := exists_bits h.2
    have hnumber : numberOf width elements = .ok bits.toNat := numberOf_eq_ok_iff.2 ⟨h.1, bits, hbits, rfl⟩
    obtain ⟨hlt, htestBits⟩ := eq_testBits_of_numberOf hnumber
    exact ⟨bits.toNat, hnumber, (wordOf_eq_numberOf hwidth elements).trans hnumber, hlt, htestBits,
      fun zeros hzeros => numberOf_zeros_append hnumber hzeros⟩
  · have hnumber := numberOf_eq_error h
    exact ⟨hnumber, (wordOf_eq_numberOf hwidth elements).trans hnumber⟩
  · exact ofWord_eq_unsigned hwidth hn
  · exact fun target htarget => toUnsigned_unsigned hn htarget
  · rintro count rfl
    exact toBytes_unsigned count n
  · rintro elements n rfl hnumber
    exact unsigned_of_numberOf hnumber

/-- Two bits are a number below four, also behind fourteen zeros. The two bytes of 258 are 1 and 2, its tuple is
read back in eight bytes, and a tuple of 16 bits is the one that is written. A unit is no bit. -/
theorem unsigned_codec_two_bytes :
    (∃ n, numberOf 16 [.bit true, .bit true] = .ok n ∧ n < 4 ∧
      numberOf 16 (List.replicate 14 (.bit false) ++ [.bit true, .bit true]) = .ok n) ∧
    numberOf 16 [.bit true, .unit] = .error (.notAnInteger 2 16) ∧
    (unsigned 16 258).toUnsigned 64 = .ok 258 ∧ (unsigned 16 258).toBytes = .ok [1, 2] ∧
    unsigned 16 32768 = .tuple (.bit true :: List.replicate 15 (.bit false)) := by
  obtain ⟨hread, hrefused, hwritten, hback⟩ := unsigned_codec (show 16 ≤ AddressSpace.width by decide)
  obtain ⟨n, hn, _, hlt, _, hzeros⟩ := hread [.bit true, .bit true] ⟨by decide, by simp⟩
  obtain ⟨_, hwider, hbytes⟩ := hwritten 258 (by decide)
  exact ⟨⟨n, hn, hlt, hzeros 14 (by decide)⟩, (hrefused [.bit true, .unit] (by simp)).1, hwider 64 (by decide),
    hbytes 2 rfl, hback _ 32768 rfl rfl⟩

end Value

end BitStore
