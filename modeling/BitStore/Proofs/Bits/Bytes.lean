import BitStore.Bits.Packer

/-! Bits in bytes. A run of bytes is determined by its bits, each of which has its place in one
byte. So packing is characterised by the bits that the packed bytes hold: what comes
behind a whole number of bytes is packed as it would be alone, and a number of whole bytes
has its bytes in big-endian order. -/

namespace BitStore.Bits

/-! ### Places -/

theorem ofNat_eq_map (width n : Nat) : ofNat width n = (List.range width).map fun k => n.testBit (width - 1 - k) := by
  induction width with
  | zero => rfl
  | succ w ih =>
    have hrest (k : Nat) : w - 1 - k = w + 1 - 1 - (k + 1) := by omega
    simp only [hrest] at ih
    rw [ofNat, ih, List.range_succ_eq_map, List.map_cons, List.map_map]
    rfl

/-- Bit `k` of a run of bytes is in byte `k / 8`, at `k % 8` from its most significant bit. -/
theorem ofBytes_eq_map (bytes : List UInt8) : ofBytes bytes =
    (List.range (8 * bytes.length)).map fun k => (bytes.getD (k / 8) 0).toNat.testBit (7 - k % 8) := by
  induction bytes with
  | nil => rfl
  | cons byte bytes ih =>
    have hfirst : ofByte byte = (List.range 8).map fun k => ((byte :: bytes).getD (k / 8) 0).toNat.testBit (7 - k % 8) := by
      rw [ofByte, ofNat_eq_map]
      refine List.map_congr_left fun k hk => ?_
      have hk : k < 8 := List.mem_range.1 hk
      rw [Nat.div_eq_of_lt hk, Nat.mod_eq_of_lt hk]
      rfl
    have hrest : ofBytes bytes = (List.range (8 * bytes.length)).map fun k =>
        ((byte :: bytes).getD ((8 + k) / 8) 0).toNat.testBit (7 - (8 + k) % 8) := by
      rw [ih]
      refine List.map_congr_left fun k _ => ?_
      have hdiv : (8 + k) / 8 = k / 8 + 1 := by omega
      have hmod : (8 + k) % 8 = k % 8 := by omega
      rw [hdiv, hmod, List.getD_cons_succ]
    rw [ofBytes_cons, hfirst, hrest, List.length_cons, Nat.mul_succ, Nat.add_comm _ 8, List.range_add,
      List.map_append, List.map_map]
    rfl

/-! ### Packed bytes -/

theorem ofByte_inj {a b : UInt8} (h : ofByte a = ofByte b) : a = b := by
  rw [← toByte_ofByte a, h, toByte_ofByte]

theorem ofBytes_inj {as bs : List UInt8} (h : ofBytes as = ofBytes bs) : as = bs := by
  have hlen : as.length = bs.length := by
    have hbits := congrArg List.length h
    rw [length_ofBytes, length_ofBytes] at hbits
    omega
  induction as generalizing bs with
  | nil => exact (List.eq_nil_of_length_eq_zero hlen.symm).symm
  | cons a as ih =>
    cases bs with
    | nil => cases hlen
    | cons b bs =>
      rw [ofBytes_cons, ofBytes_cons] at h
      obtain ⟨hfirst, hrest⟩ := List.append_inj h (by rw [length_ofByte, length_ofByte])
      rw [ofByte_inj hfirst, ih hrest (Nat.succ.inj hlen)]

theorem length_toBytes (bits : Bits) : bits.toBytes.length = (bits.length + 7) / 8 := by
  have hlen := congrArg List.length (ofBytes_toBytes bits)
  rw [length_ofBytes, List.length_append, List.length_replicate] at hlen
  omega

/-- Bytes that hold the bits, then zeros to fill the last byte, are the packed bits. -/
theorem toBytes_eq_of_ofBytes {bytes : List UInt8} {bits : Bits}
    (h : ofBytes bytes = bits ++ List.replicate ((8 - bits.length % 8) % 8) false) : bits.toBytes = bytes :=
  ofBytes_inj ((ofBytes_toBytes bits).trans h.symm)

/-- Behind whole bytes, bits are packed as they are alone. -/
theorem toBytes_ofBytes_append (bytes : List UInt8) (bits : Bits) : (ofBytes bytes ++ bits).toBytes = bytes ++ bits.toBytes := by
  apply toBytes_eq_of_ofBytes
  rw [ofBytes_append, ofBytes_toBytes, List.length_append, length_ofBytes, Nat.mul_add_mod, List.append_assoc]

/-! ### Numbers of whole bytes -/

/-- The lowest `width` bytes of a number, most significant first. -/
def bigEndian : (width n : Nat) → List UInt8
  | 0, _ => []
  | w + 1, n => UInt8.ofNat (n >>> (8 * w)) :: bigEndian w n

theorem ofNat_add (v w n : Nat) : ofNat (v + w) n = ofNat v (n >>> w) ++ ofNat w n := by
  induction v with
  | zero => rw [Nat.zero_add, ofNat, List.nil_append]
  | succ v ih => rw [Nat.succ_add, ofNat, ofNat, ih, Nat.testBit_shiftRight, Nat.add_comm w v, List.cons_append]

theorem ofByte_ofNat (n : Nat) : ofByte (.ofNat n) = ofNat 8 n := by
  refine ofNat_congr fun i hi => ?_
  rw [UInt8.toNat_ofNat', Nat.testBit_mod_two_pow, decide_eq_true hi, Bool.true_and]

theorem ofBytes_bigEndian (width n : Nat) : ofBytes (bigEndian width n) = ofNat (8 * width) n := by
  induction width with
  | zero => rfl
  | succ w ih => rw [bigEndian, ofBytes_cons, ih, ofByte_ofNat, Nat.mul_succ, Nat.add_comm, ofNat_add]

example : bigEndian 8 258 = [0, 0, 0, 0, 0, 0, 1, 2] := by decide

end BitStore.Bits
