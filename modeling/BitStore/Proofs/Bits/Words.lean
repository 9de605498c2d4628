import BitStore.AddressSpace
import BitStore.Bits.Packer
import BitStore.Bits.Source

/-! Numbers in words of 64 bits. A word gives a bit by moving it down to the end, where the others are masked
out, and takes a bit in by moving the others up, and then what is at the top falls out. As long as there
are no more bits than a word has room for, none is lost: a word gives the bits that its number is
written with, and has, after bits were taken in, the number that these denote. -/

namespace BitStore

/-- A number below `2 ^ 64`. -/
abbrev Word := UInt64

namespace Word

/-! ### Giving bits -/

def bit (w : Word) (place : Nat) : Bool :=
  (w >>> UInt64.ofNat place) &&& 1 != 0

/-- The lowest `width` bits, most significant first. -/
def bits (width : Nat) (w : Word) : Bits :=
  (List.range width).reverse.map w.bit

/-- Pushes the bits below a place, from the highest down. -/
def pushBelow {σ : Type} [BitSink σ] (w : Word) : (place : Nat) → σ → σ
  | 0, sink => sink
  | place + 1, sink => w.pushBelow place (BitSink.push sink (w.bit place))

/-- Pushes all bits, most significant first. -/
def push {σ : Type} [BitSink σ] (w : Word) (sink : σ) : σ :=
  w.pushBelow AddressSpace.width sink

theorem bit_eq_testBit (w : Word) {place : Nat} (h : place < AddressSpace.width) :
    w.bit place = w.toNat.testBit place := by
  have hplace : (UInt64.ofNat place).toNat % 64 = place := by
    rw [AddressSpace.width] at h
    rw [UInt64.toNat_ofNat']
    omega
  have hbit : ((w >>> UInt64.ofNat place) &&& 1).toNat = 1 &&& w.toNat >>> place := by
    rw [UInt64.toNat_and, UInt64.toNat_shiftRight, hplace, Nat.and_comm]
    rfl
  rw [bit, Nat.testBit, ← hbit, Bool.eq_iff_iff, bne_iff_ne, bne_iff_ne, ne_eq, ne_eq, ← UInt64.toNat_inj]
  rfl

theorem bits_eq (w : Word) {width : Nat} (h : width ≤ AddressSpace.width) : w.bits width = Bits.ofNat width w.toNat := by
  induction width with
  | zero => rfl
  | succ width ih =>
    rw [bits, List.range_succ, List.reverse_append, List.reverse_singleton, List.singleton_append, List.map_cons,
      w.bit_eq_testBit h, Bits.ofNat, ← ih (Nat.le_of_succ_le h), bits]

theorem pushBelow_eq {σ : Type} [BitSink σ] (w : Word) {place : Nat} (h : place ≤ AddressSpace.width) (sink : σ) :
    w.pushBelow place sink = (Bits.ofNat place w.toNat).foldl BitSink.push sink := by
  induction place generalizing sink with
  | zero => rfl
  | succ place ih => rw [pushBelow, ih (Nat.le_of_succ_le h), w.bit_eq_testBit h, Bits.ofNat, List.foldl_cons]

theorem push_eq {σ : Type} [BitSink σ] (w : Word) (sink : σ) :
    w.push sink = (Bits.ofNat AddressSpace.width w.toNat).foldl BitSink.push sink :=
  w.pushBelow_eq (Nat.le_refl _) sink

/-! ### Taking bits in -/

/-- The word with a bit behind the others. -/
def shiftIn (w : Word) (b : Bool) : Word :=
  w <<< 1 ||| b.toUInt64

theorem toNat_shiftIn (w : Word) (b : Bool) : (w.shiftIn b).toNat = (2 * w.toNat + b.toNat) % AddressSpace.size := by
  have hb : b.toNat < 2 ^ 1 := Bool.toNat_lt b
  have hbit : b.toUInt64.toNat = b.toNat := by cases b <;> rfl
  have hup : (w <<< 1).toNat = (w.toNat % 2 ^ 63) <<< 1 := by
    rw [UInt64.toNat_shiftLeft, Nat.shiftLeft_eq, Nat.shiftLeft_eq]
    show w.toNat * 2 % 2 ^ 64 = w.toNat % 2 ^ 63 * 2
    omega
  have hsize : AddressSpace.size = 2 ^ 64 := rfl
  rw [shiftIn, UInt64.toNat_or, hup, hbit, ← Nat.shiftLeft_add_eq_or_of_lt hb, Nat.shiftLeft_eq, hsize]
  omega

theorem toNat_foldl_shiftIn (bits : Bits) (w : Word) :
    (bits.foldl shiftIn w).toNat = bits.foldl (fun n b => 2 * n + b.toNat) w.toNat % AddressSpace.size := by
  induction bits generalizing w with
  | nil => exact (Nat.mod_eq_of_lt w.toNat_lt).symm
  | cons b bits ih =>
    rw [List.foldl_cons, List.foldl_cons, ih, toNat_shiftIn, Bits.foldl_toNat, Bits.foldl_toNat, Nat.shiftLeft_eq,
      Nat.shiftLeft_eq, Nat.add_mod, Nat.mod_mul_mod, ← Nat.add_mod]

/-- Up to 64 bits that a zero word takes in are all kept. -/
theorem toNat_foldl_shiftIn_zero {bits : Bits} (h : bits.length ≤ AddressSpace.width) :
    (bits.foldl shiftIn 0).toNat = bits.toNat := by
  have hlt : bits.toNat < AddressSpace.size := by
    refine Nat.lt_of_lt_of_le bits.toNat_lt ?_
    rw [AddressSpace.size, Nat.shiftLeft_eq, Nat.shiftLeft_eq, Nat.one_mul, Nat.one_mul]
    exact Nat.pow_le_pow_right (by decide) h
  rw [toNat_foldl_shiftIn]
  exact Nat.mod_eq_of_lt hlt

section Read

variable {σ : Type} [BitSource σ]

/-- Takes in the next bits of a source. -/
def readAfter (w : Word) : (count : Nat) → σ → Option (Word × σ)
  | 0, s => some (w, s)
  | count + 1, s =>
    match BitSource.next? s with
    | none => none
    | some (b, s) => (w.shiftIn b).readAfter count s

/-- The word in the next 64 bits, if that many are left. -/
def read? (s : σ) : Option (Word × σ) :=
  readAfter 0 AddressSpace.width s

variable {view : σ → Bits}

theorem readAfter_eq (h : BitSource.SeenAs view) (w : Word) (count : Nat) (s : σ) :
    (w.readAfter count s).map (fun r => (r.1, view r.2)) =
      if count ≤ (view s).length then some (((view s).take count).foldl shiftIn w, (view s).drop count) else none := by
  induction count generalizing w s with
  | zero => simp [readAfter]
  | succ count ih =>
    rw [readAfter]
    cases hs : BitSource.next? s with
    | none => simp [h.eq_nil hs]
    | some r => simp [h.eq_cons hs, ih]

theorem read?_eq (h : BitSource.SeenAs view) (s : σ) :
    (read? s).map (fun r => (r.1.toNat, view r.2)) = if AddressSpace.width ≤ (view s).length then
      some (Bits.toNat ((view s).take AddressSpace.width), (view s).drop AddressSpace.width) else none := by
  have hread := congrArg (Option.map fun r => (r.1.toNat, r.2)) (readAfter_eq h 0 AddressSpace.width s)
  rw [Option.map_map] at hread
  refine hread.trans ?_
  split
  next => rw [Option.map_some, toNat_foldl_shiftIn_zero (List.length_take_le _ _)]
  next => rfl

/-- A word's bits are read as the word, and what is behind them is left. -/
theorem read?_of_bits (h : BitSource.SeenAs view) {w : Word} {s : σ} {rest : Bits}
    (hs : view s = Bits.ofNat AddressSpace.width w.toNat ++ rest) :
    ∃ after, read? s = some (w, after) ∧ view after = rest := by
  have hlen : (Bits.ofNat AddressSpace.width w.toNat).length = AddressSpace.width := Bits.length_ofNat _ _
  have hword : (Bits.ofNat AddressSpace.width w.toNat).toNat = w.toNat := by
    rw [Bits.toNat_ofNat]
    exact Nat.mod_eq_of_lt w.toNat_lt
  have hread := read?_eq h s
  rw [hs, List.length_append, hlen, if_pos (Nat.le_add_right _ _), List.take_left' hlen, List.drop_left' hlen,
    hword] at hread
  obtain ⟨⟨v, after⟩, hv, hafter⟩ := Option.map_eq_some_iff.1 hread
  obtain ⟨hnumber, hrest⟩ := Prod.mk.inj hafter
  obtain rfl : v = w := UInt64.toNat_inj.1 hnumber
  exact ⟨after, hv, hrest⟩

theorem read?_eq_none_iff (h : BitSource.SeenAs view) {s : σ} :
    read? s = none ↔ (view s).length < AddressSpace.width := by
  rw [← Option.map_eq_none_iff (f := fun r : Word × σ => (r.1.toNat, view r.2)), read?_eq h, ite_eq_right_iff]
  simp

end Read

end Word

end BitStore
