import BitStore.Bits.Basic

/-! Packing bits into bytes. A packer over a byte container adds a byte each
time eight bits have arrived; `finish` fills the last byte with zeros. The view
`toBits` grows by exactly the pushed bit, and the finished bytes hold it
followed by fewer than eight zeros. -/

namespace BitStore

/-- A place that bits are appended to, one at a time. -/
class BitSink (σ : Type) where
  push : σ → Bool → σ

instance : BitSink (Array Bool) := ⟨Array.push⟩

/-- Bytes packed so far, and the bits that wait for their byte to fill. -/
structure BitPacker where
  bytes : Array UInt8
  pending : Bits
  pending_lt : pending.length < 8

namespace BitPacker

/-- A packer that adds to the bytes a container already holds. -/
def onto (bytes : Array UInt8) : BitPacker :=
  ⟨bytes, [], by decide⟩

def push (p : BitPacker) (b : Bool) : BitPacker :=
  if h : p.pending.length = 7 then
    ⟨p.bytes.push (Bits.toByte (p.pending ++ [b])), [], by decide⟩
  else
    ⟨p.bytes, p.pending ++ [b], by have := p.pending_lt; simp; omega⟩

instance : BitSink BitPacker := ⟨push⟩

/-- The number of bits that wait for their byte to fill. -/
def buffered (p : BitPacker) : Nat :=
  p.pending.length

/-- The bytes, with an unfinished one filled up with zeros. -/
def finish (p : BitPacker) : Array UInt8 :=
  if p.pending.isEmpty then p.bytes else p.bytes.push (Bits.toByte p.pending)

/-! ### The bits a packer holds -/

def toBits (p : BitPacker) : Bits :=
  Bits.ofBytes p.bytes.toList ++ p.pending

@[simp] theorem toBits_onto (bytes : Array UInt8) : (onto bytes).toBits = Bits.ofBytes bytes.toList := by
  simp [onto, toBits]

@[simp] theorem toBits_push (p : BitPacker) (b : Bool) : (p.push b).toBits = p.toBits ++ [b] := by
  unfold push
  split
  next h => simp [toBits, Bits.ofByte_toByte, h]
  next => simp [toBits]

@[simp] theorem toBits_foldl_push (bits : Bits) (p : BitPacker) :
    (bits.foldl push p).toBits = p.toBits ++ bits := by
  induction bits generalizing p with
  | nil => simp
  | cons b bits ih => simp [ih]

theorem buffered_push (p : BitPacker) (b : Bool) : (p.push b).buffered = (p.buffered + 1) % 8 := by
  have := p.pending_lt
  unfold push
  split
  next h => simp [buffered, h]
  next h => simp [buffered]; omega

/-- The finished bytes hold the packer's bits and fewer than eight zeros. -/
theorem ofBytes_finish (p : BitPacker) :
    Bits.ofBytes p.finish.toList = p.toBits ++ List.replicate ((8 - p.buffered) % 8) false := by
  have hlt := p.pending_lt
  unfold finish
  split
  next h => simp [toBits, buffered, List.isEmpty_iff.1 h]
  next h =>
    have hpos : 0 < p.pending.length := List.length_pos_iff.2 fun hnil => h (by simp [hnil])
    simp only [Array.toList_push, Bits.ofBytes_append, Bits.ofBytes_cons, Bits.ofBytes_nil,
      List.append_nil, Bits.ofByte_toByte (Nat.le_of_lt hlt), toBits, buffered, List.append_assoc]
    rw [Nat.mod_eq_of_lt (by omega)]

end BitPacker

namespace Bits

/-- The bytes that hold a run of bits, the last one filled up with zeros. -/
def toBytes (bits : Bits) : List UInt8 :=
  (bits.foldl BitPacker.push (.onto #[])).finish.toList

theorem buffered_foldl_push (bits : Bits) (p : BitPacker) :
    (bits.foldl BitPacker.push p).buffered = (p.buffered + bits.length) % 8 := by
  induction bits generalizing p with
  | nil => exact (Nat.mod_eq_of_lt p.pending_lt).symm
  | cons b bits ih => rw [List.foldl_cons, ih, BitPacker.buffered_push, List.length_cons]; omega

/-- Packed bits read back as themselves and fewer than eight zeros. -/
theorem ofBytes_toBytes (bits : Bits) :
    ofBytes (toBytes bits) = bits ++ List.replicate ((8 - bits.length % 8) % 8) false := by
  rw [toBytes, BitPacker.ofBytes_finish, BitPacker.toBits_foldl_push, buffered_foldl_push]
  simp [BitPacker.onto, BitPacker.buffered, BitPacker.toBits]

end Bits

end BitStore
