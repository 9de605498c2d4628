import BitStore.Proofs.Storage.BitAccess

/-! Bytes as shift registers. A packer that shifts each bit into its place in the unfinished byte,
and hands a finished byte on at once, does to any byte sink what the packer of bit runs
does to its bytes. A cursor that keeps the opened byte and a countdown, and shifts the next
bit down out of it, reads what the cursor over a run of bits reads. Both go in lockstep
from every state. -/

namespace BitStore

/-- A place that bytes are appended to, one at a time. -/
class ByteSink (σ : Type) where
  append : σ → UInt8 → σ

instance : ByteSink (Array UInt8) := ⟨Array.push⟩

/-! ### Places in a byte -/

namespace Bits

theorem toNat_replicate_false (n : Nat) : toNat (List.replicate n false) = 0 := by
  induction n with
  | zero => rfl
  | succ n ih => rw [List.replicate_succ, toNat_cons, ih, Bool.toNat_false, Nat.zero_shiftLeft]

theorem toNat_toByte {bits : Bits} (h : bits.length ≤ 8) :
    (toByte bits).toNat = toNat bits <<< (8 - bits.length) := by
  have hlen : (bits ++ List.replicate (8 - bits.length) false).length = 8 := by simp; omega
  have hlt := toNat_lt (bits ++ List.replicate (8 - bits.length) false)
  rw [hlen, Nat.one_shiftLeft] at hlt
  rw [toByte, UInt8.toNat_ofNat', Nat.mod_eq_of_lt hlt, toNat_append, toNat_replicate_false, List.length_replicate,
    Nat.add_zero]

/-- The next bit of an unfinished byte is put in its place by a shift. -/
theorem toByte_append_singleton {bits : Bits} (h : bits.length < 8) (b : Bool) :
    toByte (bits ++ [b]) = toByte bits ||| b.toUInt8 <<< UInt8.ofNat (7 - bits.length) := by
  have hb : b.toNat < 2 ^ 1 := Bool.toNat_lt b
  have hlen : (bits ++ [b]).length = bits.length + 1 := List.length_append
  have hbyte : b.toUInt8.toNat = b.toNat := by cases b <;> rfl
  have hplace : (UInt8.ofNat (7 - bits.length)).toNat % 8 = 7 - bits.length := by
    rw [UInt8.toNat_ofNat']
    omega
  have hsmall : b.toNat <<< (7 - bits.length) < 2 ^ 8 := by
    rw [Nat.shiftLeft_eq]
    calc b.toNat * 2 ^ (7 - bits.length) ≤ 1 * 2 ^ 7 :=
          Nat.mul_le_mul (Nat.le_of_lt_succ hb) (Nat.pow_le_pow_right (by decide) (Nat.sub_le 7 _))
      _ < 2 ^ 8 := by decide
  apply UInt8.toNat_inj.1
  rw [UInt8.toNat_or, UInt8.toNat_shiftLeft, hbyte, hplace, Nat.mod_eq_of_lt hsmall, toNat_toByte (Nat.le_of_lt h),
    toNat_toByte (by omega), toNat_append, hlen]
  have hone : toNat [b] = b.toNat := by cases b <;> rfl
  have hleft : 8 - bits.length = 1 + (7 - bits.length) := by omega
  have hright : 8 - (bits.length + 1) = 7 - bits.length := by omega
  rw [hone, List.length_singleton, hleft, hright, Nat.shiftLeft_add_eq_or_of_lt hb, Nat.shiftLeft_or_distrib,
    ← Nat.shiftLeft_add]

/-- A bit of a byte is shifted down to the end and the others are masked out. -/
theorem testBit_eq_shiftRight (byte : UInt8) {place : Nat} (h : place < 8) :
    byte.toNat.testBit place = ((byte >>> UInt8.ofNat place) &&& 1 != 0) := by
  have hplace : (UInt8.ofNat place).toNat % 8 = place := by
    rw [UInt8.toNat_ofNat']
    omega
  have hbit : ((byte >>> UInt8.ofNat place) &&& 1).toNat = 1 &&& byte.toNat >>> place := by
    rw [UInt8.toNat_and, UInt8.toNat_shiftRight, hplace, Nat.and_comm]
    rfl
  rw [Nat.testBit, ← hbit, Bool.eq_iff_iff, bne_iff_ne, bne_iff_ne, ne_eq, ne_eq, ← UInt8.toNat_inj]
  rfl

end Bits

/-! ### Packing -/

/-- Packs bits into bytes for a byte sink. The register holds the bits that wait for their byte to
fill, from its most significant bit on. It is cleared when the first bit of a byte comes. -/
structure ShiftPacker (σ : Type) where
  sink : σ
  register : UInt8
  filled : Nat
  filled_lt : filled < 8

namespace ShiftPacker

variable {σ : Type} [ByteSink σ]

def onto (sink : σ) : ShiftPacker σ :=
  ⟨sink, 0, 0, by decide⟩

def push (r : ShiftPacker σ) (b : Bool) : ShiftPacker σ :=
  let cleared := if r.filled = 0 then 0 else r.register
  let register := cleared ||| b.toUInt8 <<< UInt8.ofNat (7 - r.filled)
  if h : r.filled = 7 then
    ⟨ByteSink.append r.sink register, register, 0, by decide⟩
  else
    ⟨r.sink, register, r.filled + 1, by have := r.filled_lt; omega⟩

/-- The sink, after an unfinished byte was handed to it as well. -/
def finish (r : ShiftPacker σ) : σ :=
  if r.filled = 0 then r.sink else ByteSink.append r.sink r.register

/-- The sink has the packer's bytes, in the given view of them, and the register its pending bits. -/
structure Follows (view : Array UInt8 → σ) (r : ShiftPacker σ) (p : BitPacker) : Prop where
  sink : r.sink = view p.bytes
  filled : r.filled = p.buffered
  register : r.filled ≠ 0 → r.register = Bits.toByte p.pending

namespace Follows

variable {view : Array UInt8 → σ} {r : ShiftPacker σ} {p : BitPacker}

omit [ByteSink σ] in
theorem onto (bytes : Array UInt8) : Follows view (onto (view bytes)) (.onto bytes) where
  sink := rfl
  filled := rfl
  register h := absurd rfl h

variable (hview : ∀ bytes byte, view (bytes.push byte) = ByteSink.append (view bytes) byte)
include hview

theorem push (h : Follows view r p) (b : Bool) : Follows view (r.push b) (p.push b) := by
  have hlt := p.pending_lt
  have hfilled : r.filled = p.pending.length := h.filled
  have hcleared : (if r.filled = 0 then 0 else r.register) = Bits.toByte p.pending := by
    split
    next hzero =>
      rw [List.eq_nil_of_length_eq_zero (hfilled.symm.trans hzero)]
      rfl
    next hpos => exact h.register hpos
  have hregister : (if r.filled = 0 then 0 else r.register) ||| b.toUInt8 <<< UInt8.ofNat (7 - r.filled) =
      Bits.toByte (p.pending ++ [b]) := by
    rw [hcleared, hfilled, Bits.toByte_append_singleton hlt]
  unfold ShiftPacker.push BitPacker.push
  by_cases hfull : p.pending.length = 7
  · rw [dif_pos (hfilled.trans hfull), dif_pos hfull]
    refine ⟨?_, rfl, fun hzero => absurd rfl hzero⟩
    simp only [hregister, h.sink, hview]
  · rw [dif_neg (hfilled ▸ hfull), dif_neg hfull]
    refine ⟨h.sink, ?_, fun _ => hregister⟩
    simp only [hfilled, BitPacker.buffered, List.length_append, List.length_singleton]

theorem pushAll (h : Follows view r p) (bits : Bits) :
    Follows view (bits.foldl ShiftPacker.push r) (bits.foldl BitPacker.push p) := by
  induction bits generalizing r p with
  | nil => exact h
  | cons b bits ih => exact ih (push hview h b)

theorem finish (h : Follows view r p) : r.finish = view p.finish := by
  unfold ShiftPacker.finish BitPacker.finish
  have hfilled : r.filled = p.pending.length := h.filled
  by_cases hzero : r.filled = 0
  · have hnil : p.pending = [] := List.eq_nil_of_length_eq_zero (hfilled.symm.trans hzero)
    rw [if_pos hzero, if_pos (by rw [hnil]; rfl), h.sink]
  · have hpos : ¬p.pending.isEmpty = true := fun hempty => hzero (by rw [hfilled, List.isEmpty_iff.1 hempty]; rfl)
    rw [if_neg hzero, if_neg hpos, hview, h.sink, h.register hzero]

end Follows

end ShiftPacker

/-! ### Reading -/

/-- Reads bytes bit by bit. Of the register's bits the lowest are still to be read, as many as the countdown says. -/
structure ShiftCursor where
  bytes : List UInt8
  register : UInt8
  left : Nat
  left_le : left ≤ 8

namespace ShiftCursor

def ofBytes (bytes : List UInt8) : ShiftCursor :=
  ⟨bytes, 0, 0, by decide⟩

/-- Opens a byte if the bits of the one before are used up. -/
def refill? (r : ShiftCursor) : Option ShiftCursor :=
  if r.left = 0 then
    match r.bytes with
    | [] => none
    | byte :: bytes => some ⟨bytes, byte, 8, by decide⟩
  else some r

def next? (r : ShiftCursor) : Option (Bool × ShiftCursor) := do
  let r ← r.refill?
  some ((r.register >>> UInt8.ofNat (r.left - 1)) &&& 1 != 0,
    ⟨r.bytes, r.register, r.left - 1, Nat.le_trans (Nat.sub_le _ _) r.left_le⟩)

instance : BitSource ShiftCursor := ⟨next?⟩

/-- Reads `n` bits and says whether there were as many. -/
def skip : (n : Nat) → ShiftCursor → Bool × ShiftCursor
  | 0, r => (true, r)
  | n + 1, r =>
    match r.next? with
    | none => (false, r)
    | some (_, r) => skip n r

/-- The cursor that has the unread bits of the register pending. -/
def toCursor (r : ShiftCursor) : BitCursor :=
  ⟨Bits.ofNat r.left r.register.toNat, r.bytes⟩

theorem next?_toCursor (r : ShiftCursor) : r.toCursor.next? = r.next?.map fun (b, r) => (b, r.toCursor) := by
  obtain ⟨bytes, register, left, hleft⟩ := r
  cases left with
  | zero =>
    cases bytes with
    | nil => rfl
    | cons byte bytes =>
      have hbit := Bits.testBit_eq_shiftRight byte (show 7 < 8 by decide)
      exact congrArg (fun b => some (b, BitCursor.mk (Bits.ofNat 7 byte.toNat) bytes)) hbit
  | succ n =>
    have hbit := Bits.testBit_eq_shiftRight register hleft
    exact congrArg (fun b => some (b, BitCursor.mk (Bits.ofNat n register.toNat) bytes)) hbit

theorem skip_toCursor (n : Nat) (r : ShiftCursor) :
    r.toCursor.skip n = ((r.skip n).1, (r.skip n).2.toCursor) := by
  induction n generalizing r with
  | zero => rfl
  | succ n ih =>
    rw [BitCursor.skip, skip, next?_toCursor]
    cases r.next? with
    | none => rfl
    | some s => exact ih s.2

theorem seenAs_toCursor : BitSource.SeenAs toCursor where
  next r := r.next?_toCursor

theorem seenAs_toBits : BitSource.SeenAs fun r : ShiftCursor => r.toCursor.toBits :=
  BitCursor.seenAs_toBits.comp seenAs_toCursor

theorem yields_iff {r : ShiftCursor} {bits : Bits} : BitSource.Yields r bits ↔ r.toCursor.toBits = bits :=
  seenAs_toBits.yields_iff

end ShiftCursor

end BitStore
