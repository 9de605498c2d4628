import BitStore.Bits.Cursor
import BitStore.Fault
import BitStore.Value.Codec

/-! A storage is a run of bytes that grows at its end. Reading starts at the byte
that holds the requested bit; what a cursor at an address has left to read is
the storage's bits from that address on. Writing fills a gap before the written
bytes with zeros, overwrites in place and appends past the end. A gap that memory
has no room for is refused before anything changes. -/

namespace BitStore

structure Storage where
  bytes : List UInt8
  deriving DecidableEq

/-- A change to a storage that may be refused. -/
abbrev Storage.Change := EStateM Fault Storage

namespace Storage

/-! ### Reading -/

/-- The bytes from the one that holds the given bit to the end. -/
def readAt (s : Storage) (a : Address) : List UInt8 :=
  s.bytes.drop a.byteIndex

/-- A cursor at the given bit, if the storage reaches up to it. -/
def bitsAt (s : Storage) (a : Address) : Option BitCursor :=
  match (BitCursor.ofBytes (s.readAt a)).skip a.bitInByte with
  | (true, c) => some c
  | (false, _) => none

/-- The number in the 64 bits at an address. -/
def countAt (s : Storage) (a : Address) : Option Nat := do
  let cursor ← s.bitsAt a
  (cursor.readNat? AddressSpace.width).map Prod.fst

/-- The `width` bits at an address, as a tuple. -/
def access (s : Storage) (a : Address) (width : Nat) : Option Value := do
  let cursor ← s.bitsAt a
  (cursor.take? width).map fun (bits, _) => .ofBits bits

/-! ### Writing -/

/-- Whether a storage of this length in bytes can grow by so many more. -/
abbrev Memory := (length gap : Nat) → Bool

/-- Room for whatever a process can address on the usual machines. -/
def Memory.usual : Memory :=
  fun _ gap => gap ≤ 1 <<< 47

/-- The storage, with zeros up to the given length if it is shorter. -/
def extended (s : Storage) (length : Nat) : Storage :=
  ⟨s.bytes ++ List.replicate (length - s.bytes.length) 0⟩

/-- Fills a shorter storage with zeros up to the given length, if there is memory for them. -/
def extendTo (memory : Memory) (length : Nat) : Change Unit := do
  let s ← get
  if length ≤ s.bytes.length ∨ memory s.bytes.length (length - s.bytes.length) then
    set (s.extended length)
  else
    throw (.storageExhausted length)

/-- Puts bytes at a position, over what is there and on past the end. -/
def overwrite (s : Storage) (position : Nat) (bytes : List UInt8) : Storage :=
  ⟨s.bytes.take position ++ bytes ++ s.bytes.drop (position + bytes.length)⟩

/-- Writes bytes from the one that holds the given bit onwards. -/
def writeAt (a : Address) (bytes : List UInt8) (memory : Memory := Memory.usual) : Change Unit := do
  extendTo memory a.byteIndex
  modify (overwrite · a.byteIndex bytes)

/-- Writes the plain bits of a value at address zero. -/
def writeValue (v : Value) (memory : Memory := Memory.usual) : Change Unit :=
  match v.toBytes with
  | .ok bytes => writeAt .zero bytes memory
  | .error e => throw (.value e)

/-- Drops everything after the first `length` bytes. -/
def truncate (s : Storage) (length : Nat) : Storage :=
  ⟨s.bytes.take length⟩

/-! ### What is left to read at an address -/

/-- All the bits of a storage. -/
def toBits (s : Storage) : Bits :=
  Bits.ofBytes s.bytes

@[simp] theorem length_toBits (s : Storage) : s.toBits.length = 8 * s.bytes.length :=
  Bits.length_ofBytes s.bytes

theorem ofBytes_readAt (s : Storage) (a : Address) :
    (Bits.ofBytes (s.readAt a)).drop a.bitInByte = s.toBits.drop a.bits := by
  rw [readAt, Bits.ofBytes_drop, List.drop_drop, toBits, Address.byteIndex, Address.bitInByte, Nat.div_add_mod]

/-- A cursor exists exactly if the byte of the address does or its first bit is asked for. -/
theorem bitsAt_eq (s : Storage) (a : Address) :
    (s.bitsAt a).map BitCursor.toBits =
      if a.bitInByte ≤ 8 * (s.bytes.length - a.byteIndex) then some (s.toBits.drop a.bits) else none := by
  have hfst := BitCursor.skip_fst a.bitInByte (.ofBytes (s.readAt a))
  have hsnd := BitCursor.toBits_skip a.bitInByte (.ofBytes (s.readAt a))
  rw [BitCursor.toBits_ofBytes, ofBytes_readAt] at hsnd
  rw [BitCursor.toBits_ofBytes, Bits.length_ofBytes, show (s.readAt a).length = _ from List.length_drop] at hfst
  unfold bitsAt
  generalize (BitCursor.ofBytes (s.readAt a)).skip a.bitInByte = r at hfst hsnd
  obtain ⟨b, c⟩ := r
  cases b with
  | true => rw [if_pos (of_decide_eq_true hfst.symm), ← hsnd]; rfl
  | false => rw [if_neg (of_decide_eq_false hfst.symm)]; rfl

theorem access_eq (s : Storage) (a : Address) (width : Nat) :
    s.access a width = ((s.bitsAt a).map BitCursor.toBits).bind fun bits =>
      if width ≤ bits.length then some (.ofBits (bits.take width)) else none := by
  unfold access
  cases s.bitsAt a with
  | none => rfl
  | some c =>
    have h := congrArg (Option.map Value.ofBits) (c.take?_fst width)
    rw [Option.map_map, apply_ite (Option.map Value.ofBits)] at h
    exact h

theorem countAt_eq (s : Storage) (a : Address) :
    s.countAt a = ((s.bitsAt a).map BitCursor.toBits).bind fun bits =>
      if AddressSpace.width ≤ bits.length then some (Bits.toNat (bits.take AddressSpace.width)) else none := by
  unfold countAt
  cases s.bitsAt a with
  | none => rfl
  | some c => exact c.readNat?_fst AddressSpace.width

end Storage

end BitStore
