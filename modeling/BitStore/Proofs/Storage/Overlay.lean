import BitStore.Proofs.Bits.Framing

/-! What a write leaves. A writer puts one byte after the other over those of the storage, and behind its
last one from there on. Memory may refuse to fill the gap that there is where the writer would
start past the end, and no other write fails. So a write lays its bytes over the old ones, or over
zeros in the gap, and leaves every other byte alone. Putting all bytes at once, after the gap
is filled, comes to the same. -/

namespace BitStore

namespace Storage

/-! ### Writers -/

/-- Bytes are put one after the other at a position in a storage. -/
structure Writer where
  storage : Storage
  position : Nat

/-- Puts a byte over the one at the position, or behind the last one, and moves on. -/
def Writer.append (w : Writer) (byte : UInt8) : Writer :=
  if w.position < w.storage.bytes.length then
    ⟨⟨w.storage.bytes.set w.position byte⟩, w.position + 1⟩
  else
    ⟨⟨w.storage.bytes ++ [byte]⟩, w.position + 1⟩

instance : ByteSink Writer := ⟨Writer.append⟩

/-- A writer at the byte that holds the given bit. Where the storage ends before it, zeros fill the gap,
if there is memory for it. -/
def writerAt (memory : Memory) (a : Address) : EStateM Fault Storage Writer := do
  let s ← get
  if a.byteIndex ≤ s.bytes.length then
    return ⟨s, a.byteIndex⟩
  else if memory s.bytes.length (a.byteIndex - s.bytes.length) then
    let filled := Storage.mk (s.bytes ++ List.replicate (a.byteIndex - s.bytes.length) 0)
    set filled
    return ⟨filled, a.byteIndex⟩
  else
    throw (.storageExhausted a.byteIndex)

/-- Writes bytes one by one from the byte that holds the given bit onwards. -/
def writeThrough (memory : Memory) (a : Address) (bytes : List UInt8) : Change Unit := do
  let w ← writerAt memory a
  set (bytes.foldl Writer.append w).storage

variable {s : Storage} {position : Nat}

/-! ### Overwriting -/

theorem length_overwrite (h : position ≤ s.bytes.length) (bytes : List UInt8) :
    (s.overwrite position bytes).bytes.length = max s.bytes.length (position + bytes.length) := by
  simp only [overwrite, List.length_append, List.length_take, List.length_drop]
  omega

/-- A byte of what is written stands at its place, and every other place is as it was. -/
theorem getElem?_overwrite (h : position ≤ s.bytes.length) (bytes : List UInt8) (j : Nat) :
    (s.overwrite position bytes).bytes[j]? =
      if position ≤ j ∧ j < position + bytes.length then bytes[j - position]? else s.bytes[j]? := by
  have hfront : (s.bytes.take position).length = position := List.length_take_of_le h
  by_cases hbefore : j < position
  · rw [if_neg (by omega), overwrite, List.append_assoc, List.getElem?_append_left (by omega),
      List.getElem?_take_of_lt hbefore]
  by_cases hinside : j < position + bytes.length
  · rw [if_pos ⟨by omega, hinside⟩, overwrite, List.getElem?_append_left (by rw [List.length_append]; omega),
      List.getElem?_append_right (by omega), hfront]
  · rw [if_neg (by omega), overwrite, List.getElem?_append_right (by rw [List.length_append]; omega),
      List.length_append, hfront, List.getElem?_drop]
    congr 1
    omega

theorem drop_overwrite (h : position ≤ s.bytes.length) (bytes : List UInt8) :
    (s.overwrite position bytes).bytes.drop position = bytes ++ s.bytes.drop (position + bytes.length) := by
  have hfront : (s.bytes.take position).length = position := List.length_take_of_le h
  rw [overwrite, List.append_assoc, List.drop_append_of_le_length (Nat.le_of_eq hfront.symm),
    List.drop_eq_nil_of_le (Nat.le_of_eq hfront), List.nil_append]

theorem overwrite_overwrite (h : position ≤ s.bytes.length) (front back : List UInt8) :
    (s.overwrite position front).overwrite (position + front.length) back = s.overwrite position (front ++ back) := by
  have hlen : (s.bytes.take position ++ front).length = position + front.length := by
    rw [List.length_append, List.length_take_of_le h]
  have htake : (s.overwrite position front).bytes.take (position + front.length) = s.bytes.take position ++ front := by
    rw [overwrite, ← hlen, List.take_left]
  have hdrop : (s.overwrite position front).bytes.drop (position + front.length + back.length) =
      s.bytes.drop (position + (front ++ back).length) := by
    rw [← List.drop_drop, ← List.drop_drop, drop_overwrite h, List.drop_left, List.drop_drop, List.length_append,
      Nat.add_assoc]
  rw [overwrite, htake, hdrop, List.append_assoc (s.bytes.take position) front back]
  rfl

/-! ### Byte by byte -/

theorem Writer.append_eq (w : Writer) (h : w.position ≤ w.storage.bytes.length) (byte : UInt8) :
    w.append byte = ⟨w.storage.overwrite w.position [byte], w.position + 1⟩ := by
  unfold Writer.append
  split
  next hin =>
    rw [List.set_eq_take_append_cons_drop, if_pos hin, overwrite, List.append_assoc]
    rfl
  next hout =>
    rw [overwrite, List.take_of_length_le (by omega), List.drop_eq_nil_of_le (by omega), List.append_nil]

/-- Bytes that are put one after the other are put over what is there and on past the end. -/
theorem foldl_append (bytes : List UInt8) (w : Writer) (h : w.position ≤ w.storage.bytes.length) :
    bytes.foldl Writer.append w = ⟨w.storage.overwrite w.position bytes, w.position + bytes.length⟩ := by
  induction bytes generalizing w with
  | nil =>
    rw [overwrite, List.append_nil, List.length_nil, Nat.add_zero, List.take_append_drop]
    rfl
  | cons byte bytes ih =>
    have hnext : w.position + 1 ≤ (w.storage.overwrite w.position [byte]).bytes.length := by
      rw [length_overwrite h]
      exact Nat.le_max_right _ _
    rw [List.foldl_cons, Writer.append_eq w h, ih _ hnext]
    have hstorage := overwrite_overwrite h [byte] bytes
    rw [List.length_singleton, List.singleton_append] at hstorage
    rw [hstorage, List.length_cons, Nat.add_right_comm]
    rfl

/-! ### The gap -/

theorem le_length_extended (s : Storage) (length : Nat) : length ≤ (s.extended length).bytes.length := by
  rw [extended, List.length_append, List.length_replicate]
  omega

theorem extended_of_le (h : position ≤ s.bytes.length) : s.extended position = s := by
  rw [extended, Nat.sub_eq_zero_of_le h, List.replicate_zero, List.append_nil]

theorem writerAt_run (memory : Memory) (a : Address) (s : Storage) : (writerAt memory a).run s =
    if a.byteIndex ≤ s.bytes.length ∨ memory s.bytes.length (a.byteIndex - s.bytes.length) then
      .ok ⟨s.extended a.byteIndex, a.byteIndex⟩ (s.extended a.byteIndex)
    else .error (.storageExhausted a.byteIndex) s := by
  rw [writerAt, EStateM.run_bind, EStateM.run_get]
  by_cases hle : a.byteIndex ≤ s.bytes.length
  · rw [if_pos (Or.inl hle), extended_of_le hle]
    simp only [if_pos hle]
    rfl
  · by_cases hmem : memory s.bytes.length (a.byteIndex - s.bytes.length) = true
    · simp only [if_neg hle, hmem, or_true, if_true]
      rfl
    · simp only [hle, hmem]
      rfl

theorem writeThrough_run (memory : Memory) (a : Address) (bytes : List UInt8) (s : Storage) :
    (writeThrough memory a bytes).run s =
      if a.byteIndex ≤ s.bytes.length ∨ memory s.bytes.length (a.byteIndex - s.bytes.length) then
        .ok () ((s.extended a.byteIndex).overwrite a.byteIndex bytes)
      else .error (.storageExhausted a.byteIndex) s := by
  rw [writeThrough, EStateM.run_bind, writerAt_run]
  by_cases hgranted : a.byteIndex ≤ s.bytes.length ∨ memory s.bytes.length (a.byteIndex - s.bytes.length)
  · have hwritten := foldl_append bytes ⟨s.extended a.byteIndex, a.byteIndex⟩ (s.le_length_extended a.byteIndex)
    simp only [if_pos hgranted, hwritten, EStateM.run_set]
  · simp only [if_neg hgranted]

theorem extendTo_run (memory : Memory) (length : Nat) (s : Storage) : (extendTo memory length).run s =
    if length ≤ s.bytes.length ∨ memory s.bytes.length (length - s.bytes.length) then .ok () (s.extended length)
    else .error (.storageExhausted length) s := by
  rw [extendTo, EStateM.run_bind, EStateM.run_get]
  by_cases hgranted : length ≤ s.bytes.length ∨ memory s.bytes.length (length - s.bytes.length)
  · simp only [if_pos hgranted]
    rfl
  · simp only [if_neg hgranted]
    rfl

/-- Putting all bytes at once comes to the same as putting them one by one. -/
theorem writeAt_eq_writeThrough (memory : Memory) (a : Address) (bytes : List UInt8) :
    writeAt a bytes memory = writeThrough memory a bytes := by
  funext s
  refine Eq.trans ?_ (writeThrough_run memory a bytes s).symm
  refine (EStateM.run_bind (extendTo memory a.byteIndex) _).trans ?_
  rw [extendTo_run]
  by_cases hgranted : a.byteIndex ≤ s.bytes.length ∨ memory s.bytes.length (a.byteIndex - s.bytes.length)
  · simp only [if_pos hgranted]
    rfl
  · simp only [if_neg hgranted]

/-! ### What is there after a write -/

/-- The written bytes lie over the old ones from the position on, and zeros fill a gap before them. -/
structure Overlays (old new : Storage) (position : Nat) (written : List UInt8) : Prop where
  length : new.bytes.length = max old.bytes.length (position + written.length)
  inside : ∀ j, position ≤ j → j < position + written.length → new.bytes[j]? = written[j - position]?
  outside : ∀ j < old.bytes.length, j < position ∨ position + written.length ≤ j → new.bytes[j]? = old.bytes[j]?
  gap : ∀ j, old.bytes.length ≤ j → j < position → new.bytes[j]? = some 0

theorem overlays (old : Storage) (position : Nat) (written : List UInt8) :
    Overlays old ((old.extended position).overwrite position written) position written := by
  have hreach := old.le_length_extended position
  have hlen : (old.extended position).bytes.length = max old.bytes.length position := by
    rw [extended, List.length_append, List.length_replicate]
    omega
  constructor
  case length =>
    rw [length_overwrite hreach, hlen]
    omega
  case inside =>
    intro j hfrom hto
    rw [getElem?_overwrite hreach, if_pos ⟨hfrom, hto⟩]
  case outside =>
    intro j hj hout
    rw [getElem?_overwrite hreach, if_neg (by omega), extended, List.getElem?_append_left hj]
  case gap =>
    intro j hj hbefore
    rw [getElem?_overwrite hreach, if_neg (by omega), extended, List.getElem?_append_right hj,
      List.getElem?_replicate_of_lt (by omega)]

theorem drop_extended {length : Nat} (old : Storage) {n : Nat} (h : length ≤ n) :
    (old.extended length).bytes.drop n = old.bytes.drop n := by
  have hzeros : (List.replicate (length - old.bytes.length) (0 : UInt8)).drop (n - old.bytes.length) = [] :=
    List.drop_eq_nil_of_le (by rw [List.length_replicate]; omega)
  rw [extended, List.drop_append, hzeros, List.append_nil]

theorem readAt_eq_drop_min (s : Storage) (a : Address) :
    s.readAt a = s.bytes.drop (min a.byteIndex s.bytes.length) := by
  rw [readAt]
  by_cases h : a.byteIndex ≤ s.bytes.length
  · rw [Nat.min_eq_left h]
  · rw [Nat.min_eq_right (by omega), List.drop_length, List.drop_eq_nil_of_le (by omega)]

/-! ### Bits at the border of a byte -/

/-- Bits that are packed into a writer one by one are put there as the bytes that they make up. -/
theorem finish_foldl_push (bits : Bits) (w : Writer) :
    (bits.foldl ShiftPacker.push (.onto w)).finish = bits.toBytes.foldl Writer.append w := by
  let view (bytes : Array UInt8) : Writer := bytes.toList.foldl Writer.append w
  have hview (bytes : Array UInt8) (byte : UInt8) : view (bytes.push byte) = ByteSink.append (view bytes) byte := by
    simp only [view, Array.toList_push, List.foldl_append]
    rfl
  have hfollows : ShiftPacker.Follows view (bits.foldl ShiftPacker.push (.onto w))
      (bits.foldl BitPacker.push (.onto #[])) := .pushAll hview (.onto #[]) bits
  exact hfollows.finish hview

/-- From the border of the byte where it was written, a storage reads as the written bits, zeros up to the next
border, and what lay behind. -/
theorem bitsAt_overwrite {a : Address} (ha : a.isAligned = true) (old : Storage) (bits : Bits) :
    ∃ cursor, ((old.extended a.byteIndex).overwrite a.byteIndex bits.toBytes).bitsAt a = some cursor ∧
      BitSource.Yields cursor (bits ++ List.replicate ((8 - bits.length % 8) % 8) false ++
        Bits.ofBytes (old.bytes.drop (a.byteIndex + (bits.length + 7) / 8))) := by
  have hreach := old.le_length_extended a.byteIndex
  have hborder : a.bitInByte = 0 := of_decide_eq_true ha
  have hbits : 8 * a.byteIndex = a.bits := by
    rw [Address.bitInByte] at hborder
    rw [Address.byteIndex]
    omega
  have hcursor := ((old.extended a.byteIndex).overwrite a.byteIndex bits.toBytes).bitsAt_eq a
  rw [if_pos (by omega), toBits, ← hbits, ← Bits.ofBytes_drop, drop_overwrite hreach, drop_extended old (by omega),
    Bits.ofBytes_append, Bits.ofBytes_toBytes, Bits.length_toBytes] at hcursor
  obtain ⟨cursor, hsome, hyields⟩ := Option.map_eq_some_iff.1 hcursor
  exact ⟨cursor, hsome, BitCursor.yields_iff.2 hyields⟩

/-- Whichever way its bytes are put, a write is refused only for want of memory to fill a gap, and then changes
nothing. Otherwise it lays the bytes over the storage, with zeros in the gap, and whatever is read then starts at a byte of
the result or at its end. Bits packed into the border of a byte read back from there, up to
the zeros that fill their last byte, in front of what lay behind. -/
theorem writes_overlay (old : Storage) (a : Address) (memory : Memory) :
    (∀ bytes, writeAt a bytes memory = writeThrough memory a bytes) ∧
    (∀ bytes e new, (writeThrough memory a bytes).run old = .error e new →
      new = old ∧ e = .storageExhausted (a.bits / 8) ∧ old.bytes.length < a.bits / 8 ∧
        memory old.bytes.length (a.bits / 8 - old.bytes.length) = false) ∧
    (∀ bytes new, (writeThrough memory a bytes).run old = .ok () new →
      Overlays old new (a.bits / 8) bytes ∧
      ∀ b : Address, new.readAt b = new.bytes.drop (min (b.bits / 8) new.bytes.length)) ∧
    (∀ bits w opened, a.isAligned = true → (writerAt memory a).run old = .ok w opened →
      ∃ new cursor, (bits.foldl ShiftPacker.push (.onto w)).finish.storage = new ∧
        (writeThrough memory a bits.toBytes).run old = .ok () new ∧ new.bitsAt a = some cursor ∧
        BitSource.Yields cursor (bits ++ List.replicate ((8 - bits.length % 8) % 8) false ++
          Bits.ofBytes (old.bytes.drop (a.bits / 8 + (bits.length + 7) / 8)))) := by
  refine ⟨writeAt_eq_writeThrough memory a, fun bytes e new h => ?_, fun bytes new h => ?_, ?_⟩
  · rw [writeThrough_run] at h
    split at h
    next => cases h
    next hrefused =>
      cases h
      obtain ⟨hpast, hmemory⟩ := not_or.1 hrefused
      exact ⟨rfl, rfl, Nat.lt_of_not_le hpast, Bool.eq_false_iff.2 hmemory⟩
  · rw [writeThrough_run] at h
    split at h
    next =>
      cases h
      exact ⟨overlays old a.byteIndex bytes, readAt_eq_drop_min _⟩
    next => cases h
  · intro bits w opened ha hopened
    obtain ⟨cursor, hcursor, hyields⟩ := bitsAt_overwrite ha old bits
    rw [writerAt_run] at hopened
    split at hopened
    next hgranted =>
      cases hopened
      have hwritten := foldl_append bits.toBytes ⟨old.extended a.byteIndex, a.byteIndex⟩
        (old.le_length_extended a.byteIndex)
      refine ⟨_, cursor, ?_, ?_, hcursor, hyields⟩
      · rw [finish_foldl_push, hwritten]
      · rw [writeThrough_run, if_pos hgranted]
    next => cases hopened

/-- Past the end of two bytes a write leaves a byte of zeros in between, or nothing if memory refuses. Three
bits over the second byte are read back in front of five zeros. -/
theorem writes_overlay_past_the_end :
    ∃ new kept packed cursor,
      (writeThrough (fun _ _ => true) ⟨24, by decide⟩ [9]).run ⟨[1, 2]⟩ = .ok () new ∧ Overlays ⟨[1, 2]⟩ new 3 [9] ∧
      (writeThrough (fun _ _ => false) ⟨24, by decide⟩ [9]).run ⟨[1, 2]⟩ = .error (.storageExhausted 3) kept ∧
      kept = ⟨[1, 2]⟩ ∧
      (writeThrough (fun _ _ => false) ⟨8, by decide⟩ (Bits.toBytes [true, false, true])).run ⟨[1, 2]⟩ =
        .ok () packed ∧
      packed.bitsAt ⟨8, by decide⟩ = some cursor ∧
      BitSource.Yields cursor ([true, false, true] ++ List.replicate 5 false ++ Bits.ofBytes []) := by
  have hpast (memory : Memory) := writes_overlay ⟨[1, 2]⟩ ⟨24, by decide⟩ memory
  have hover (memory : Memory) := writes_overlay ⟨[1, 2]⟩ ⟨8, by decide⟩ memory
  have hwritten : (writeThrough (fun _ _ => true) ⟨24, by decide⟩ [9]).run ⟨[1, 2]⟩ = .ok () ⟨[1, 2, 0, 9]⟩ := by rfl
  have hrefused : (writeThrough (fun _ _ => false) ⟨24, by decide⟩ [9]).run ⟨[1, 2]⟩ =
      .error (.storageExhausted 3) ⟨[1, 2]⟩ := by rfl
  have hopened : (writerAt (fun _ _ => false) ⟨8, by decide⟩).run ⟨[1, 2]⟩ = .ok ⟨⟨[1, 2]⟩, 1⟩ ⟨[1, 2]⟩ := by rfl
  obtain ⟨packed, cursor, _, hpacked, hcursor, hyields⟩ :=
    (hover fun _ _ => false).2.2.2 [true, false, true] _ _ (by decide) hopened
  exact ⟨_, _, packed, cursor, hwritten, ((hpast fun _ _ => true).2.2.1 [9] _ hwritten).1, hrefused,
    ((hpast fun _ _ => false).2.1 [9] _ _ hrefused).1, hpacked, hcursor, hyields⟩

end Storage

end BitStore
