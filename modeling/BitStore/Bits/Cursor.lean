import BitStore.Bits.Source

/-! Reading bits one by one. A cursor opens a byte only when the bits of the one
before are used up; `toBits` is the flat list of what remains, and every reading
function takes from its front. Reading a dry cursor leaves it dry. -/

namespace BitStore

/-- The unread bits of an opened byte, and the bytes still closed. -/
structure BitCursor where
  pending : Bits
  bytes : List UInt8
  deriving DecidableEq

namespace BitCursor

def ofBits (bits : Bits) : BitCursor :=
  ⟨bits, []⟩

def ofBytes (bytes : List UInt8) : BitCursor :=
  ⟨[], bytes⟩

/-- Everything still unread. -/
def toBits (c : BitCursor) : Bits :=
  c.pending ++ Bits.ofBytes c.bytes

/-- The next bit and the cursor after it, if any bit is left. -/
def next? : BitCursor → Option (Bool × BitCursor)
  | ⟨b :: pending, bytes⟩ => some (b, ⟨pending, bytes⟩)
  | ⟨[], byte :: bytes⟩ => some (byte.toNat.testBit 7, ⟨Bits.ofNat 7 byte.toNat, bytes⟩)
  | ⟨[], []⟩ => none

instance : BitSource BitCursor := ⟨next?⟩

/-- Drops `n` bits. If fewer are left it drops those and answers `false`. -/
def skip : (n : Nat) → BitCursor → Bool × BitCursor
  | 0, c => (true, c)
  | n + 1, c =>
    match c.next? with
    | none => (false, c)
    | some (_, c) => skip n c

/-- Reads `n` bits in front of which `read` were read already, newest first. -/
def takeAfter (read : Bits) : (n : Nat) → BitCursor → Option (Bits × BitCursor)
  | 0, c => some (read.reverse, c)
  | n + 1, c =>
    match c.next? with
    | none => none
    | some (b, c) => takeAfter (b :: read) n c

/-- The next `n` bits, if that many are left. -/
def take? (n : Nat) (c : BitCursor) : Option (Bits × BitCursor) :=
  takeAfter [] n c

/-- Reads `width` further bits of a number whose leading bits denote `high`. -/
def readNatAfter (high : Nat) : (width : Nat) → BitCursor → Option (Nat × BitCursor)
  | 0, c => some (high, c)
  | w + 1, c =>
    match c.next? with
    | none => none
    | some (b, c) => readNatAfter (2 * high + b.toNat) w c

/-- The number in the next `width` bits, if that many are left. -/
def readNat? (width : Nat) (c : BitCursor) : Option (Nat × BitCursor) :=
  readNatAfter 0 width c

/-! ### What is left to read -/

@[simp] theorem toBits_ofBits (bits : Bits) : (ofBits bits).toBits = bits := by
  simp [ofBits, toBits]

@[simp] theorem toBits_ofBytes (bytes : List UInt8) : (ofBytes bytes).toBits = Bits.ofBytes bytes := rfl

theorem next?_eq_none_iff {c : BitCursor} : c.next? = none ↔ c.toBits = [] := by
  obtain ⟨_ | ⟨b, pending⟩, _ | ⟨byte, bytes⟩⟩ := c <;> simp [next?, toBits, Bits.ofByte, Bits.ofNat]

theorem toBits_of_next? {c d : BitCursor} {b : Bool} (h : c.next? = some (b, d)) :
    c.toBits = b :: d.toBits := by
  obtain ⟨_ | ⟨a, pending⟩, _ | ⟨byte, bytes⟩⟩ := c <;> simp only [next?, reduceCtorEq, Option.some.injEq,
    Prod.mk.injEq] at h
  all_goals
    obtain ⟨rfl, rfl⟩ := h
    simp [toBits, Bits.ofByte, Bits.ofNat]

theorem seenAs_toBits : BitSource.SeenAs toBits where
  next c := by
    cases h : BitSource.next? c with
    | none =>
      rw [next?_eq_none_iff.1 h]
      rfl
    | some r =>
      have hbits : c.toBits = r.1 :: r.2.toBits := toBits_of_next? h
      rw [hbits]
      rfl

theorem yields_iff {c : BitCursor} {bits : Bits} : BitSource.Yields c bits ↔ c.toBits = bits :=
  seenAs_toBits.yields_iff

theorem skip_fst (n : Nat) (c : BitCursor) : (c.skip n).1 = decide (n ≤ c.toBits.length) := by
  induction n generalizing c with
  | zero => simp [skip]
  | succ n ih =>
    match hn : c.next? with
    | none => simp [skip, hn, next?_eq_none_iff.1 hn]
    | some (b, d) => simp [skip, hn, ih, toBits_of_next? hn]

theorem toBits_skip (n : Nat) (c : BitCursor) : (c.skip n).2.toBits = c.toBits.drop n := by
  induction n generalizing c with
  | zero => simp [skip]
  | succ n ih =>
    match hn : c.next? with
    | none => simp [skip, hn, next?_eq_none_iff.1 hn]
    | some (b, d) => simp [skip, hn, ih, toBits_of_next? hn]

theorem takeAfter_eq (read : Bits) (n : Nat) (c : BitCursor) :
    (takeAfter read n c).map (fun r => (r.1, r.2.toBits)) =
      if n ≤ c.toBits.length then some (read.reverse ++ c.toBits.take n, c.toBits.drop n) else none := by
  induction n generalizing c read with
  | zero => simp [takeAfter]
  | succ n ih =>
    match hn : c.next? with
    | none => simp [takeAfter, hn, next?_eq_none_iff.1 hn]
    | some (b, d) => simp [takeAfter, hn, ih, toBits_of_next? hn]

/-- Taking splits the remaining bits, or fails when there are too few. -/
theorem take?_eq (n : Nat) (c : BitCursor) :
    (c.take? n).map (fun r => (r.1, r.2.toBits)) =
      if n ≤ c.toBits.length then some (c.toBits.take n, c.toBits.drop n) else none := by
  simp [take?, takeAfter_eq]

theorem take?_fst (n : Nat) (c : BitCursor) :
    (c.take? n).map Prod.fst = if n ≤ c.toBits.length then some (c.toBits.take n) else none := by
  have h := congrArg (Option.map Prod.fst) (c.take?_eq n)
  rw [Option.map_map, apply_ite (Option.map Prod.fst)] at h
  exact h

theorem readNatAfter_eq (high w : Nat) (c : BitCursor) :
    (readNatAfter high w c).map (fun r => (r.1, r.2.toBits)) =
      if w ≤ c.toBits.length then some ((c.toBits.take w).foldl (fun n b => 2 * n + b.toNat) high, c.toBits.drop w)
      else none := by
  induction w generalizing c high with
  | zero => simp [readNatAfter]
  | succ w ih =>
    match hn : c.next? with
    | none => simp [readNatAfter, hn, next?_eq_none_iff.1 hn]
    | some (b, d) => simp [readNatAfter, hn, ih, toBits_of_next? hn]

/-- Reading a number takes its bits, or fails when there are too few. -/
theorem readNat?_eq (w : Nat) (c : BitCursor) :
    (c.readNat? w).map (fun r => (r.1, r.2.toBits)) =
      if w ≤ c.toBits.length then some (Bits.toNat (c.toBits.take w), c.toBits.drop w) else none := by
  simp [readNat?, readNatAfter_eq, Bits.toNat]

theorem readNat?_fst (w : Nat) (c : BitCursor) :
    (c.readNat? w).map Prod.fst = if w ≤ c.toBits.length then some (Bits.toNat (c.toBits.take w)) else none := by
  have h := congrArg (Option.map Prod.fst) (c.readNat?_eq w)
  rw [Option.map_map, apply_ite (Option.map Prod.fst)] at h
  exact h

end BitCursor

end BitStore
