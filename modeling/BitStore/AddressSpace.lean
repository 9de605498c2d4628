/-! The space of bit addresses. An address is a bit offset below `2 ^ 64`, and
so are widths, counts and indices. Sums and products that leave the space are
errors; an element's address exists exactly when the whole sum fits. -/

namespace BitStore

namespace AddressSpace

/-- Bits in an address, and in the element count in front of a stored array. -/
def width : Nat := 64

/-- The number of addresses. -/
def size : Nat := 1 <<< width

end AddressSpace

/-- The result of a computation lies outside the address space. -/
structure Overflow where
  deriving DecidableEq

def Overflow.message (_ : Overflow) : String :=
  "address arithmetic overflowed the 64-bit address space"

namespace AddressSpace

def add (a b : Nat) : Except Overflow Nat :=
  if a + b < size then .ok (a + b) else .error ⟨⟩

def mul (a b : Nat) : Except Overflow Nat :=
  if a * b < size then .ok (a * b) else .error ⟨⟩

theorem mul_eq_ok_iff {a b n : Nat} : mul a b = .ok n ↔ n = a * b ∧ n < size := by
  unfold mul
  split
  next h => simp; constructor <;> grind
  next h => simp; grind

end AddressSpace

/-- A bit offset into storage. -/
structure Address where
  bits : Nat
  bits_lt : bits < AddressSpace.size := by decide
  deriving DecidableEq

namespace Address

def zero : Address := ⟨0, by decide⟩

/-- The address `n`, if the space has it. -/
def ofNat (n : Nat) : Except Overflow Address :=
  if h : n < AddressSpace.size then .ok ⟨n, h⟩ else .error ⟨⟩

/-- The first bit of byte `n`. -/
def ofBytes (n : Nat) : Except Overflow Address :=
  ofNat (n * 8)

/-- The byte that contains this bit. -/
def byteIndex (a : Address) : Nat :=
  a.bits / 8

/-- The position in its byte, counted from the most significant bit. -/
def bitInByte (a : Address) : Nat :=
  a.bits % 8

def isAligned (a : Address) : Bool :=
  a.bitInByte == 0

def add (a : Address) (n : Nat) : Except Overflow Address :=
  ofNat (a.bits + n)

/-- Where element `index` of an array starts whose count is at `start` and whose
elements are `width` bits wide. -/
def element (start : Address) (width index : Nat) : Except Overflow Address := do
  let first ← start.add AddressSpace.width
  let offset ← AddressSpace.mul width index
  first.add offset

def render (a : Address) : String :=
  "@" ++ toString a.byteIndex ++ ":" ++ toString a.bitInByte

@[simp] theorem bits_zero : zero.bits = 0 := rfl

theorem ofNat_eq_ok_iff {n : Nat} {a : Address} : ofNat n = .ok a ↔ a.bits = n := by
  unfold ofNat
  obtain ⟨m, hm⟩ := a
  split
  next h => simp [eq_comm]
  next h => simp; rintro rfl; exact h hm

theorem add_eq_ok_iff {a b : Address} {n : Nat} : a.add n = .ok b ↔ b.bits = a.bits + n :=
  ofNat_eq_ok_iff

theorem element_eq_ok_iff {start a : Address} {width index : Nat} :
    start.element width index = .ok a ↔ a.bits = start.bits + AddressSpace.width + width * index := by
  have ha := a.bits_lt
  constructor
  · intro h
    unfold element at h
    cases hf : start.add AddressSpace.width with
    | error e => simp [hf, bind, Except.bind] at h
    | ok first =>
      cases ho : AddressSpace.mul width index with
      | error e => simp [hf, ho, bind, Except.bind] at h
      | ok offset =>
        simp only [hf, ho, bind, Except.bind] at h
        have := add_eq_ok_iff.1 hf
        have := (AddressSpace.mul_eq_ok_iff.1 ho).1
        have := add_eq_ok_iff.1 h
        omega
  · intro h
    have hf : start.add AddressSpace.width = .ok ⟨start.bits + AddressSpace.width, by omega⟩ := add_eq_ok_iff.2 rfl
    have ho : AddressSpace.mul width index = .ok (width * index) := AddressSpace.mul_eq_ok_iff.2 ⟨rfl, by omega⟩
    simp only [element, hf, ho, bind, Except.bind]
    exact add_eq_ok_iff.2 h

end Address

end BitStore
