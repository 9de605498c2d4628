import BitStore.AddressSpace
import BitStore.Value.Basic
import BitStore.Value.CodecError

/-! Unsigned numbers as tuples of bits, most significant first. Writing uses the
full width; reading takes any tuple of bits no wider than asked for. -/

namespace BitStore

namespace Value

/-- The number `n` as exactly `width` bits. -/
def unsigned (width n : Nat) : Value :=
  ofBits (Bits.ofNat width n)

/-- The number whose bits are these elements, at most `width` of them. -/
def numberOf (width : Nat) (elements : List Value) : Except CodecError Nat :=
  if elements.length ≤ width then
    match bits? elements with
    | some bits => .ok bits.toNat
    | none => .error (.notAnInteger elements.length width)
  else
    .error (.notAnInteger elements.length width)

/-- The number a tuple of at most `width` bits denotes. -/
def toUnsigned (width : Nat) : Value → Except CodecError Nat
  | .tuple elements => numberOf width elements
  | _ => .error (.notAnInteger 0 width)

end Value

/-- The element at a fixed index. -/
def Expr.nth (subject : Expr) (index : Nat) : Expr :=
  .item subject (.literal (.unsigned AddressSpace.width index))

namespace Value

theorem numberOf_eq_ok_iff {width n : Nat} {elements : List Value} :
    numberOf width elements = .ok n ↔
      elements.length ≤ width ∧ ∃ bits : Bits, elements = bits.map .bit ∧ bits.toNat = n := by
  unfold numberOf
  simp only [← bits?_eq_some_iff]
  split
  next h => cases bits? elements <;> simp [h]
  next h => simp [h]

end Value

end BitStore
