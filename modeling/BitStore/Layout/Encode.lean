import BitStore.Bits.Packer
import BitStore.Fault
import BitStore.Value.Codec

/-! Values packed as a layout says. An array is its 64-bit element count and then
its elements; a variant is its content under the first possibility that takes
it; a bitset is the plain bits of a value, if they have its width. -/

namespace BitStore.Layout

/-- The element count in front of an array. -/
def countBits (n : Nat) : Bits :=
  Bits.ofNat AddressSpace.width n

/-- The plain bits of a value, which have to fill a bitset exactly. -/
def encodeBitset (width : Nat) (v : Value) : Except Fault Bits :=
  match v.toBits with
  | .error e => .error (.value e)
  | .ok bits => if bits.length = width then .ok bits else .error (.layoutMismatch (.bitset width) v)

mutual

def encode : Layout → Value → Except Fault Bits
  | .unit, .unit => .ok []
  | .bitset width, v => encodeBitset width v
  | .array element, .tuple values => do
    let parts ← values.mapM (encode element)
    return countBits values.length ++ parts.flatten
  | .tuple layouts, .tuple values =>
    if layouts.length = values.length then encodeEach layouts values
    else .error (.layoutMismatch (.tuple layouts) (.tuple values))
  | .variant possibilities, .variant content =>
    match encodeFirst possibilities content with
    | some bits => .ok bits
    | none => .error (.layoutMismatch (.variant possibilities) (.variant content))
  | l, v => .error (.layoutMismatch l v)

/-- Values end to end, each under the layout in its place. -/
def encodeEach : List Layout → List Value → Except Fault Bits
  | l :: ls, v :: vs => do
    let bits ← encode l v
    let rest ← encodeEach ls vs
    return bits ++ rest
  | _, _ => .ok []

/-- The value under the first layout that takes it. -/
def encodeFirst : List Layout → Value → Option Bits
  | [], _ => none
  | l :: ls, v =>
    match encode l v with
    | .ok bits => some bits
    | .error _ => encodeFirst ls v

end

/-- A whole dataset. It is always read as an array, so any other root is written
as an array of one. -/
def encodeRoot (l : Layout) (root : Value) : Except Fault Bits :=
  match l with
  | .array _ => encode l root
  | _ => do return countBits 1 ++ (← encode l root)

end BitStore.Layout
