import BitStore.Expr.Basic
import BitStore.Kind

/-! Building and inspecting values: optionals, runs of bits, booleans, and
whether code hides anywhere in the data. -/

namespace BitStore.Value

/-- The present case of an optional. -/
def present (content : Value) : Value :=
  .variant content

/-- The absent case of an optional. -/
def absent : Value :=
  .variant .unit

/-- A tuple of the given bits. -/
def ofBits (bits : Bits) : Value :=
  .tuple (bits.map .bit)

def kind : Value → Kind
  | .unit => .unit
  | .bit _ => .bit
  | .tuple _ => .tuple
  | .variant _ => .variant
  | .closure _ _ => .closure

/-- The bits that these values are, if they are bits. -/
def bits? : List Value → Option Bits
  | [] => some []
  | .bit b :: vs => (bits? vs).map (b :: ·)
  | _ :: _ => none

/-- The bits of a tuple of one bit or more. -/
def digits? : List Value → Option Bits
  | [] => none
  | vs => bits? vs

/-- A bit, or a tuple of a single bit, is a boolean. -/
def asBool : Value → Option Bool
  | .bit b => some b
  | .tuple [.bit b] => some b
  | _ => none

mutual

/-- A closure occurs somewhere in the data. -/
def containsClosure : Value → Bool
  | .unit => false
  | .bit _ => false
  | .tuple elements => anyContainsClosure elements
  | .variant content => containsClosure content
  | .closure _ _ => true

def anyContainsClosure : List Value → Bool
  | [] => false
  | v :: vs => containsClosure v || anyContainsClosure vs

end

theorem bits?_eq_some_iff {vs : List Value} {bits : Bits} :
    bits? vs = some bits ↔ vs = bits.map .bit := by
  induction vs generalizing bits with
  | nil => cases bits <;> simp [bits?]
  | cons v vs ih =>
    cases v <;> cases bits <;> simp [bits?, ih]
    grind

theorem anyContainsClosure_eq (vs : List Value) : anyContainsClosure vs = vs.any containsClosure := by
  induction vs with
  | nil => rfl
  | cons v vs ih => simp [anyContainsClosure, ih]

theorem containsClosure_tuple {vs : List Value} (h : ∀ v ∈ vs, v.containsClosure = false) :
    (tuple vs).containsClosure = false := by
  rw [containsClosure, anyContainsClosure_eq, List.any_eq_false]
  intro v hv
  simp [h v hv]

@[simp] theorem containsClosure_ofBits (bits : Bits) : (ofBits bits).containsClosure = false := by
  simp [ofBits, containsClosure, anyContainsClosure_eq]

end BitStore.Value
