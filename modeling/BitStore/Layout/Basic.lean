import BitStore.AddressSpace

/-! Layouts: how data is packed into bits. A bitset is a run of fixed width; an
array is an element count followed by its elements; a variant stores its content
alone, without saying which possibility it is. -/

namespace BitStore

inductive Layout where
  | unit
  | tuple (elements : List Layout)
  | array (element : Layout)
  | bitset (width : Nat)
  | variant (possibilities : List Layout)

namespace Layout

/-- The layout of an array's elements. -/
def element? : Layout → Option Layout
  | .array element => some element
  | _ => none

mutual

/-- The width in bits, where the layout alone fixes it and the address space holds it. -/
def width? : Layout → Option Nat
  | .unit => some 0
  | .bitset width => some width
  | .tuple elements => widthAfter? 0 elements
  | .array _ => none
  | .variant _ => none

/-- The width of a run that starts with `before` bits and goes on with these layouts. -/
def widthAfter? (before : Nat) : List Layout → Option Nat
  | [] => some before
  | l :: ls => do
    let width ← width? l
    let total ← (AddressSpace.add before width).toOption
    widthAfter? total ls

end

/-! ### Equality -/

mutual

def same : Layout → Layout → Bool
  | .unit, .unit => true
  | .tuple ls, .tuple ms => sameAll ls ms
  | .array l, .array m => same l m
  | .bitset v, .bitset w => v == w
  | .variant ls, .variant ms => sameAll ls ms
  | _, _ => false
termination_by structural l => l

def sameAll : List Layout → List Layout → Bool
  | [], [] => true
  | l :: ls, m :: ms => same l m && sameAll ls ms
  | _, _ => false
termination_by structural ls => ls

end

mutual

theorem same_iff : ∀ l m : Layout, same l m = true ↔ l = m
  | .unit, m | .bitset _, m => by cases m <;> simp [same]
  | .tuple ls, m | .variant ls, m => by cases m <;> simp [same, sameAll_iff ls]
  | .array l, m => by cases m <;> simp [same, same_iff l]

theorem sameAll_iff : ∀ ls ms : List Layout, sameAll ls ms = true ↔ ls = ms
  | [], ms => by cases ms <;> simp [sameAll]
  | l :: ls, ms => by cases ms <;> simp [sameAll, same_iff l, sameAll_iff ls]

end

instance : DecidableEq Layout :=
  fun l m => decidable_of_iff _ (same_iff l m)

end Layout

end BitStore
