import BitStore.Schema.Basic
import BitStore.Layout.Basic

/-! The layout of a schema. A tuple whose elements are all bitsets becomes one
bitset of their summed width, as long as the address space holds that width;
any other tuple keeps its structure, and arrays never fold. Units and functions
have no layout, wherever they occur. -/

namespace BitStore

/-- A schema of this kind, here or inside, has no layout. -/
structure LayoutError where
  kind : Kind
  deriving DecidableEq

def LayoutError.message (e : LayoutError) : String :=
  "Cannot calculate a layout for a `" ++ e.kind.name ++
    "` type. Units and functions have no physical representation at this position."

/-- The summed width of layouts after `before` bits, if all are bitsets and the sum fits. -/
def Layout.bitsetsAfter? (before : Nat) : List Layout → Option Nat
  | [] => some before
  | .bitset width :: ls => do
    let total ← (AddressSpace.add before width).toOption
    bitsetsAfter? total ls
  | _ :: _ => none

/-- The layout of a tuple with elements of these layouts. -/
def Layout.packed (elements : List Layout) : Layout :=
  match bitsetsAfter? 0 elements with
  | some width => .bitset width
  | none => .tuple elements

namespace Schema

mutual

def layout : Schema → Except LayoutError Layout
  | .unit => .error ⟨.unit⟩
  | .function => .error ⟨.function⟩
  | .bit => .ok (.bitset 1)
  | .tuple elements => do return Layout.packed (← layouts elements)
  | .variant possibilities => do return .variant (← layouts possibilities)
  | .array element => do return .array (← layout element)

def layouts : List Schema → Except LayoutError (List Layout)
  | [] => .ok []
  | s :: ss => do
    let l ← layout s
    let ls ← layouts ss
    return l :: ls

end

end Schema

end BitStore
