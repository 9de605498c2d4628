import BitStore.Value.Unsigned
import BitStore.Inspect
import BitStore.AddressSpace

/-! Two written forms of values and expressions. `render` is the short notation:
runs of bits as `0b…`, literal numbers in decimal, `\(body) [captured]` for a
lambda. `inspect` names every constructor. -/

namespace BitStore

/-- The number that a literal stands for when it is written in decimal. -/
def Value.decimal? : Value → Option Nat
  | .tuple [] => none
  | v => (v.toUnsigned AddressSpace.width).toOption

mutual

def Value.render : Value → String
  | .unit => "()"
  | .bit b => Bits.render [b]
  | .tuple elements =>
    match Value.digits? elements with
    | some bits => "0b" ++ bits.render
    | none => "(" ++ ", ".intercalate (Value.renderAll elements) ++ ")"
  | .variant content => "<" ++ content.render ++ ">"
  | .closure body bound => "\\" ++ body.render ++ " [" ++ bound.render ++ "]"

def Value.renderAll : List Value → List String
  | [] => []
  | v :: vs => v.render :: Value.renderAll vs

def Expr.render : Expr → String
  | .literal value =>
    match value.decimal? with
    | some n => toString n
    | none => value.render
  | .argument => "$arg"
  | .bound => "$bound"
  | .tuple elements => "(" ++ ", ".intercalate (Expr.renderAll elements) ++ ")"
  | .item subject index => subject.render ++ "[" ++ index.render ++ "]"
  | .branch condition positive negative =>
    "if " ++ condition.render ++ " then " ++ positive.render ++ " else " ++ negative.render
  | .lambda body captured => "\\(" ++ body.render ++ ") [" ++ captured.render ++ "]"
  | .call function input => function.render ++ "(" ++ input.render ++ ")"
  | .filter input predicate => "filter(" ++ input.render ++ ", " ++ predicate.render ++ ")"
  | .equals left right => left.render ++ " == " ++ right.render

def Expr.renderAll : List Expr → List String
  | [] => []
  | e :: es => e.render :: Expr.renderAll es

end

mutual

def Value.inspect : Value → String
  | .unit => "Unit"
  | .bit b => Inspect.application "Bit" (toString b)
  | .tuple elements => Inspect.application "Tuple" (Inspect.list (Value.inspectAll elements))
  | .variant content => Inspect.application "Variant" content.inspect
  | .closure body bound => Inspect.record "Closure" [("body", body.inspect), ("bound", bound.inspect)]

def Value.inspectAll : List Value → List String
  | [] => []
  | v :: vs => v.inspect :: Value.inspectAll vs

def Expr.inspect : Expr → String
  | .literal value => Inspect.application "Literal" value.inspect
  | .argument => "Argument"
  | .bound => "Bound"
  | .tuple elements => Inspect.application "MakeTuple" (Inspect.list (Expr.inspectAll elements))
  | .item subject index => Inspect.record "TupleAt" [("tuple", subject.inspect), ("index", index.inspect)]
  | .branch condition positive negative =>
    Inspect.record "Branch"
      [("condition", condition.inspect), ("positive", positive.inspect), ("negative", negative.inspect)]
  | .lambda body captured => Inspect.record "Lambda" [("body", body.inspect), ("bound", captured.inspect)]
  | .call function input => Inspect.record "Call" [("function", function.inspect), ("argument", input.inspect)]
  | .filter input predicate =>
    Inspect.record "Filter" [("input", input.inspect), ("predicate", predicate.inspect)]
  | .equals left right => Inspect.record "Equals" [("left", left.inspect), ("right", right.inspect)]

def Expr.inspectAll : List Expr → List String
  | [] => []
  | e :: es => e.inspect :: Expr.inspectAll es

end

end BitStore
