import BitStore.Schema.Basic

/-! The written form of a schema: `u8` for numbers, `(…)` for other tuples,
`<… | …>` for variants, `[…]` for arrays. -/

namespace BitStore.Schema

mutual

def render : Schema → String
  | .unit => "()"
  | .bit => "bit"
  | .tuple elements =>
    if areDigits elements then "u" ++ toString elements.length
    else "(" ++ ", ".intercalate (renderAll elements) ++ ")"
  | .variant possibilities => "<" ++ " | ".intercalate (renderAll possibilities) ++ ">"
  | .array element => "[" ++ render element ++ "]"
  | .function => "fn"

def renderAll : List Schema → List String
  | [] => []
  | s :: ss => render s :: renderAll ss

end

end BitStore.Schema
