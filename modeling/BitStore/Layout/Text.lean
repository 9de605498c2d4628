import BitStore.Layout.Basic
import BitStore.Inspect

/-! Two written forms of a layout: `render` is the short notation of error
texts, `inspect` names every constructor. -/

namespace BitStore.Layout

mutual

def render : Layout → String
  | .unit => "unit"
  | .bitset width => "bits" ++ toString width
  | .tuple elements => "(" ++ ", ".intercalate (renderAll elements) ++ ")"
  | .array element => "[" ++ render element ++ "]"
  | .variant possibilities => "<" ++ " | ".intercalate (renderAll possibilities) ++ ">"

def renderAll : List Layout → List String
  | [] => []
  | l :: ls => render l :: renderAll ls

end

mutual

def inspect : Layout → String
  | .unit => "Unit"
  | .bitset width => Inspect.application "Bitset" (toString width)
  | .tuple elements => Inspect.application "Tuple" (Inspect.list (inspectAll elements))
  | .array element => Inspect.application "Array" (inspect element)
  | .variant possibilities => Inspect.application "Variant" (Inspect.list (inspectAll possibilities))

def inspectAll : List Layout → List String
  | [] => []
  | l :: ls => inspect l :: inspectAll ls

end

end BitStore.Layout
