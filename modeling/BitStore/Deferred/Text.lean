import BitStore.Deferred.Basic
import BitStore.Expr.Text
import BitStore.Layout.Text

/-! Two written forms of a deferred value: `render` for error texts, with
`[layout]@byte:bit` for a stored array, and `inspect` with every constructor. -/

namespace BitStore

def StoredArray.render (a : StoredArray) : String :=
  "[" ++ a.element.render ++ "]" ++ a.start.render

def StoredArray.inspect (a : StoredArray) : String :=
  let start := Inspect.application "StoragePointer" (Inspect.application "Address" (toString a.start.bits))
  Inspect.record "ArrayAccessor" [("begin", start), ("element_layout", a.element.inspect)]

namespace Deferred

mutual

def render : Deferred → String
  | .value v => v.render
  | .array a => a.render
  | .tuple elements => "(" ++ ", ".intercalate (renderAll elements) ++ ")"
  | .closure body bound => "\\" ++ body.render ++ " [" ++ render bound ++ "]"

def renderAll : List Deferred → List String
  | [] => []
  | d :: ds => render d :: renderAll ds

end

mutual

def inspect : Deferred → String
  | .value v => Inspect.application "Value" v.inspect
  | .array a => a.inspect
  | .tuple elements => Inspect.application "Tuple" (Inspect.list (inspectAll elements))
  | .closure body bound => Inspect.record "Closure" [("body", body.inspect), ("bound", inspect bound)]

def inspectAll : List Deferred → List String
  | [] => []
  | d :: ds => inspect d :: inspectAll ds

end

end Deferred

end BitStore
