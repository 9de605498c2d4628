import BitStore.Schema.Basic
import BitStore.Expr.Basic

/-! Which values fit which schemas. A tuple also fits an array when every element
fits the element schema, and a variant fits when its content fits at least one
possibility. -/

namespace BitStore.Schema

mutual

/-- The value fits the schema. -/
def accepts : Schema → Value → Bool
  | .unit, .unit => true
  | .bit, .bit _ => true
  | .tuple schemas, .tuple values => acceptsEach schemas values
  | .array element, .tuple values => values.all (accepts element)
  | .variant possibilities, .variant content => anyAccepts possibilities content
  | .function, .closure _ _ => true
  | _, _ => false
termination_by structural s => s

/-- There are as many values as schemas, and each fits the schema in its place. -/
def acceptsEach : List Schema → List Value → Bool
  | [], [] => true
  | s :: ss, v :: vs => accepts s v && acceptsEach ss vs
  | _, _ => false
termination_by structural ss => ss

def anyAccepts : List Schema → Value → Bool
  | [], _ => false
  | s :: ss, v => accepts s v || anyAccepts ss v
termination_by structural ss => ss

end

end BitStore.Schema
