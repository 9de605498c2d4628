/-! The outer shape of a schema, a value or a deferred value, as error texts name it. -/

namespace BitStore

inductive Kind where
  | unit | bit | tuple | variant | array | function | closure
  deriving DecidableEq

def Kind.name : Kind → String
  | .unit => "unit"
  | .bit => "bit"
  | .tuple => "tuple"
  | .variant => "variant"
  | .array => "array"
  | .function => "function"
  | .closure => "closure"

end BitStore
