import BitStore.Deferred.Text
import BitStore.Schema.Layout
import BitStore.Value.CodecError

/-! The ways in which a plan, the data and an evaluation can be at odds. Too
little data is not among them: that is an answer of its own, see `Outcome`. -/

namespace BitStore

/-- What the engine declines to do. -/
inductive Feature where
  | branch
  | call
  | structuredElements
  | sets
  | tablesForNonArrays
  | tablesForNonNumbers
  deriving DecidableEq

def Feature.name : Feature → String
  | .branch => "branch expressions"
  | .call => "call expressions"
  | .structuredElements => "decoding array elements that are not bitsets"
  | .sets => "set plans"
  | .tablesForNonArrays => "tables for a root that is not an array"
  | .tablesForNonNumbers => "tables for arrays of non-integer elements"

inductive Fault where
  | layout (error : LayoutError)
  | value (error : CodecError)
  | invalidIndex (found : Deferred)
  | indexOutOfRange (index length : Nat)
  | notATuple (found : Value)
  | layoutMismatch (expected : Layout) (found : Value)
  | storageExhausted (requested : Nat)
  | notIndexable (kind : Kind)
  | notAnArray (kind : Kind)
  | notAClosure (kind : Kind)
  | notABoolean (found : Value)
  | notReducible (kind : Kind)
  | notImplemented (feature : Feature)

def Fault.message : Fault → String
  | .layout error => error.message
  | .value error => error.message
  | .invalidIndex found =>
    "The index of `tuple_at` must evaluate to a tuple of at most 64 bits, found " ++ found.render ++ "."
  | .indexOutOfRange index length =>
    "Index " ++ toString index ++ " is out of range for a sequence of " ++ toString length ++ " elements."
  | .notATuple found => "Expected a tuple, found " ++ found.render ++ "."
  | .layoutMismatch expected found =>
    "Value " ++ found.render ++ " does not fit layout " ++ expected.render ++ "."
  | .storageExhausted requested => "Storage cannot grow to " ++ toString requested ++ " bytes."
  | .notIndexable kind => "A " ++ kind.name ++ " cannot be indexed."
  | .notAnArray kind => "`filter` expects an array stored in storage, found a " ++ kind.name ++ "."
  | .notAClosure kind => "Expected a closure to invoke, found a " ++ kind.name ++ "."
  | .notABoolean found => "A predicate must yield a bit, found " ++ found.render ++ "."
  | .notReducible kind => "A " ++ kind.name ++ " cannot be reduced to a value."
  | .notImplemented feature => feature.name ++ " is not implemented."

end BitStore
