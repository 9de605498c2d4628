import BitStore.Eval.Depth
import BitStore.Layout.Encode
import BitStore.Settings.Basic

/-! A plan pairs the layout of a dataset with the getters that answer questions
about it. Each getter sees a pair: the dataset as an array in storage, and the
caller's argument. Writing a dataset encodes it whole before storage changes. -/

namespace BitStore

structure Plan where
  layout : Layout
  getters : List Expr

/-- Checks a getter against the layout of the data before its first use. Every getter passes. -/
def Layout.analyze (_ : Layout) (_ : Expr) : Except Fault Unit :=
  .ok ()

/-- What a getter answers for an argument, from a dataset of the given layout. -/
def Expr.run (getter : Expr) (store : Storage) (layout : Layout) (argument : Value) : Outcome Value := do
  let root : StoredArray := ⟨.zero, layout.element?.getD layout⟩
  let result ← getter.eval store (.tuple [.array root, .value argument]) (.value .unit)
  result.force store

namespace Plan

/-- The plan for a schema and its getters. Setters are declined. -/
def compile (root : Schema) (getters setters : List Expr) (settings : Settings) : Except Fault Plan :=
  if setters.isEmpty then
    match root.layout with
    | .error e => .error (.layout e)
    | .ok layout => do
      if settings.analyzeGetters then getters.forM layout.analyze
      return ⟨layout, getters⟩
  else
    .error (.notImplemented .sets)

/-- Writes a dataset at address zero. -/
def write (plan : Plan) (root : Value) (memory : Storage.Memory := Storage.Memory.usual) : Storage.Change Unit :=
  match plan.layout.encodeRoot root with
  | .ok bits => Storage.writeAt .zero bits.toBytes memory
  | .error e => throw e

/-- What the getter at an index answers for an argument. -/
def get (plan : Plan) (store : Storage) (index : Nat) (argument : Value) : Outcome Value :=
  match plan.getters[index]? with
  | some getter => getter.run store plan.layout argument
  | none => .fault (.indexOutOfRange index plan.getters.length)

def inspect (plan : Plan) : String :=
  Inspect.record "Plan" [("gets", toString plan.getters.length), ("layout", plan.layout.inspect)]

end Plan

end BitStore
