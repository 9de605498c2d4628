import BitStore.Deferred.Force
import BitStore.Eval.Bounded

/-! Evaluation of expressions with a reader for stored arrays. An expression is
evaluated by recursion on its form, given a way to invoke closures; invoking a
closure evaluates its body with closures nested one level less deeply.
Subexpressions run from left to right, and the first that finds nothing decides
the outcome. Branches and calls are declined, whatever they consist of. -/

namespace BitStore

namespace Reader

variable {m : Type → Type} [Monad m] [MonadLiftT Outcome m] (reader : Reader m)

section Invoking

variable (invoke : Deferred → Deferred → m Deferred)

/-- Whether the predicate holds of an element. -/
@[specialize]
def holdsOf (predicate : Deferred) (element : Value) : m Bool := do
  let verdict ← invoke predicate (.value element)
  let verdict ← reader.force verdict
  match verdict.asBool with
  | some b => return b
  | none => (Fault.notABoolean verdict).raise

/-- Filters `count` elements from `index` on, after those already `kept`. -/
@[specialize]
def filterAfter (a : StoredArray) (predicate : Deferred) (kept : Array Value) (index : Nat) :
    (count : Nat) → m (List Value)
  | 0 => return kept.toList
  | count + 1 => do
    let element ← reader.element a index
    let holds ← reader.holdsOf invoke predicate element
    filterAfter a predicate (if holds then kept.push element else kept) (index + 1) count

/-- The elements for which the predicate holds, as a plain tuple. -/
@[specialize]
def filterWith (a : StoredArray) (predicate : Deferred) : m Deferred := do
  if predicate.isClosure then
    let length ← reader.length a
    let kept ← reader.filterAfter invoke a predicate #[] 0 length
    return .value (.tuple kept)
  else
    (Fault.notAClosure predicate.kind).raise

mutual

@[specialize]
def evalWith (argument bound : Deferred) : Expr → m Deferred
  | .literal v => return .value v
  | .argument => return argument
  | .bound => return bound
  | .tuple elements => return .tuple (← evalAllWith argument bound elements)
  | .item subject index => do
    let subject ← evalWith argument bound subject
    let index ← evalWith argument bound index
    let index ← Outcome.ofExcept index.toIndex
    reader.item index subject
  | .lambda body captured => return .closure body (← evalWith argument bound captured)
  | .filter input predicate => do
    let input ← evalWith argument bound input
    let predicate ← evalWith argument bound predicate
    match input with
    | .array a => reader.filterWith invoke a predicate
    | _ => (Fault.notAnArray input.kind).raise
  | .equals left right => do
    let left ← evalWith argument bound left
    let left ← reader.force left
    let right ← evalWith argument bound right
    let right ← reader.force right
    return .value (.bit (left == right))
  | .branch _ _ _ => (Fault.notImplemented .branch).raise
  | .call _ _ => (Fault.notImplemented .call).raise

@[specialize]
def evalAllWith (argument bound : Deferred) : List Expr → m (List Deferred)
  | [] => return []
  | e :: es => do
    let d ← evalWith argument bound e
    let ds ← evalAllWith argument bound es
    return d :: ds

end

end Invoking

/-- Invokes a closure, if closures nest at most `depth` deep, and is `exhausted` otherwise.
What a closure that came as data yields is forced. -/
@[specialize]
def applyWithin (exhausted : m Deferred) : (depth : Nat) → (function argument : Deferred) → m Deferred
  | 0, function, _ => if function.isClosure then exhausted else (Fault.notAClosure function.kind).raise
  | depth + 1, function, argument =>
    match function with
    | .closure body bound => reader.evalWith (applyWithin exhausted depth) argument bound body
    | .value (.closure body bound) => do
      let result ← reader.evalWith (applyWithin exhausted depth) argument (.value bound) body
      return .value (← reader.force result)
    | _ => (Fault.notAClosure function.kind).raise

theorem applyWithin_of_not_isClosure {function : Deferred} (h : function.isClosure = false) (exhausted : m Deferred)
    (depth : Nat) (argument : Deferred) :
    reader.applyWithin exhausted depth function argument = (Fault.notAClosure function.kind).raise := by
  cases depth with
  | zero => exact if_neg (by simp [h])
  | succ depth =>
    cases function with
    | closure body bound => cases h
    | value v =>
      cases v with
      | closure body bound => cases h
      | unit | bit | tuple | variant => rfl
    | array | tuple => rfl

theorem applyWithin_zero {function : Deferred} (h : function.isClosure = true) (exhausted : m Deferred)
    (argument : Deferred) : reader.applyWithin exhausted 0 function argument = exhausted :=
  if_pos h

end Reader

variable (stores : Storages)

/-- Invokes a closure, if closures nest at most `depth` deep. -/
def Deferred.applyWithin (depth : Nat) (function argument : Deferred) : Bounded Deferred :=
  (Reader.of stores).applyWithin Bounded.exhausted depth function argument

/-- Evaluates an expression, if closures nest at most `depth` deep. -/
def Expr.evalWithin (depth : Nat) (e : Expr) (argument bound : Deferred) : Bounded Deferred :=
  (Reader.of stores).evalWith (Deferred.applyWithin stores depth) argument bound e

/-- Filters a stored array, if closures nest at most `depth` deep. -/
def StoredArray.filterWithin (depth : Nat) (a : StoredArray) (predicate : Deferred) : Bounded Deferred :=
  (Reader.of stores).filterWith (Deferred.applyWithin stores depth) a predicate

end BitStore
