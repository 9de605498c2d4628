import BitStore.Bits.Basic

/-! Values and expressions. A value is plain data, except that a closure pairs a
body with the value it captured. An expression is evaluated against two inputs:
the argument of the current invocation and the value bound by the enclosing
lambda. Both types are trees, and their equality is structural. -/

namespace BitStore

mutual

inductive Value where
  | unit
  | bit (b : Bool)
  | tuple (elements : List Value)
  /-- The content of a variant; which possibility it is is not recorded. -/
  | variant (content : Value)
  | closure (body : Expr) (bound : Value)

inductive Expr where
  | literal (value : Value)
  | argument
  | bound
  | tuple (elements : List Expr)
  /-- One element of a tuple or an array. -/
  | item (subject index : Expr)
  | branch (condition positive negative : Expr)
  /-- A function of the argument, with what `captured` evaluates to as its bound value. -/
  | lambda (body captured : Expr)
  | call (function input : Expr)
  /-- The elements of an array for which a predicate holds. -/
  | filter (input predicate : Expr)
  | equals (left right : Expr)

end

/-! ### Equality -/

mutual

def Value.same : Value → Value → Bool
  | .unit, .unit => true
  | .bit a, .bit b => a == b
  | .tuple vs, .tuple ws => Value.sameAll vs ws
  | .variant v, .variant w => v.same w
  | .closure e v, .closure f w => e.same f && v.same w
  | _, _ => false
termination_by structural v => v

def Value.sameAll : List Value → List Value → Bool
  | [], [] => true
  | v :: vs, w :: ws => v.same w && Value.sameAll vs ws
  | _, _ => false
termination_by structural vs => vs

def Expr.same : Expr → Expr → Bool
  | .literal v, .literal w => v.same w
  | .argument, .argument => true
  | .bound, .bound => true
  | .tuple es, .tuple fs => Expr.sameAll es fs
  | .item a b, .item c d => a.same c && b.same d
  | .branch a b p, .branch c d q => a.same c && b.same d && p.same q
  | .lambda a b, .lambda c d => a.same c && b.same d
  | .call a b, .call c d => a.same c && b.same d
  | .filter a b, .filter c d => a.same c && b.same d
  | .equals a b, .equals c d => a.same c && b.same d
  | _, _ => false
termination_by structural e => e

def Expr.sameAll : List Expr → List Expr → Bool
  | [], [] => true
  | e :: es, f :: fs => e.same f && Expr.sameAll es fs
  | _, _ => false
termination_by structural es => es

end

mutual

theorem Value.same_iff : ∀ v w : Value, v.same w = true ↔ v = w
  | .unit, w | .bit _, w => by cases w <;> simp [Value.same]
  | .tuple vs, w => by cases w <;> simp [Value.same, Value.sameAll_iff vs]
  | .variant v, w => by cases w <;> simp [Value.same, Value.same_iff v]
  | .closure e v, w => by cases w <;> simp [Value.same, Expr.same_iff e, Value.same_iff v]

theorem Value.sameAll_iff : ∀ vs ws : List Value, Value.sameAll vs ws = true ↔ vs = ws
  | [], ws => by cases ws <;> simp [Value.sameAll]
  | v :: vs, ws => by cases ws <;> simp [Value.sameAll, Value.same_iff v, Value.sameAll_iff vs]

theorem Expr.same_iff : ∀ e f : Expr, e.same f = true ↔ e = f
  | .literal v, f => by cases f <;> simp [Expr.same, Value.same_iff v]
  | .argument, f | .bound, f => by cases f <;> simp [Expr.same]
  | .tuple es, f => by cases f <;> simp [Expr.same, Expr.sameAll_iff es]
  | .item a b, f | .lambda a b, f | .call a b, f | .filter a b, f | .equals a b, f => by
    cases f <;> simp [Expr.same, Expr.same_iff a, Expr.same_iff b]
  | .branch a b c, f => by
    cases f <;> simp [Expr.same, Expr.same_iff a, Expr.same_iff b, Expr.same_iff c, and_assoc]

theorem Expr.sameAll_iff : ∀ es fs : List Expr, Expr.sameAll es fs = true ↔ es = fs
  | [], fs => by cases fs <;> simp [Expr.sameAll]
  | e :: es, fs => by cases fs <;> simp [Expr.sameAll, Expr.same_iff e, Expr.sameAll_iff es]

end

instance : DecidableEq Value :=
  fun v w => decidable_of_iff _ (Value.same_iff v w)

instance : DecidableEq Expr :=
  fun e f => decidable_of_iff _ (Expr.same_iff e f)

end BitStore
