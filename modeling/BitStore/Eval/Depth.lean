import BitStore.Eval.Translation

/-! Why evaluation ends. The closure depth of an expression or a deferred value
bounds how deeply closures can nest while it is evaluated or invoked: invoking a
closure costs one level, evaluation finds nothing deeper than its expression and
inputs together, and stored data has no closures. So a limit computed from the
inputs always suffices, and `eval`, `apply` and `filter` need none. -/

namespace BitStore

/-! ### Closure depth -/

mutual

def Value.closureDepth : Value → Nat
  | .unit => 0
  | .bit _ => 0
  | .tuple elements => Value.closureDepthAll elements
  | .variant content => content.closureDepth
  | .closure body bound => body.closureDepth + bound.closureDepth + 1

def Value.closureDepthAll : List Value → Nat
  | [] => 0
  | v :: vs => max v.closureDepth (Value.closureDepthAll vs)

def Expr.closureDepth : Expr → Nat
  | .literal value => value.closureDepth
  | .argument => 0
  | .bound => 0
  | .tuple elements => Expr.closureDepthAll elements
  | .item subject index => max subject.closureDepth index.closureDepth
  | .branch _ _ _ => 0
  | .lambda body captured => body.closureDepth + captured.closureDepth + 1
  | .call _ _ => 0
  | .filter input predicate => max input.closureDepth predicate.closureDepth
  | .equals left right => max left.closureDepth right.closureDepth

def Expr.closureDepthAll : List Expr → Nat
  | [] => 0
  | e :: es => max e.closureDepth (Expr.closureDepthAll es)

end

namespace Deferred

mutual

def closureDepth : Deferred → Nat
  | .value v => v.closureDepth
  | .array _ => 0
  | .tuple elements => closureDepthAll elements
  | .closure body bound => body.closureDepth + closureDepth bound + 1

def closureDepthAll : List Deferred → Nat
  | [] => 0
  | d :: ds => max (closureDepth d) (closureDepthAll ds)

end

end Deferred

theorem Value.closureDepth_le_all {v : Value} {vs : List Value} (h : v ∈ vs) :
    v.closureDepth ≤ Value.closureDepthAll vs := by
  induction vs with
  | nil => simp at h
  | cons w ws ih =>
    rw [Value.closureDepthAll]
    rcases List.mem_cons.1 h with rfl | h
    · exact Nat.le_max_left _ _
    · exact Nat.le_trans (ih h) (Nat.le_max_right _ _)

theorem Value.closureDepthAll_le {vs : List Value} {n : Nat} (h : ∀ v ∈ vs, v.closureDepth ≤ n) :
    Value.closureDepthAll vs ≤ n := by
  induction vs with
  | nil => exact Nat.zero_le n
  | cons v vs ih =>
    exact Nat.max_le.2 ⟨h v List.mem_cons_self, ih fun w hw => h w (List.mem_cons_of_mem _ hw)⟩

theorem Deferred.closureDepth_le_all {d : Deferred} {ds : List Deferred} (h : d ∈ ds) :
    d.closureDepth ≤ Deferred.closureDepthAll ds := by
  induction ds with
  | nil => simp at h
  | cons w ws ih =>
    rw [Deferred.closureDepthAll]
    rcases List.mem_cons.1 h with rfl | h
    · exact Nat.le_max_left _ _
    · exact Nat.le_trans (ih h) (Nat.le_max_right _ _)

theorem Value.closureDepth_ofBits (bits : Bits) : (Value.ofBits bits).closureDepth = 0 := by
  refine Nat.le_zero.1 (Value.closureDepthAll_le fun v hv => ?_)
  obtain ⟨b, _, rfl⟩ := List.mem_map.1 hv
  exact Nat.le_refl 0

/-! ### Stored data has no closures -/

theorem Storage.access_eq_some (store : Storage) {a : Address} {width : Nat} {v : Value}
    (h : store.access a width = some v) : ∃ bits, v = .ofBits bits := by
  obtain ⟨_, _, h⟩ := Option.bind_eq_some_iff.1 h
  obtain ⟨⟨bits, _⟩, _, rfl⟩ := Option.map_eq_some_iff.1 h
  exact ⟨bits, rfl⟩

variable (stores : Storages)

namespace StoredArray

variable (a : StoredArray)

/-- Elements are read as runs of bits. -/
theorem elementAt_holds (index : Nat) : (a.elementAt stores index).Holds fun v => ∃ bits, v = .ofBits bits := by
  unfold elementAt
  split
  · split
    · generalize hx : (stores a.start.storage).access _ _ = x
      cases x with
      | none => trivial
      | some v => exact Storage.access_eq_some _ hx
    · trivial
  · trivial

theorem get_holds (index : Nat) : (a.get stores index).Holds fun v => ∃ bits, v = .ofBits bits := by
  rw [get_eq]
  refine Outcome.Holds.bind (Outcome.holds_true _) fun length _ => ?_
  split
  · exact a.elementAt_holds stores index
  · trivial

end StoredArray

/-! ### A limit that suffices -/

/-- An element is no deeper than the whole. -/
theorem Deferred.item_holds (d : Deferred) (index : Nat) :
    (d.item stores index).Holds fun r => r.closureDepth ≤ d.closureDepth := by
  match d with
  | .array a =>
    refine Outcome.Holds.bind (a.get_holds stores index) ?_
    rintro _ ⟨bits, rfl⟩
    exact Nat.le_of_eq (Value.closureDepth_ofBits bits)
  | .tuple elements =>
    rw [item_tuple, pick]
    cases hr : elements[index]? with
    | none => trivial
    | some r => exact closureDepth_le_all (List.mem_of_getElem? hr)
  | .value (.tuple elements) =>
    rw [item_value_tuple, pick]
    cases hr : elements[index]? with
    | none => trivial
    | some r => exact Value.closureDepth_le_all (List.mem_of_getElem? hr)
  | .value .unit | .value (.bit _) | .value (.variant _) | .value (.closure _ _) | .closure _ _ => trivial

namespace Reader

section Invoking

variable {invoke : Deferred → Deferred → Bounded Deferred}

theorem force_holds (d : Deferred) : ((of stores : Reader Bounded).force d).Holds fun _ => True := by
  rw [of_force]
  exact .lift (Outcome.holds_true _)

theorem holdsOf_holds {predicate : Deferred} {element : Value}
    (h : (invoke predicate (.value element)).Holds fun _ => True) :
    ((of stores).holdsOf invoke predicate element).Holds fun _ => True := by
  refine h.bind fun verdict _ => (force_holds stores verdict).bind fun v _ => ?_
  split <;> trivial

variable {predicate : Deferred} (a : StoredArray)

theorem filterAfter_holds (h : ∀ bits, (invoke predicate (.value (.ofBits bits))).Holds fun _ => True)
    (index count : Nat) (kept : Array Value) (hkept : ∀ v ∈ kept, ∃ bits, v = .ofBits bits) :
    ((of stores).filterAfter invoke a predicate kept index count).Holds fun vs =>
      ∀ v ∈ vs, ∃ bits, v = .ofBits bits := by
  induction count generalizing index kept with
  | zero => exact fun v hv => hkept v (Array.mem_toList_iff.1 hv)
  | succ count ih =>
    refine (Bounded.Holds.lift (a.elementAt_holds stores index)).bind ?_
    rintro _ ⟨bits, rfl⟩
    refine (holdsOf_holds stores (h bits)).bind fun holds _ => ih _ _ ?_
    split
    · intro v hv
      rcases Array.mem_push.1 hv with hv | rfl
      · exact hkept v hv
      · exact ⟨bits, rfl⟩
    · exact hkept

theorem filterWith_holds
    (h : predicate.isClosure = true → ∀ bits, (invoke predicate (.value (.ofBits bits))).Holds fun _ => True) :
    ((of stores).filterWith invoke a predicate).Holds fun d => d.closureDepth = 0 := by
  unfold filterWith
  split
  next hp =>
    refine (Bounded.Holds.lift (Outcome.holds_true _)).bind fun length _ => ?_
    refine (filterAfter_holds stores a (h hp) 0 length #[] (by simp)).bind fun vs hvs => ?_
    refine Nat.le_zero.1 (Value.closureDepthAll_le fun v hv => ?_)
    obtain ⟨bits, rfl⟩ := hvs v hv
    exact Nat.le_of_eq (Value.closureDepth_ofBits bits)
  next => trivial

mutual

/-- Where closures of the inputs' depth can be invoked, evaluation reaches an outcome. -/
theorem evalWith_holds {argument bound : Deferred} {inputs limit : Nat}
    (hinvoke : ∀ f bits, f.closureDepth ≤ limit → f.isClosure = true →
      (invoke f (.value (.ofBits bits))).Holds fun _ => True)
    (ha : argument.closureDepth ≤ inputs) (hb : bound.closureDepth ≤ inputs) :
    ∀ e : Expr, e.closureDepth + inputs ≤ limit →
      ((of stores).evalWith invoke argument bound e).Holds fun d => d.closureDepth ≤ e.closureDepth + inputs
  | .literal v, _ => Nat.le_add_right _ _
  | .argument, _ => Nat.le_trans ha (Nat.le_add_left _ _)
  | .bound, _ => Nat.le_trans hb (Nat.le_add_left _ _)
  | .tuple elements, h => by
    rw [evalWith]
    exact (evalAllWith_holds hinvoke ha hb elements h).bind fun ds hds => hds
  | .item subject index, h => by
    rw [Expr.closureDepth] at h ⊢
    rw [evalWith]
    refine (evalWith_holds hinvoke ha hb subject (by omega)).bind fun d hd => ?_
    refine (evalWith_holds hinvoke ha hb index (by omega)).bind fun i _ => ?_
    refine (Bounded.Holds.lift (Outcome.holds_true _)).bind fun n _ => ?_
    rw [of_item]
    exact (Bounded.Holds.lift (d.item_holds stores n)).mono fun r hr => by omega
  | .lambda body captured, h => by
    rw [Expr.closureDepth] at h ⊢
    rw [evalWith]
    refine (evalWith_holds hinvoke ha hb captured (by omega)).bind fun d hd => ?_
    show body.closureDepth + d.closureDepth + 1 ≤ _
    omega
  | .filter input predicate, h => by
    rw [Expr.closureDepth] at h ⊢
    rw [evalWith]
    refine (evalWith_holds hinvoke ha hb input (by omega)).bind fun d _ => ?_
    refine (evalWith_holds hinvoke ha hb predicate (by omega)).bind fun p hp => ?_
    split
    next a _ =>
      refine (filterWith_holds stores a fun hc bits => hinvoke p bits (by omega) hc).mono fun r hr => by omega
    next => trivial
  | .equals left right, h => by
    rw [Expr.closureDepth] at h ⊢
    rw [evalWith]
    refine (evalWith_holds hinvoke ha hb left (by omega)).bind fun l _ => ?_
    refine (force_holds stores l).bind fun v _ => ?_
    refine (evalWith_holds hinvoke ha hb right (by omega)).bind fun r _ => ?_
    exact (force_holds stores r).bind fun w _ => Nat.zero_le _
  | .branch _ _ _, _ => by rw [evalWith]; trivial
  | .call _ _, _ => by rw [evalWith]; trivial

theorem evalAllWith_holds {argument bound : Deferred} {inputs limit : Nat}
    (hinvoke : ∀ f bits, f.closureDepth ≤ limit → f.isClosure = true →
      (invoke f (.value (.ofBits bits))).Holds fun _ => True)
    (ha : argument.closureDepth ≤ inputs) (hb : bound.closureDepth ≤ inputs) :
    ∀ es : List Expr, Expr.closureDepthAll es + inputs ≤ limit →
      ((of stores).evalAllWith invoke argument bound es).Holds fun ds =>
        Deferred.closureDepthAll ds ≤ Expr.closureDepthAll es + inputs
  | [], _ => Nat.zero_le _
  | e :: es, h => by
    rw [Expr.closureDepthAll] at h ⊢
    rw [evalAllWith]
    refine (evalWith_holds hinvoke ha hb e (by omega)).bind fun d hd => ?_
    refine (evalAllWith_holds hinvoke ha hb es (by omega)).bind fun ds hds => ?_
    show max d.closureDepth (Deferred.closureDepthAll ds) ≤ _
    omega

end

end Invoking

end Reader

theorem Deferred.closureDepth_pos {d : Deferred} (h : d.isClosure = true) : 0 < d.closureDepth := by
  obtain hd | ⟨body, bound, rfl⟩ | ⟨body, bound, rfl⟩ := d.isClosure_cases
  · rw [hd] at h
    cases h
  · exact Nat.succ_pos _
  · exact Nat.succ_pos _

/-- Invoking a closure reaches an outcome within its own depth and its argument's. -/
theorem Deferred.applyWithin_holds {depth : Nat} {function argument : Deferred}
    (h : function.closureDepth + argument.closureDepth ≤ depth) :
    (function.applyWithin stores depth argument).Holds fun _ => True := by
  induction depth generalizing function argument with
  | zero =>
    cases hf : function.isClosure with
    | true => have := closureDepth_pos hf; omega
    | false =>
      rw [applyWithin, Reader.applyWithin_of_not_isClosure _ hf]
      trivial
  | succ depth ih =>
    have hinvoke : ∀ (f : Deferred) bits, f.closureDepth ≤ depth → f.isClosure = true →
        (f.applyWithin stores depth (.value (.ofBits bits))).Holds fun _ => True := fun f bits hf _ =>
      ih (by simpa [closureDepth, Value.closureDepth_ofBits] using hf)
    obtain hf | ⟨body, bound, rfl⟩ | ⟨body, bound, rfl⟩ := function.isClosure_cases
    · rw [applyWithin, Reader.applyWithin_of_not_isClosure _ hf]
      trivial
    · rw [closureDepth] at h
      exact (Reader.evalWith_holds stores hinvoke (Nat.le_max_left _ _) (Nat.le_max_right _ _) body (by omega)).mono
        fun _ _ => trivial
    · rw [closureDepth, Value.closureDepth] at h
      have hb : (Deferred.value bound).closureDepth ≤ max argument.closureDepth bound.closureDepth :=
        Nat.le_max_right _ _
      refine (Reader.evalWith_holds stores hinvoke (Nat.le_max_left _ _) hb body (by omega)).bind fun d _ => ?_
      exact (Reader.force_holds stores d).bind fun _ _ => trivial

theorem Deferred.applyWithin_stored {depth : Nat} {function : Deferred} (bits : Bits)
    (h : function.closureDepth ≤ depth) :
    (function.applyWithin stores depth (.value (.ofBits bits))).Holds fun _ => True :=
  applyWithin_holds stores (by simpa [closureDepth, Value.closureDepth_ofBits] using h)

/-- Evaluation reaches an outcome within the depth of its expression and inputs. -/
theorem Expr.evalWithin_holds {e : Expr} {argument bound : Deferred} {depth : Nat}
    (h : e.closureDepth + max argument.closureDepth bound.closureDepth ≤ depth) :
    (e.evalWithin stores depth argument bound).Holds fun d =>
      d.closureDepth ≤ e.closureDepth + max argument.closureDepth bound.closureDepth :=
  Reader.evalWith_holds stores (fun _ bits hf _ => Deferred.applyWithin_stored stores bits hf)
    (Nat.le_max_left _ _) (Nat.le_max_right _ _) e h

/-- Filtering reaches an outcome within the depth of the predicate. -/
theorem StoredArray.filterWithin_holds {a : StoredArray} {predicate : Deferred} {depth : Nat}
    (h : predicate.closureDepth ≤ depth) :
    (a.filterWithin stores depth predicate).Holds fun d => d.closureDepth = 0 :=
  Reader.filterWith_holds stores a fun _ bits => Deferred.applyWithin_stored stores bits h

/-! ### Evaluation without a limit -/

/-- What an expression evaluates to, given the argument and the bound value. -/
def Expr.eval (e : Expr) (argument bound : Deferred) : Outcome Deferred :=
  let depth := e.closureDepth + max argument.closureDepth bound.closureDepth
  Option.get (e.evalWithin stores depth argument bound) (Expr.evalWithin_holds stores (Nat.le_refl _)).isSome

/-- What a function yields for an argument. -/
def Deferred.apply (function argument : Deferred) : Outcome Deferred :=
  let depth := function.closureDepth + argument.closureDepth
  Option.get (function.applyWithin stores depth argument) (Deferred.applyWithin_holds stores (Nat.le_refl _)).isSome

/-- The elements of a stored array for which the predicate holds, as a plain tuple. -/
def StoredArray.filter (a : StoredArray) (predicate : Deferred) : Outcome Deferred :=
  Option.get (a.filterWithin stores predicate.closureDepth predicate)
    (StoredArray.filterWithin_holds stores (Nat.le_refl _)).isSome

end BitStore
