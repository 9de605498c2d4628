import BitStore.Proofs.Eval.Comparison
import BitStore.Proofs.Eval.Equations

/-! Evaluation keeps simulations. A relation on deferred values simulates some
storages by others if evaluation's own ways of building values keep it, and
forcing, indexing and picking items match on related values. Then expressions
without filters match on related inputs. If moreover related values have one kind
and related arrays read alike, then closures match, and so does every expression. -/

namespace BitStore

/-! ### Filters outside lambda bodies -/

mutual

/-- No filter occurs outside lambda bodies and literals. -/
def Expr.filterFree : Expr → Bool
  | .literal _ => true
  | .argument => true
  | .bound => true
  | .tuple elements => Expr.allFilterFree elements
  | .item subject index => subject.filterFree && index.filterFree
  | .branch condition positive negative =>
    condition.filterFree && positive.filterFree && negative.filterFree
  | .lambda _ captured => captured.filterFree
  | .call function input => function.filterFree && input.filterFree
  | .filter _ _ => false
  | .equals left right => left.filterFree && right.filterFree

def Expr.allFilterFree : List Expr → Bool
  | [] => true
  | e :: es => e.filterFree && Expr.allFilterFree es

end

/-! ### Simulations -/

/-- The second storages answer reads of the array as the first do. -/
structure StoredArray.ReadsAlike (τ : Tolerance) (s t : Storages) (a : StoredArray) : Prop where
  length : (Outcome.ofOption (a.length? s)).Matches τ Eq (.ofOption (a.length? t))
  element : ∀ {n}, a.length? s = some n → ∀ i < n, (a.elementAt s i).Matches τ Eq (a.elementAt t i)

namespace Deferred

/-- Related values can stand for each other, except where filters are concerned. -/
structure Simulation (τ : Tolerance) (s t : Storages) (R : Deferred → Deferred → Prop) : Prop where
  value : ∀ v, R (.value v) (.value v)
  nil : R (.tuple []) (.tuple [])
  cons : ∀ {d d' ds ds'}, R d d' → R (.tuple ds) (.tuple ds') → R (.tuple (d :: ds)) (.tuple (d' :: ds'))
  closure : ∀ body {d d'}, R d d' → R (.closure body d) (.closure body d')
  force : ∀ {d d'}, R d d' → (d.force s).Matches τ Eq (d'.force t)
  index : ∀ {d d'}, R d d' → (Outcome.ofExcept d.toIndex).Matches τ Eq (.ofExcept d'.toIndex)
  item : ∀ {d d'} n, R d d' → (d.item s n).Matches τ R (d'.item t n)

/-- Related values can stand for each other everywhere. -/
structure StrictSimulation (τ : Tolerance) (s t : Storages) (R : Deferred → Deferred → Prop) : Prop
    extends Simulation τ s t R where
  kind : ∀ {d d'}, R d d' → d.kind = d'.kind
  array : ∀ {a d'}, R (.array a) d' → d' = .array a ∧ a.ReadsAlike τ s t
  captured : ∀ {body b d'}, R (.closure body b) d' → ∃ b', d' = .closure body b' ∧ R b b'
  code : ∀ {body v d'}, R (.value (.closure body v)) d' → d' = .value (.closure body v)

end Deferred

section Invoking

variable {τ : Tolerance} {s t : Storages} {R : Deferred → Deferred → Prop}
variable {invoke invoke' : Deferred → Deferred → Bounded Deferred}

/-- Filters match on related inputs and predicates. -/
def FiltersMatch (τ : Tolerance) (s t : Storages) (R : Deferred → Deferred → Prop)
    (invoke invoke' : Deferred → Deferred → Bounded Deferred) : Prop :=
  ∀ ⦃d d' p p'⦄, R d d' → R p p' → Bounded.Matches τ R
    (match d with
      | .array a => (Reader.of s).filterWith invoke a p
      | _ => (Fault.notAnArray d.kind).raise)
    (match d' with
      | .array a => (Reader.of t).filterWith invoke' a p'
      | _ => (Fault.notAnArray d'.kind).raise)

/-- Invoking related functions on one plain element matches. -/
def InvocationsMatch (τ : Tolerance) (R : Deferred → Deferred → Prop)
    (invoke invoke' : Deferred → Deferred → Bounded Deferred) : Prop :=
  ∀ ⦃f f'⦄ element, R f f' → (invoke f (.value element)).Matches τ R (invoke' f' (.value element))

namespace Reader

theorem force_matches (H : Deferred.Simulation τ s t R) {d d' : Deferred} (hd : R d d') :
    ((of s : Reader Bounded).force d).Matches τ Eq ((of t : Reader Bounded).force d') := by
  rw [of_force, of_force]
  exact .lift (H.force hd)

/-! ### Expressions -/

mutual

theorem evalWith_matches (H : Deferred.Simulation τ s t R) {argument argument' bound bound' : Deferred}
    (ha : R argument argument') (hb : R bound bound') :
    ∀ e : Expr, (e.filterFree = true ∨ FiltersMatch τ s t R invoke invoke') →
      ((of s).evalWith invoke argument bound e).Matches τ R ((of t).evalWith invoke' argument' bound' e)
  | .literal v, _ => by
    rw [evalWith, evalWith]
    exact .found (H.value v)
  | .argument, _ => by
    rw [evalWith, evalWith]
    exact .found ha
  | .bound, _ => by
    rw [evalWith, evalWith]
    exact .found hb
  | .tuple elements, h => by
    rw [evalWith, evalWith]
    exact (evalAllWith_matches H ha hb elements h).bind fun ds ds' hds => .found hds
  | .item subject index, h => by
    rw [Expr.filterFree, Bool.and_eq_true] at h
    rw [evalWith, evalWith]
    refine (evalWith_matches H ha hb subject (h.imp_left And.left)).bind fun d d' hd => ?_
    refine (evalWith_matches H ha hb index (h.imp_left And.right)).bind fun i i' hi => ?_
    refine (Bounded.Matches.lift (H.index hi)).bind fun n _ hn => ?_
    subst hn
    rw [of_item, of_item]
    exact .lift (H.item n hd)
  | .lambda body captured, h => by
    rw [evalWith, evalWith]
    exact (evalWith_matches H ha hb captured h).bind fun d d' hd => .found (H.closure body hd)
  | .filter input predicate, h => by
    have hf := h.resolve_left (by simp [Expr.filterFree])
    rw [evalWith, evalWith]
    refine (evalWith_matches H ha hb input (.inr hf)).bind fun d d' hd => ?_
    exact (evalWith_matches H ha hb predicate (.inr hf)).bind fun p p' hp => hf hd hp
  | .equals left right, h => by
    rw [Expr.filterFree, Bool.and_eq_true] at h
    rw [evalWith, evalWith]
    refine (evalWith_matches H ha hb left (h.imp_left And.left)).bind fun l l' hl => ?_
    refine (force_matches H hl).bind fun v _ hv => ?_
    refine (evalWith_matches H ha hb right (h.imp_left And.right)).bind fun r r' hr => ?_
    refine (force_matches H hr).bind fun w _ hw => ?_
    subst hv hw
    exact .found (H.value _)
  | .branch _ _ _, _ => by
    rw [evalWith, evalWith]
    exact .same_fault _
  | .call _ _, _ => by
    rw [evalWith, evalWith]
    exact .same_fault _

theorem evalAllWith_matches (H : Deferred.Simulation τ s t R) {argument argument' bound bound' : Deferred}
    (ha : R argument argument') (hb : R bound bound') :
    ∀ es : List Expr, (Expr.allFilterFree es = true ∨ FiltersMatch τ s t R invoke invoke') →
      ((of s).evalAllWith invoke argument bound es).Matches τ (fun ds ds' => R (.tuple ds) (.tuple ds'))
        ((of t).evalAllWith invoke' argument' bound' es)
  | [], _ => .found H.nil
  | e :: es, h => by
    rw [Expr.allFilterFree, Bool.and_eq_true] at h
    rw [evalAllWith, evalAllWith]
    refine (evalWith_matches H ha hb e (h.imp_left And.left)).bind fun d d' hd => ?_
    exact (evalAllWith_matches H ha hb es (h.imp_left And.right)).bind fun ds ds' hds => .found (H.cons hd hds)

end

/-! ### Filters and closures -/

theorem holdsOf_matches (H : Deferred.Simulation τ s t R) (hinvoke : InvocationsMatch τ R invoke invoke')
    {p p' : Deferred} (hp : R p p') (element : Value) :
    ((of s).holdsOf invoke p element).Matches τ Eq ((of t).holdsOf invoke' p' element) := by
  refine (hinvoke element hp).bind fun d d' hd => (force_matches H hd).bind fun v _ hv => ?_
  subst hv
  split
  · exact .found rfl
  · exact .same_fault _

theorem filterAfter_matches (H : Deferred.Simulation τ s t R)
    (hinvoke : InvocationsMatch τ R invoke invoke') {a : StoredArray} {p p' : Deferred} (hp : R p p')
    (kept : Array Value) (index count : Nat)
    (helement : ∀ i, index ≤ i → i < index + count → (a.elementAt s i).Matches τ Eq (a.elementAt t i)) :
    ((of s).filterAfter invoke a p kept index count).Matches τ Eq
      ((of t).filterAfter invoke' a p' kept index count) := by
  induction count generalizing kept index with
  | zero => exact .found rfl
  | succ count ih =>
    refine (Bounded.Matches.lift (helement index (Nat.le_refl _) (by omega))).bind fun element _ he => ?_
    subst he
    refine (holdsOf_matches H hinvoke hp element).bind fun holds _ hh => ?_
    subst hh
    exact ih _ _ fun i hi hlt => helement i (by omega) (by omega)

theorem filterWith_matches (H : Deferred.StrictSimulation τ s t R)
    (hinvoke : InvocationsMatch τ R invoke invoke') {a : StoredArray} (ha : a.ReadsAlike τ s t) {p p' : Deferred}
    (hp : R p p') : ((of s).filterWith invoke a p).Matches τ R ((of t).filterWith invoke' a p') := by
  unfold filterWith Deferred.isClosure
  rw [H.kind hp]
  split
  · refine (Bounded.Matches.lift ha.length.and_found).bind fun n _ hn => ?_
    obtain ⟨hn, rfl⟩ := hn
    have helement := ha.element (Outcome.ofOption_eq_found_iff.1 hn)
    refine (filterAfter_matches H.toSimulation hinvoke hp #[] 0 n fun i _ hi => helement i (by omega)).bind ?_
    rintro vs _ rfl
    exact .found (H.value _)
  · exact .same_fault _

end Reader

theorem Deferred.exists_array_of_kind {d : Deferred} (h : d.kind = .array) : ∃ a, d = .array a := by
  match d, h with
  | .array a, _ => exact ⟨a, rfl⟩
  | .value v, h => cases v <;> cases h

theorem FiltersMatch.of_invocations (H : Deferred.StrictSimulation τ s t R)
    (hinvoke : InvocationsMatch τ R invoke invoke') : FiltersMatch τ s t R invoke invoke' := by
  intro d d' p p' hd hp
  split
  next a =>
    obtain ⟨rfl, ha⟩ := H.array hd
    exact Reader.filterWith_matches H hinvoke ha hp
  next hne =>
    split
    next a' =>
      obtain ⟨a, rfl⟩ := Deferred.exists_array_of_kind (H.kind hd)
      exact absurd rfl (hne a)
    next =>
      rw [H.kind hd]
      exact .same_fault _

end Invoking

/-! ### Without a limit -/

namespace Deferred

variable {τ : Tolerance} {s t : Storages} {R : Deferred → Deferred → Prop}

/-- Related functions match on related arguments, however deep closures may nest. -/
theorem applyWithin_matches (H : StrictSimulation τ s t R) (depth : Nat) {f f' x x' : Deferred} (hf : R f f')
    (hx : R x x') : (f.applyWithin s depth x).Matches τ R (f'.applyWithin t depth x') := by
  induction depth generalizing f f' x x' with
  | zero =>
    unfold applyWithin Reader.applyWithin isClosure
    rw [H.kind hf]
    split
    · exact .exhausted _
    · exact .same_fault _
  | succ depth ih =>
    have hfilters : FiltersMatch τ s t R (applyWithin s depth) (applyWithin t depth) :=
      .of_invocations H fun g g' element hg => ih hg (H.value element)
    obtain hc | ⟨body, b, rfl⟩ | ⟨body, v, rfl⟩ := f.isClosure_cases
    · have hc' : f'.isClosure = false := by
        rw [isClosure, ← H.kind hf]
        exact hc
      rw [applyWithin, applyWithin, Reader.applyWithin_of_not_isClosure _ hc, Reader.applyWithin_of_not_isClosure _ hc',
        H.kind hf]
      exact .same_fault _
    · obtain ⟨b', rfl, hb⟩ := H.captured hf
      exact Reader.evalWith_matches H.toSimulation hx hb body (.inr hfilters)
    · obtain rfl := H.code hf
      refine (Reader.evalWith_matches H.toSimulation hx (H.value v) body (.inr hfilters)).bind fun r r' hr => ?_
      refine (Reader.force_matches H.toSimulation hr).bind ?_
      rintro w _ rfl
      exact .found (H.value w)

end Deferred

namespace Expr

variable {τ : Tolerance} {s t : Storages} {R : Deferred → Deferred → Prop}
variable {argument argument' bound bound' : Deferred}

theorem eval_matches (H : Deferred.StrictSimulation τ s t R) (ha : R argument argument') (hb : R bound bound')
    (e : Expr) : (e.eval s argument bound).Matches τ R (e.eval t argument' bound') := by
  let depth := max (e.closureDepth + max argument.closureDepth bound.closureDepth)
    (e.closureDepth + max argument'.closureDepth bound'.closureDepth)
  have hs : e.evalWithin s depth argument bound = some (e.eval s argument bound) :=
    evalWithin_eq s (Nat.le_max_left _ _)
  have ht : e.evalWithin t depth argument' bound' = some (e.eval t argument' bound') :=
    evalWithin_eq t (Nat.le_max_right _ _)
  have hfilters := FiltersMatch.of_invocations H fun f f' element hf =>
    Deferred.applyWithin_matches H depth hf (H.value element)
  exact Reader.evalWith_matches H.toSimulation ha hb e (.inr hfilters) _ _ hs ht

theorem eval_matches_of_filterFree (H : Deferred.Simulation τ s t R) (ha : R argument argument')
    (hb : R bound bound') {e : Expr} (he : e.filterFree = true) :
    (e.eval s argument bound).Matches τ R (e.eval t argument' bound') :=
  Reader.evalWith_matches H ha hb e (.inl he) _ _ (e.evalWith_invoke s argument bound)
    (e.evalWith_invoke t argument' bound')

end Expr

end BitStore
