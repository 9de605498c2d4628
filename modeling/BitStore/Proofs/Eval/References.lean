import BitStore.Proofs.Eval.Inquiry
import BitStore.Proofs.Eval.Locality

/-! Where references to stored arrays come from. Evaluation makes none: each array in what it yields
occurred in its argument or its bound value, with the same start and the same layout of elements,
however it got through tuples, captured values and predicates. Evaluation asks only about arrays that
it holds, so the element counts that it reads from storages are those of the arrays it was given, and
storages that none of these is in make no difference. -/

namespace BitStore

variable {α β : Type} {P : StoredArray → Prop}

/-! ### Occurrences -/

/-- The array is in the value: as such, in a tuple or captured by a closure, at any depth. -/
inductive StoredArray.OccursIn (a : StoredArray) : Deferred → Prop
  | array : OccursIn a (.array a)
  | tuple {d ds} : d ∈ ds → OccursIn a d → OccursIn a (.tuple ds)
  | closure (body) {d} : OccursIn a d → OccursIn a (.closure body d)

namespace Deferred

theorem Arrays.of_occursIn {a : StoredArray} {d : Deferred} (hd : Arrays P d) (h : a.OccursIn d) : P a := by
  induction h with
  | array =>
    cases hd with
    | array ha => exact ha
  | tuple hmem _ ih => exact ih (hd.of_mem hmem)
  | closure body _ ih =>
    cases hd with
    | closure _ hd => exact ih hd

mutual

theorem arrays_of_occursIn : ∀ d : Deferred, (∀ a : StoredArray, a.OccursIn d → P a) → Arrays P d
  | .value v, _ => .value v
  | .array a, h => .array (h a .array)
  | .tuple ds, h => arrays_tuple_of_occursIn ds fun _ hd a ha => h a (.tuple hd ha)
  | .closure body d, h => .closure body (arrays_of_occursIn d fun a ha => h a (.closure body ha))

theorem arrays_tuple_of_occursIn :
    ∀ ds : List Deferred, (∀ d ∈ ds, ∀ a : StoredArray, a.OccursIn d → P a) → Arrays P (.tuple ds)
  | [], _ => .nil
  | d :: ds, h =>
    .cons (arrays_of_occursIn d (h d List.mem_cons_self))
      (arrays_tuple_of_occursIn ds fun c hc => h c (List.mem_cons_of_mem d hc))

end

end Deferred

/-! ### Inquiries about some arrays -/

namespace Inquiry

/-- Whatever the answers, only arrays with the one property are asked about, and anything found has the other. -/
def Within (P : StoredArray → Prop) (Q : α → Prop) : Inquiry α → Prop
  | done x => ∀ a, x = some (.found a) → Q a
  | askCount start next => (∃ a, P a ∧ a.start = start) ∧ ∀ n, (next n).Within P Q
  | askElement a _ next => P a ∧ ∀ v, (next v).Within P Q

section Rules

variable {Q : α → Prop} {R : β → Prop}

theorem Within.bind {x : Inquiry α} {f : α → Inquiry β} (hx : x.Within P Q) (hf : ∀ a, Q a → (f a).Within P R) :
    (x >>= f).Within P R := by
  induction x with
  | done x =>
    match x with
    | some (.found a) => exact hf a (hx a rfl)
    | some .missing => exact nofun
    | some (.fault e) => exact nofun
    | none => exact nofun
  | askCount start next ih => exact ⟨hx.1, fun n => ih n (hx.2 n)⟩
  | askElement a index next ih => exact ⟨hx.1, fun v => ih v (hx.2 v)⟩

theorem Within.pure {a : α} (h : Q a) : (pure a : Inquiry α).Within P Q := by
  rintro _ ⟨⟩
  exact h

theorem Within.lift {x : Outcome α} (h : ∀ a, x = .found a → Q a) : (liftM x : Inquiry α).Within P Q :=
  fun a ha => h a (Option.some.inj ha)

theorem Within.raise (e : Fault) : (e.raise : Inquiry α).Within P Q :=
  nofun

theorem Within.exhausted : (done .exhausted : Inquiry α).Within P Q :=
  nofun

/-- What storages answer keeps to the properties. -/
theorem Within.found {x : Inquiry α} (h : x.Within P Q) {stores : Storages} {a : α}
    (ha : x.run stores = some (.found a)) : Q a := by
  induction x with
  | done x => exact h a ha
  | askCount start next ih => exact ih _ (h.2 _) ha
  | askElement b index next ih => exact ih _ (h.2 _) ha

theorem Within.countsRead {x : Inquiry α} (h : x.Within P Q) (stores : Storages) :
    ∀ start ∈ x.countsRead stores, ∃ a, P a ∧ a.start = start := by
  induction x with
  | done x => exact nofun
  | askCount start next ih =>
    intro other hother
    rcases List.mem_cons.1 hother with rfl | hother
    · exact h.1
    · exact ih _ (h.2 _) other hother
  | askElement a index next ih => exact ih _ (h.2 _)

/-- Other storages lead to the same outcome if they agree where the arrays are that are asked about. -/
theorem Within.run_congr {x : Inquiry α} (h : x.Within P Q) {stores others : Storages}
    (hsame : ∀ a, P a → stores a.start.storage = others a.start.storage) : x.run stores = x.run others := by
  induction x with
  | done x => rfl
  | askCount start next ih =>
    obtain ⟨⟨a, ha, rfl⟩, hnext⟩ := h
    rw [run, run, hsame a ha]
    exact ih _ (hnext _)
  | askElement a index next ih =>
    have helement : a.elementAt stores index = a.elementAt others index := by
      rw [StoredArray.elementAt, StoredArray.elementAt, hsame a h.1]
    rw [run, run, helement]
    exact ih _ (h.2 _)

end Rules

/-! ### The inquiries of evaluation -/

theorem length_within {a : StoredArray} (ha : P a) : (asking.length a).Within P fun _ => True :=
  ⟨⟨a, ha, rfl⟩, fun _ _ _ => trivial⟩

theorem element_within {a : StoredArray} (ha : P a) (index : Nat) : (asking.element a index).Within P fun _ => True :=
  ⟨ha, fun _ _ _ => trivial⟩

theorem get_within {a : StoredArray} (ha : P a) (index : Nat) : (asking.get a index).Within P fun _ => True := by
  refine (length_within ha).bind fun length _ => ?_
  split
  · exact element_within ha index
  · exact .raise _

theorem elementsAfter_within {a : StoredArray} (ha : P a) (read : Array Value) (index count : Nat) :
    (asking.elementsAfter a read index count).Within P fun _ => True := by
  induction count generalizing read index with
  | zero => exact .pure trivial
  | succ count ih => exact (element_within ha index).bind fun element _ => ih _ _

theorem materialize_within {a : StoredArray} (ha : P a) : (asking.materialize a).Within P fun _ => True :=
  (length_within ha).bind fun length _ => (elementsAfter_within ha #[] 0 length).bind fun _ _ => .pure trivial

mutual

theorem force_within : ∀ {d : Deferred}, Deferred.Arrays P d → (asking.force d).Within P fun _ => True
  | .value v, _ => by
    rw [Reader.force]
    split
    · exact .raise _
    · exact .pure trivial
  | .array a, .array ha => by
    rw [Reader.force]
    exact materialize_within ha
  | .tuple ds, hds => by
    rw [Reader.force]
    exact (forceAll_within fun _ => hds.of_mem).bind fun vs _ => .pure trivial
  | .closure _ _, _ => by
    rw [Reader.force]
    exact .raise _

theorem forceAll_within : ∀ {ds : List Deferred}, (∀ d ∈ ds, Deferred.Arrays P d) →
    (asking.forceAll ds).Within P fun _ => True
  | [], _ => .pure trivial
  | d :: ds, h => by
    rw [Reader.forceAll]
    refine (force_within (h d List.mem_cons_self)).bind fun v _ => ?_
    exact (forceAll_within fun c hc => h c (List.mem_cons_of_mem d hc)).bind fun vs _ => .pure trivial

end

theorem item_within {d : Deferred} (hd : Deferred.Arrays P d) (index : Nat) :
    (asking.item index d).Within P (Deferred.Arrays P) := by
  match d, hd with
  | .array a, .array ha => exact (get_within ha index).bind fun v _ => .pure (.value v)
  | .tuple ds, hds =>
    rw [Reader.item, Deferred.pick]
    cases h : ds[index]? with
    | none => exact .raise (.indexOutOfRange index ds.length)
    | some d => exact .pure (hds.of_mem (List.mem_of_getElem? h))
  | .value (.tuple vs), _ => exact (Within.lift fun _ _ => trivial).bind fun v _ => .pure (.value v)
  | .value .unit, _ | .value (.bit _), _ | .value (.variant _), _ | .value (.closure _ _), _ | .closure _ _, _ =>
    exact .raise _

section Invoking

variable {invoke : Deferred → Deferred → Inquiry Deferred}

/-- Invoking a function on a plain element keeps to the arrays of the function. -/
def InvocationsWithin (P : StoredArray → Prop) (invoke : Deferred → Deferred → Inquiry Deferred) : Prop :=
  ∀ ⦃f⦄ element, Deferred.Arrays P f → (invoke f (.value element)).Within P (Deferred.Arrays P)

theorem holdsOf_within (hinvoke : InvocationsWithin P invoke)
    {predicate : Deferred} (hp : Deferred.Arrays P predicate) (element : Value) :
    (asking.holdsOf invoke predicate element).Within P fun _ => True := by
  refine (hinvoke element hp).bind fun verdict hverdict => ?_
  refine (force_within hverdict).bind fun v _ => ?_
  split
  · exact .pure trivial
  · exact .raise _

theorem filterAfter_within (hinvoke : InvocationsWithin P invoke)
    {a : StoredArray} (ha : P a) {predicate : Deferred} (hp : Deferred.Arrays P predicate) (kept : Array Value)
    (index count : Nat) : (asking.filterAfter invoke a predicate kept index count).Within P fun _ => True := by
  induction count generalizing kept index with
  | zero => exact .pure trivial
  | succ count ih =>
    refine (element_within ha index).bind fun element _ => ?_
    exact (holdsOf_within hinvoke hp element).bind fun holds _ => ih _ _

theorem filterWith_within (hinvoke : InvocationsWithin P invoke)
    {a : StoredArray} (ha : P a) {predicate : Deferred} (hp : Deferred.Arrays P predicate) :
    (asking.filterWith invoke a predicate).Within P (Deferred.Arrays P) := by
  unfold Reader.filterWith
  split
  · refine (length_within ha).bind fun length _ => ?_
    exact (filterAfter_within hinvoke ha hp #[] 0 length).bind fun vs _ => .pure (.value _)
  · exact .raise _

mutual

theorem evalWith_within (hinvoke : InvocationsWithin P invoke)
    {argument bound : Deferred} (ha : Deferred.Arrays P argument) (hb : Deferred.Arrays P bound) :
    ∀ e : Expr, (asking.evalWith invoke argument bound e).Within P (Deferred.Arrays P)
  | .literal v => by
    rw [Reader.evalWith]
    exact .pure (.value v)
  | .argument => by
    rw [Reader.evalWith]
    exact .pure ha
  | .bound => by
    rw [Reader.evalWith]
    exact .pure hb
  | .tuple elements => by
    rw [Reader.evalWith]
    exact (evalAllWith_within hinvoke ha hb elements).bind fun ds hds => .pure hds
  | .item subject index => by
    rw [Reader.evalWith]
    refine (evalWith_within hinvoke ha hb subject).bind fun d hd => ?_
    refine (evalWith_within hinvoke ha hb index).bind fun i _ => ?_
    exact (Within.lift fun n _ => trivial).bind fun n _ => item_within hd n
  | .lambda body captured => by
    rw [Reader.evalWith]
    exact (evalWith_within hinvoke ha hb captured).bind fun d hd => .pure (.closure body hd)
  | .filter input predicate => by
    rw [Reader.evalWith]
    refine (evalWith_within hinvoke ha hb input).bind fun d hd => ?_
    refine (evalWith_within hinvoke ha hb predicate).bind fun p hp => ?_
    cases hd with
    | array h => exact filterWith_within hinvoke h hp
    | value | nil | cons | closure => exact .raise _
  | .equals left right => by
    rw [Reader.evalWith]
    refine (evalWith_within hinvoke ha hb left).bind fun l hl => (force_within hl).bind fun v _ => ?_
    exact (evalWith_within hinvoke ha hb right).bind fun r hr => (force_within hr).bind fun w _ => .pure (.value _)
  | .branch _ _ _ => by
    rw [Reader.evalWith]
    exact .raise _
  | .call _ _ => by
    rw [Reader.evalWith]
    exact .raise _

theorem evalAllWith_within (hinvoke : InvocationsWithin P invoke)
    {argument bound : Deferred} (ha : Deferred.Arrays P argument) (hb : Deferred.Arrays P bound) :
    ∀ es : List Expr, (asking.evalAllWith invoke argument bound es).Within P fun ds => Deferred.Arrays P (.tuple ds)
  | [] => .pure .nil
  | e :: es => by
    rw [Reader.evalAllWith]
    refine (evalWith_within hinvoke ha hb e).bind fun d hd => ?_
    exact (evalAllWith_within hinvoke ha hb es).bind fun ds hds => .pure (.cons hd hds)

end

end Invoking

/-- Closures that came as data captured no arrays, and what they yield is forced, so it has none either. -/
theorem applyWithin_within (depth : Nat) {function argument : Deferred} (hf : Deferred.Arrays P function)
    (hx : Deferred.Arrays P argument) : (applyWithin depth function argument).Within P (Deferred.Arrays P) := by
  induction depth generalizing function argument with
  | zero =>
    rw [applyWithin, Reader.applyWithin]
    split
    · exact .exhausted
    · exact .raise _
  | succ depth ih =>
    have hinvoke : InvocationsWithin P (applyWithin depth) := fun f element h => ih h (.value element)
    obtain hc | ⟨body, b, rfl⟩ | ⟨body, v, rfl⟩ := function.isClosure_cases
    · rw [applyWithin, Reader.applyWithin_of_not_isClosure _ hc]
      exact .raise _
    · cases hf with
      | closure _ hb => exact evalWith_within hinvoke hx hb body
    · refine (evalWith_within hinvoke hx (.value v) body).bind fun r hr => ?_
      exact (force_within hr).bind fun w _ => .pure (.value w)

theorem eval_within (e : Expr) {argument bound : Deferred} (ha : Deferred.Arrays P argument)
    (hb : Deferred.Arrays P bound) : (eval e argument bound).Within P (Deferred.Arrays P) :=
  evalWith_within (fun _ element hf => applyWithin_within _ hf (.value element)) ha hb e

theorem filter_within {a : StoredArray} (ha : P a) {predicate : Deferred} (hp : Deferred.Arrays P predicate) :
    (filter a predicate).Within P (Deferred.Arrays P) :=
  filterWith_within (fun _ element hf => applyWithin_within _ hf (.value element)) ha hp

/-- An inquiry within some arrays: no others are in what is found, and no others have their counts read. -/
theorem Within.references {x : Inquiry Deferred} (h : x.Within P (Deferred.Arrays P)) {stores : Storages}
    {outcome : Outcome Deferred} (hrun : x.run stores = some outcome) :
    (∀ d, outcome = .found d → ∀ a : StoredArray, a.OccursIn d → P a) ∧ x.run stores = some outcome ∧
      ∀ start ∈ x.countsRead stores, ∃ a, P a ∧ a.start = start := by
  refine ⟨?_, hrun, h.countsRead stores⟩
  rintro d rfl a ha
  exact (h.found hrun).of_occursIn ha

end Inquiry

/-! ### References -/

/-- Of several storages, evaluation depends on those that its inputs have arrays in. -/
theorem Expr.eval_congr_storages (e : Expr) {argument bound : Deferred} {stores others : Storages}
    (hsame : ∀ a : StoredArray, a.OccursIn argument ∨ a.OccursIn bound →
      stores a.start.storage = others a.start.storage) :
    e.eval stores argument bound = e.eval others argument bound := by
  have ha := Deferred.arrays_of_occursIn argument fun a => Or.inl (b := a.OccursIn bound)
  have hb := Deferred.arrays_of_occursIn bound fun a => Or.inr (a := a.OccursIn argument)
  apply Option.some.inj
  rw [← Inquiry.run_eval, ← Inquiry.run_eval]
  exact (Inquiry.eval_within e ha hb).run_congr hsame

/-- With any storages, what an expression evaluates to has only arrays of the argument and the bound value
in it. The outcome is the one that the storages' answers lead the inquiry of the expression to, and
each element count read on the way is that of one of these arrays. The same holds of picking an item,
with the arrays of the whole, of filtering, with the filtered array and those of the predicate, and of
invoking a function, with those of the function and its argument. -/
theorem references_come_from_inputs (stores : Storages) :
    (∀ (e : Expr) (argument bound : Deferred),
      (∀ d, e.eval stores argument bound = .found d →
        ∀ a : StoredArray, a.OccursIn d → a.OccursIn argument ∨ a.OccursIn bound) ∧
      (Inquiry.eval e argument bound).run stores = some (e.eval stores argument bound) ∧
      ∀ start ∈ (Inquiry.eval e argument bound).countsRead stores,
        ∃ a : StoredArray, (a.OccursIn argument ∨ a.OccursIn bound) ∧ a.start = start) ∧
    (∀ (whole : Deferred) (index : Nat),
      (∀ d, whole.item stores index = .found d → ∀ a : StoredArray, a.OccursIn d → a.OccursIn whole) ∧
      (Inquiry.item index whole).run stores = some (whole.item stores index) ∧
      ∀ start ∈ (Inquiry.item index whole).countsRead stores,
        ∃ a : StoredArray, a.OccursIn whole ∧ a.start = start) ∧
    (∀ (filtered : StoredArray) (predicate : Deferred),
      (∀ d, filtered.filter stores predicate = .found d →
        ∀ a : StoredArray, a.OccursIn d → a = filtered ∨ a.OccursIn predicate) ∧
      (Inquiry.filter filtered predicate).run stores = some (filtered.filter stores predicate) ∧
      ∀ start ∈ (Inquiry.filter filtered predicate).countsRead stores,
        ∃ a : StoredArray, (a = filtered ∨ a.OccursIn predicate) ∧ a.start = start) ∧
    ∀ function argument : Deferred,
      (∀ d, function.apply stores argument = .found d →
        ∀ a : StoredArray, a.OccursIn d → a.OccursIn function ∨ a.OccursIn argument) ∧
      (Inquiry.apply function argument).run stores = some (function.apply stores argument) ∧
      ∀ start ∈ (Inquiry.apply function argument).countsRead stores,
        ∃ a : StoredArray, (a.OccursIn function ∨ a.OccursIn argument) ∧ a.start = start := by
  refine ⟨fun e argument bound => ?_, fun whole index => ?_, fun filtered predicate => ?_, fun function argument => ?_⟩
  · have ha := Deferred.arrays_of_occursIn argument fun a => Or.inl (b := a.OccursIn bound)
    have hb := Deferred.arrays_of_occursIn bound fun a => Or.inr (a := a.OccursIn argument)
    exact (Inquiry.eval_within e ha hb).references (Inquiry.run_eval stores e argument bound)
  · have hwhole := Deferred.arrays_of_occursIn whole fun a => id
    exact (Inquiry.item_within hwhole index).references (Inquiry.run_item stores index whole)
  · have hp := Deferred.arrays_of_occursIn predicate fun a => Or.inr (a := a = filtered)
    exact (Inquiry.filter_within (.inl rfl) hp).references (Inquiry.run_filter stores filtered predicate)
  · have hf := Deferred.arrays_of_occursIn function fun a => Or.inl (b := a.OccursIn argument)
    have hx := Deferred.arrays_of_occursIn argument fun a => Or.inr (a := a.OccursIn function)
    exact (Inquiry.applyWithin_within _ hf hx).references (Inquiry.run_apply stores function argument)

/-- One byte is filtered by its equality with the first of an array in another storage, which the predicate
captured. The closure in the result still has the other array, and the two element counts that are read
are those of the two arrays. -/
theorem references_come_from_inputs_two_storages :
    ∃ (stores : Storages) (here there : StoredArray) (e : Expr),
      stores = (fun n => if n = 0 then ⟨[0, 0, 0, 0, 0, 0, 0, 1, 7]⟩ else ⟨[0, 0, 0, 0, 0, 0, 0, 2, 7, 9]⟩) ∧
      here = ⟨⟨.zero, 0⟩, .bitset 8⟩ ∧ there = ⟨⟨.zero, 1⟩, .bitset 8⟩ ∧
      e = .tuple [.lambda .argument .bound,
        .filter .argument (.lambda (.equals .argument (.item .bound (.literal (.tuple [])))) .bound)] ∧
      (∃ d, e.eval stores (.array here) (.array there) = .found d ∧
        d = .tuple [.closure .argument (.array there), .value (.tuple [.unsigned 8 7])] ∧
        ∀ a : StoredArray, a.OccursIn d → a.OccursIn (.array here) ∨ a.OccursIn (.array there)) ∧
      (Inquiry.eval e (.array here) (.array there)).countsRead stores = [here.start, there.start] ∧
      ∃ a : StoredArray, (a.OccursIn (.array here) ∨ a.OccursIn (.array there)) ∧ a.start = there.start := by
  obtain ⟨hfound, _, hcounts⟩ := (references_come_from_inputs
    fun n => if n = 0 then ⟨[0, 0, 0, 0, 0, 0, 0, 1, 7]⟩ else ⟨[0, 0, 0, 0, 0, 0, 0, 2, 7, 9]⟩).1
    (.tuple [.lambda .argument .bound,
      .filter .argument (.lambda (.equals .argument (.item .bound (.literal (.tuple [])))) .bound)])
    (.array ⟨⟨.zero, 0⟩, .bitset 8⟩) (.array ⟨⟨.zero, 1⟩, .bitset 8⟩)
  exact ⟨_, _, _, _, rfl, rfl, rfl, rfl, ⟨_, rfl, rfl, hfound _ rfl⟩, rfl,
    hcounts _ (List.mem_cons_of_mem _ List.mem_cons_self)⟩

end BitStore
