import BitStore.Proofs.Eval.Index
import BitStore.Proofs.Eval.Simulation

/-! Evaluation cannot tell a tuple of plain values, put together from deferred ones, from the
plain tuple of them. Two values are congruent if they differ in nothing but that; then
both collapse to one value, in which every such tuple is plain. Collapsing changes
neither what a value is forced to nor what it is as an index, and it commutes with picking
items, so values that collapse alike simulate each other. -/

namespace BitStore

namespace Deferred

/-- The least congruence that identifies a tuple of plain values, put together from deferred
ones, with the plain tuple of them. -/
inductive Congruent : Deferred → Deferred → Prop
  | refl (d) : Congruent d d
  | symm {d d'} : Congruent d d' → Congruent d' d
  | trans {d d' d''} : Congruent d d' → Congruent d' d'' → Congruent d d''
  | plain (vs : List Value) : Congruent (.tuple (vs.map .value)) (.value (.tuple vs))
  | element (front back) {d d'} : Congruent d d' → Congruent (.tuple (front ++ d :: back)) (.tuple (front ++ d' :: back))
  | captured (body) {d d'} : Congruent d d' → Congruent (.closure body d) (.closure body d')

/-! ### Collapsing -/

/-- A tuple of deferred values, as a plain one if they all are plain. -/
def bundle (ds : List Deferred) : Deferred :=
  match values? ds with
  | some vs => .value (.tuple vs)
  | none => .tuple ds

mutual

/-- The value with every tuple of plain values made a plain tuple. -/
def collapse : Deferred → Deferred
  | .value v => .value v
  | .array a => .array a
  | .tuple elements => bundle (collapseAll elements)
  | .closure body bound => .closure body (collapse bound)

def collapseAll : List Deferred → List Deferred
  | [] => []
  | d :: ds => collapse d :: collapseAll ds

end

theorem collapseAll_eq (ds : List Deferred) : collapseAll ds = ds.map collapse := by
  induction ds with
  | nil => rfl
  | cons d ds ih => rw [collapseAll, ih, List.map_cons]

theorem collapse_tuple (ds : List Deferred) : (tuple ds).collapse = bundle (ds.map collapse) := by
  rw [collapse, collapseAll_eq]

@[simp] theorem bundle_values (vs : List Value) : bundle (vs.map .value) = .value (.tuple vs) := by
  rw [bundle, values?_eq_some_iff.2 rfl]

/-- A bundle is the plain tuple of values, or holds something that is not plain. -/
theorem bundle_cases (ds : List Deferred) : (∃ vs : List Value, ds = vs.map .value) ∨ bundle ds = .tuple ds := by
  cases h : values? ds with
  | some vs => exact .inl ⟨vs, values?_eq_some_iff.1 h⟩
  | none =>
    right
    rw [bundle, h]

theorem Congruent.bundle (ds : List Deferred) : Congruent (.tuple ds) (bundle ds) := by
  rcases bundle_cases ds with ⟨vs, rfl⟩ | h
  · rw [bundle_values]
    exact .plain vs
  · rw [h]
    exact .refl _

theorem bundle_inj {ds ds' : List Deferred} (h : bundle ds = bundle ds') : ds = ds' := by
  rcases bundle_cases ds with ⟨vs, rfl⟩ | hds
  · rcases bundle_cases ds' with ⟨vs', rfl⟩ | hds'
    · rw [bundle_values, bundle_values] at h
      cases h
      rfl
    · rw [bundle_values, hds'] at h
      cases h
  · rcases bundle_cases ds' with ⟨vs', rfl⟩ | hds'
    · rw [bundle_values, hds] at h
      cases h
    · rw [hds, hds'] at h
      cases h
      rfl

/-! ### Congruent values collapse alike -/

mutual

theorem congruent_collapse : ∀ d : Deferred, Congruent d d.collapse
  | .value v => .refl (.value v)
  | .array a => .refl (.array a)
  | .tuple ds => (congruent_collapseAll [] ds).trans (.bundle (collapseAll ds))
  | .closure body d => (congruent_collapse d).captured body

/-- Elements collapse one after the other, from left to right. -/
theorem congruent_collapseAll : ∀ front ds : List Deferred,
    Congruent (.tuple (front ++ ds)) (.tuple (front ++ collapseAll ds))
  | front, [] => .refl (.tuple (front ++ []))
  | front, d :: ds => by
    have hfirst := (congruent_collapse d).element front ds
    have hrest := congruent_collapseAll (front ++ [d.collapse]) ds
    rw [List.append_assoc, List.append_assoc] at hrest
    exact hfirst.trans hrest

end

theorem Congruent.collapse_eq {d d' : Deferred} (h : Congruent d d') : d.collapse = d'.collapse := by
  induction h with
  | refl d => rfl
  | symm _ ih => exact ih.symm
  | trans _ _ ih ih' => exact ih.trans ih'
  | plain vs =>
    rw [collapse_tuple, List.map_map]
    exact bundle_values vs
  | element front back _ ih =>
    rw [collapse_tuple, collapse_tuple, List.map_append, List.map_append, List.map_cons, List.map_cons, ih]
  | captured body _ ih => rw [collapse, collapse, ih]

/-- Two values are congruent exactly if they collapse to the same. -/
theorem congruent_iff {d d' : Deferred} : Congruent d d' ↔ d.collapse = d'.collapse := by
  refine ⟨Congruent.collapse_eq, fun h => ?_⟩
  have hd := congruent_collapse d
  rw [h] at hd
  exact hd.trans (congruent_collapse d').symm

theorem collapse_collapse (d : Deferred) : d.collapse.collapse = d.collapse :=
  (congruent_collapse d).collapse_eq.symm

/-! ### What collapsing keeps -/

theorem kind_collapse (d : Deferred) : d.collapse.kind = d.kind := by
  cases d with
  | value | array | closure => rfl
  | tuple ds =>
    rw [collapse_tuple]
    rcases bundle_cases (ds.map collapse) with ⟨vs, h⟩ | h
    · rw [h, bundle_values]
      rfl
    · rw [h]
      rfl

/-- Only a tuple collapses to a tuple. -/
theorem eq_value_of_collapse_eq {d : Deferred} {v : Value} (h : d.collapse = .value v) (hv : v.kind ≠ .tuple) :
    d = .value v := by
  cases d with
  | value w => exact h
  | array | closure => cases h
  | tuple ds =>
    have hkind := kind_collapse (tuple ds)
    rw [h] at hkind
    exact absurd hkind hv

theorem eq_array_of_collapse_eq {d : Deferred} {a : StoredArray} (h : d.collapse = .array a) : d = .array a := by
  cases d with
  | array b => exact h
  | value | closure => cases h
  | tuple ds =>
    have hkind := kind_collapse (tuple ds)
    rw [h] at hkind
    cases hkind

theorem exists_eq_closure_of_collapse_eq {d : Deferred} {body : Expr} {b : Deferred} (h : d.collapse = .closure body b) :
    ∃ b', d = .closure body b' ∧ b'.collapse = b := by
  cases d with
  | closure body' b' =>
    cases h
    exact ⟨b', rfl, rfl⟩
  | value | array => cases h
  | tuple ds =>
    have hkind := kind_collapse (tuple ds)
    rw [h] at hkind
    cases hkind

section Force

variable (stores : Storages)

theorem forceAll_values (vs : List Value) : forceAll stores (vs.map .value) =
    if Value.anyContainsClosure vs then .fault (.notReducible .closure) else .found vs := by
  induction vs with
  | nil => rfl
  | cons v vs ih =>
    rw [List.map_cons, forceAll_cons, force_value, ih, Value.anyContainsClosure]
    cases v.containsClosure with
    | true => rfl
    | false => cases Value.anyContainsClosure vs <;> rfl

theorem force_bundle (ds : List Deferred) : (bundle ds).force stores = (tuple ds).force stores := by
  rcases bundle_cases ds with ⟨vs, rfl⟩ | h
  · rw [bundle_values, force_value, force_tuple, forceAll_values, Value.containsClosure]
    cases Value.anyContainsClosure vs <;> rfl
  · rw [h]

mutual

theorem force_collapse : ∀ d : Deferred, d.collapse.force stores = d.force stores
  | .value _ | .array _ | .closure _ _ => rfl
  | .tuple ds => by
    rw [collapse, force_bundle, force_tuple, force_tuple, forceAll_collapseAll ds]

theorem forceAll_collapseAll : ∀ ds : List Deferred, forceAll stores (collapseAll ds) = forceAll stores ds
  | [] => rfl
  | d :: ds => by rw [collapseAll, forceAll_cons, forceAll_cons, force_collapse d, forceAll_collapseAll ds]

end

theorem force_eq_of_collapse_eq {d d' : Deferred} (h : d.collapse = d'.collapse) :
    d.force stores = d'.force stores := by
  rw [← force_collapse, h, force_collapse]

end Force

/-! ### Indices -/

theorem collapse_eq_bit_iff {d : Deferred} {b : Bool} : d.collapse = .value (.bit b) ↔ d = .value (.bit b) := by
  refine ⟨fun h => eq_value_of_collapse_eq h nofun, ?_⟩
  rintro rfl
  rfl

theorem map_collapse_eq_digits_iff {ds : List Deferred} {bits : Bits} : ds.map collapse = digits bits ↔ ds = digits bits := by
  induction bits generalizing ds with
  | nil => exact List.map_eq_nil_iff
  | cons b bits ih =>
    cases ds with
    | nil => exact Iff.rfl
    | cons d ds =>
      rw [digits, List.map_cons, List.map_cons, List.cons.injEq, List.cons.injEq, collapse_eq_bit_iff]
      exact and_congr_right fun _ => ih

theorem toIndex_bundle_eq_ok_iff {ds : List Deferred} {n : Nat} : (bundle ds).toIndex = .ok n ↔ (tuple ds).toIndex = .ok n := by
  rcases bundle_cases ds with ⟨vs, rfl⟩ | h
  · rw [bundle_values, toIndex, toIndex, values?_eq_some_iff.2 rfl]
    dsimp only [Option.map_some]
    cases Value.numberOf AddressSpace.width vs <;> simp
  · rw [h]

theorem toIndex_collapse_eq_ok_iff {d : Deferred} {n : Nat} : d.collapse.toIndex = .ok n ↔ d.toIndex = .ok n := by
  cases d with
  | value v => rfl
  | array a => rfl
  | closure body d => exact ⟨nofun, nofun⟩
  | tuple ds =>
    rw [collapse_tuple, toIndex_bundle_eq_ok_iff, toIndex_tuple_eq_ok_iff, toIndex_tuple_eq_ok_iff]
    simp only [map_collapse_eq_digits_iff]

/-! ### Items -/

theorem ofExcept_pick_map {α β : Type} (f : α → β) (as : List α) (n : Nat) :
    Outcome.ofExcept (pick (as.map f) n) = f <$> Outcome.ofExcept (pick as n) := by
  rw [pick, pick, List.getElem?_map, List.length_map]
  cases as[n]? <;> rfl

theorem item_bundle (stores : Storages) (ds : List Deferred) (n : Nat) :
    (bundle ds).item stores n = (tuple ds).item stores n := by
  rcases bundle_cases ds with ⟨vs, rfl⟩ | h
  · rw [bundle_values, item_value_tuple, item_tuple, ofExcept_pick_map]
  · rw [h]

/-- Whether a value has collapsed makes no difference to its items, once these collapse. -/
theorem collapse_item (stores : Storages) (d : Deferred) (n : Nat) :
    collapse <$> d.collapse.item stores n = collapse <$> d.item stores n := by
  cases d with
  | value v => rfl
  | array a => rfl
  | closure body d => rfl
  | tuple ds =>
    rw [collapse_tuple, item_bundle, item_tuple, item_tuple, ofExcept_pick_map]
    cases Outcome.ofExcept (pick ds n) with
    | found d => exact congrArg Outcome.found (collapse_collapse d)
    | missing => rfl
    | fault e => rfl

/-! ### The simulation -/

/-- Missing data is left open, and faults are alike. -/
def collapsing : Tolerance :=
  ⟨True, False, Fault.Alike, .refl⟩

theorem index_matches_of_collapse_eq {d d' : Deferred} (h : d.collapse = d'.collapse) :
    (Outcome.ofExcept d.toIndex).Matches collapsing Eq (.ofExcept d'.toIndex) := by
  have hok (n : Nat) : d.toIndex = .ok n ↔ d'.toIndex = .ok n := by
    rw [← toIndex_collapse_eq_ok_iff, h, toIndex_collapse_eq_ok_iff]
  rcases d.toIndex_cases with ⟨n, hn⟩ | he
  · rw [hn, (hok n).1 hn]
    exact .found rfl
  · rcases d'.toIndex_cases with ⟨n, hn⟩ | he'
    · rw [(hok n).2 hn] at he
      cases he
    · rw [he, he']
      exact .fault (.invalidIndex d d')

/-- Values that collapse alike can stand for each other. -/
theorem collapse_simulation (stores : Storages) :
    StrictSimulation collapsing stores stores fun d d' => d.collapse = d'.collapse where
  value _ := rfl
  nil := rfl
  cons := by
    intro d d' ds ds' hd hds
    rw [collapse_tuple, collapse_tuple] at hds ⊢
    rw [List.map_cons, List.map_cons, hd, bundle_inj hds]
  closure body := by
    intro d d' h
    rw [collapse, collapse, h]
  force := by
    intro d d' h
    rw [force_eq_of_collapse_eq stores h]
    exact .refl fun _ => True.intro
  index := index_matches_of_collapse_eq
  item := by
    intro d d' n h
    have hitem : collapse <$> d.item stores n = collapse <$> d'.item stores n := by
      rw [← collapse_item, h, collapse_item]
    refine Outcome.Matches.of_map ?_ fun _ _ heq => heq
    rw [hitem]
    exact .refl fun _ => True.intro
  kind := by
    intro d d' h
    rw [← kind_collapse d, h, kind_collapse]
  array := by
    intro a d' h
    exact ⟨eq_array_of_collapse_eq h.symm, .refl fun _ => True.intro, fun _ _ _ => .refl fun _ => True.intro⟩
  captured := by
    intro body b d' h
    obtain ⟨b', rfl, hb⟩ := exists_eq_closure_of_collapse_eq h.symm
    exact ⟨b', rfl, hb.symm⟩
  code := by
    intro body v d' h
    exact eq_value_of_collapse_eq h.symm nofun

/-! ### Indistinguishable values -/

/-- Evaluation cannot tell congruent values apart: they are forced to the same, and every
expression finds congruent values where it is given them, or it lacks data both times, or it
faults alike both times. -/
theorem Congruent.indistinguishable (stores : Storages) {argument argument' : Deferred}
    (ha : Congruent argument argument') :
    argument.force stores = argument'.force stores ∧
    ∀ (e : Expr) {bound bound'}, Congruent bound bound' →
      (e.eval stores argument bound).Agrees Fault.Alike Congruent (e.eval stores argument' bound') := by
  refine ⟨force_eq_of_collapse_eq stores ha.collapse_eq, fun e bound bound' hb => ?_⟩
  have H := collapse_simulation stores
  have hforth := e.eval_matches H ha.collapse_eq hb.collapse_eq
  have hback := e.eval_matches H ha.symm.collapse_eq hb.symm.collapse_eq
  exact (hforth.agrees hback not_false).mono fun d d' => congruent_iff.2

/-- The second of two bytes is found, whether its index is a plain tuple or not. -/
theorem Congruent.indistinguishable_index_of_second :
    ∃ stores : Storages, stores = (fun _ => ⟨[0, 0, 0, 0, 0, 0, 0, 2, 5, 6]⟩) ∧
      Congruent (.tuple [.array ⟨.zero, .bitset 8⟩, .tuple [.value (.bit true)]])
        (.tuple [.array ⟨.zero, .bitset 8⟩, .value (.tuple [.bit true])]) ∧
      Congruent (.value .unit) (.value .unit) ∧
      ∃ d, ((Expr.argument.nth 0).item (Expr.argument.nth 1)).eval stores
          (.tuple [.array ⟨.zero, .bitset 8⟩, .value (.tuple [.bit true])]) (.value .unit) = .found d ∧
        Congruent (.value (.unsigned 8 6)) d := by
  let stores : Storages := fun _ => ⟨[0, 0, 0, 0, 0, 0, 0, 2, 5, 6]⟩
  have ha : Congruent (.tuple [.array ⟨.zero, .bitset 8⟩, .tuple [.value (.bit true)]])
      (.tuple [.array ⟨.zero, .bitset 8⟩, .value (.tuple [.bit true])]) :=
    .element [.array ⟨.zero, .bitset 8⟩] [] (.plain [.bit true])
  have hlazy : ((Expr.argument.nth 0).item (Expr.argument.nth 1)).eval stores
      (.tuple [.array ⟨.zero, .bitset 8⟩, .tuple [.value (.bit true)]]) (.value .unit) =
        .found (.value (.unsigned 8 6)) := by
    rw [Expr.eval_item, Expr.eval_nth (by decide), Expr.eval_nth (by decide), Expr.eval_argument]
    rfl
  have hagree := (ha.indistinguishable stores).2 ((Expr.argument.nth 0).item (Expr.argument.nth 1))
    (.refl (.value .unit))
  rw [hlazy] at hagree
  refine ⟨stores, rfl, ha, .refl _, ?_⟩
  generalize Expr.eval _ _ _ _ = y at hagree ⊢
  cases hagree with
  | found hd => exact ⟨_, rfl, hd⟩

end Deferred

end BitStore
