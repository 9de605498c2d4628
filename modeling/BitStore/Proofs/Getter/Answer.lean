import BitStore.Plan
import BitStore.Proofs.Eval.Index
import BitStore.Proofs.Eval.Locality
import BitStore.Proofs.Storage.Elements

/-! What getters answer. A getter is handed a pair, the dataset and the argument of
its caller. The first of the pair is the whole dataset, and an item of that is one
element. Whatever else a getter does, its answer depends on the storage only through
the array that is the dataset. -/

namespace BitStore

/-- The array that a getter is handed as the dataset. -/
def Layout.root (layout : Layout) : StoredArray :=
  ⟨.zero, layout.element?.getD layout⟩

namespace Expr

/-- What a getter answers when it is handed a dataset and an argument. -/
def answer (getter : Expr) (stores : Storages) (dataset : Deferred) (argument : Value) : Outcome Value := do
  let d ← getter.eval stores (.tuple [dataset, .value argument]) (.value .unit)
  d.force stores

theorem run_eq_answer (getter : Expr) (store : Storage) (layout : Layout) (argument : Value) :
    getter.run store layout argument = getter.answer store (.array layout.root) argument := rfl

/-! ### The dataset and its items -/

variable (stores : Storages) (dataset : Deferred) (argument : Value)

theorem eval_dataset : (Expr.argument.nth 0).eval stores (.tuple [dataset, .value argument]) (.value .unit) =
    .found dataset := by
  rw [eval_nth (by decide), eval_argument]
  rfl

theorem eval_caller_argument : (Expr.argument.nth 1).eval stores (.tuple [dataset, .value argument]) (.value .unit) =
    .found (.value argument) := by
  rw [eval_nth (by decide), eval_argument]
  rfl

theorem answer_dataset : (Expr.argument.nth 0).answer stores dataset argument = dataset.force stores := by
  rw [answer, eval_dataset, Outcome.found_bind]

theorem answer_item {index : Nat} (h : index < AddressSpace.size) :
    ((Expr.argument.nth 0).nth index).answer stores dataset argument =
      dataset.item stores index >>= fun d => d.force stores := by
  rw [answer, eval_nth h, eval_dataset, Outcome.found_bind]

variable (store : Storage) (layout : Layout)

theorem run_dataset : (Expr.argument.nth 0).run store layout argument = layout.root.materialize store := by
  rw [run_eq_answer, answer_dataset, Deferred.force_array]

/-- An element in storage is bits, so there is nothing left to force. -/
theorem run_item {index : Nat} (h : index < AddressSpace.size) :
    ((Expr.argument.nth 0).nth index).run store layout argument = layout.root.get store index := by
  rw [run_eq_answer, answer_item store _ argument h, Deferred.item_array]
  cases hget : layout.root.get store index with
  | found v =>
    obtain ⟨row, rfl⟩ := StoredArray.get_eq_ofBits hget
    simp [Deferred.force_value]
  | missing => rfl
  | fault e => rfl

/-! ### Where an answer comes from -/

variable {dataset} {layout} {τ : Tolerance} {s t : Storages}

theorem answer_local {P : StoredArray → Prop} (hP : ∀ a, P a → a.ReadsAlike τ s t) (hd : dataset.Arrays P)
    (getter : Expr) : (getter.answer s dataset argument).Matches τ Eq (getter.answer t dataset argument) := by
  have H := Deferred.arrays_simulation hP
  have hinput : Deferred.Arrays P (.tuple [dataset, .value argument]) := .cons hd (.cons (.value argument) .nil)
  refine (getter.eval_matches H ⟨rfl, hinput⟩ ⟨rfl, .value .unit⟩).bind ?_
  rintro d _ ⟨rfl, hd⟩
  exact H.force ⟨rfl, hd⟩

theorem run_local {s t : Storage} (h : layout.root.ReadsAlike τ s t) (getter : Expr) :
    (getter.run s layout argument).Matches τ Eq (getter.run t layout argument) := by
  have hP (a : StoredArray) (ha : a = layout.root) : a.ReadsAlike τ s t := ha ▸ h
  exact answer_local argument hP (.array rfl) getter

end Expr

end BitStore
