import BitStore.Proofs.Getter.Answer
import BitStore.Proofs.Storage.Reading

/-! More data never changes an answer. Whatever a stored array yields, it still
yields after bytes were added at the end of the storage. So a getter that finds
something or faults does just the same on the longer storage, and on a truncated
storage it lacks data or answers as on the full one. -/

namespace BitStore

namespace StoredArray

variable (a : StoredArray) (stores : Storages) (tail : Nat → List UInt8)

theorem elementAt_append (index : Nat) :
    (a.elementAt stores index).Matches .lack Eq (a.elementAt (fun n => (stores n).append (tail n)) index) := by
  unfold elementAt
  split
  next width _ =>
    split
    next address _ =>
      cases h : (stores a.start.storage).access address width with
      | none => exact True.intro
      | some v =>
        rw [Storage.access_append _ h]
        exact .found rfl
    next => exact True.intro
  next => exact .same_fault _

/-- An array reads alike after bytes were added at the end of any of the storages. -/
theorem readsAlike_append : a.ReadsAlike .lack stores fun n => (stores n).append (tail n) where
  length := by
    unfold length?
    cases h : (stores a.start.storage).countAt a.start.toAddress with
    | none => exact True.intro
    | some n =>
      rw [Storage.countAt_append _ h]
      exact .found rfl
  element _ i _ := a.elementAt_append stores tail i

end StoredArray

theorem Storage.append_drop (s : Storage) (length : Nat) : (s.truncate length).append (s.bytes.drop length) = s := by
  rw [truncate, append, List.take_append_drop]

/-- A getter that finds something or faults does just the same on a longer storage,
and on a truncated one it lacks data or answers as on the whole. -/
theorem Expr.run_of_more_data (getter : Expr) (layout : Layout) (argument : Value) (s : Storage) :
    (∀ tail v, getter.run s layout argument = .found v → getter.run (s.append tail) layout argument = .found v) ∧
    (∀ tail e, getter.run s layout argument = .fault e → getter.run (s.append tail) layout argument = .fault e) ∧
    (∀ length, getter.run (s.truncate length) layout argument = .missing ∨
      getter.run (s.truncate length) layout argument = getter.run s layout argument) := by
  have hmatch (s : Storage) (tail : List UInt8) :
      (getter.run s layout argument).Matches .lack Eq (getter.run (s.append tail) layout argument) :=
    Expr.run_local argument (layout.root.readsAlike_append s fun _ => tail) getter
  have hfault (s : Storage) (tail : List UInt8) (e : Fault) (h : getter.run s layout argument = .fault e) :
      getter.run (s.append tail) layout argument = .fault e := by
    obtain ⟨f, hf, rfl⟩ := (hmatch s tail).eq_fault not_false h
    exact hf
  refine ⟨fun tail v => (hmatch s tail).eq_found, fun tail e => hfault s tail e, fun length => ?_⟩
  have hs := s.append_drop length
  cases h : getter.run (s.truncate length) layout argument with
  | missing => exact .inl rfl
  | found v =>
    right
    rw [← hs]
    exact ((hmatch _ _).eq_found h).symm
  | fault e =>
    right
    rw [← hs]
    exact (hfault _ _ e h).symm

end BitStore
