import BitStore.Schema.Layout

/-! Which schemas have no layout. The layouts of the parts of a schema are worked out one after
the other, depth first and from left to right, and none is passed over, whether or not the
tuple around it can still fold. So a schema is rejected exactly if a unit or a function
occurs in it, and the error names the kind of the first one that is come upon. -/

namespace BitStore.Schema

mutual

/-- Every schema that occurs in a schema, itself included, depth first and from left to right. -/
def nodes : Schema → List Schema
  | .unit => [.unit]
  | .bit => [.bit]
  | .tuple elements => .tuple elements :: nodesAll elements
  | .variant possibilities => .variant possibilities :: nodesAll possibilities
  | .array element => .array element :: nodes element
  | .function => [.function]

def nodesAll : List Schema → List Schema
  | [] => []
  | s :: ss => nodes s ++ nodesAll ss

end

/-- The schema has no layout, and not because of anything inside it. -/
def lacksLayout : Schema → Bool
  | .unit => true
  | .function => true
  | _ => false

theorem lacksLayout_iff {s : Schema} : s.lacksLayout = true ↔ s = .unit ∨ s = .function := by
  cases s <;> simp [lacksLayout]

theorem find?_lacksLayout_eq_none_iff {ss : List Schema} :
    ss.find? lacksLayout = none ↔ .unit ∉ ss ∧ .function ∉ ss := by
  simp only [List.find?_eq_none, lacksLayout_iff]
  constructor
  · exact fun h => ⟨fun hmem => h _ hmem (.inl rfl), fun hmem => h _ hmem (.inr rfl)⟩
  · rintro ⟨hunit, hfunction⟩ s hs (rfl | rfl)
    · exact hunit hs
    · exact hfunction hs

/-! ### The error that is reported -/

/-- The error is about the given schema, and without one there is a result. -/
inductive Reports {α : Type} : Option Schema → Except LayoutError α → Prop
  | nothing (a) : Reports none (.ok a)
  | first (s) : Reports (some s) (.error ⟨s.kind⟩)

namespace Reports

variable {α β : Type} {x y : Option Schema} {r : Except LayoutError α}

theorem map (h : Reports x r) (f : α → β) : Reports x (r >>= fun a => pure (f a)) := by
  cases h with
  | nothing a => exact .nothing (f a)
  | first s => exact .first s

/-- Of two computations in a row the first that fails is reported. -/
theorem seq (h : Reports x r) {f : α → Except LayoutError β} (hf : ∀ a, Reports y (f a)) :
    Reports (x.or y) (r >>= f) := by
  cases h with
  | nothing a => exact hf a
  | first s => exact .first s

theorem eq_error_iff (h : Reports x r) {e : LayoutError} : r = .error e ↔ ∃ s, x = some s ∧ e = ⟨s.kind⟩ := by
  cases h <;> simp [eq_comm]

theorem exists_ok_iff (h : Reports x r) : (∃ a, r = .ok a) ↔ x = none := by
  cases h <;> simp

end Reports

mutual

/-- The first schema without a layout is reported. -/
theorem layout_reports : ∀ s : Schema, Reports (s.nodes.find? lacksLayout) s.layout
  | .unit => .first .unit
  | .bit => .nothing (Layout.bitset 1)
  | .tuple ss => (layouts_reports ss).map Layout.packed
  | .variant ss => (layouts_reports ss).map Layout.variant
  | .array s => (layout_reports s).map Layout.array
  | .function => .first .function

theorem layouts_reports : ∀ ss : List Schema, Reports ((nodesAll ss).find? lacksLayout) (layouts ss)
  | [] => .nothing []
  | s :: ss => by
    rw [nodesAll, List.find?_append, layouts]
    exact (layout_reports s).seq fun l => (layouts_reports ss).map (l :: ·)

end

/-- A schema has no layout exactly if a unit or a function occurs in it, wherever that is. The error is
then about the first of these from the left, and says of which kind it is. -/
theorem layout_rejects_exactly (s : Schema) :
    ((∃ e, s.layout = .error e) ↔ .unit ∈ s.nodes ∨ .function ∈ s.nodes) ∧
    (∀ e, s.layout = .error e ↔ ∃ t, s.nodes.find? lacksLayout = some t ∧ e = ⟨t.kind⟩) ∧
    ((∃ l, s.layout = .ok l) ↔ .unit ∉ s.nodes ∧ .function ∉ s.nodes) := by
  have hreports := layout_reports s
  have hok : (∃ l, s.layout = .ok l) ↔ .unit ∉ s.nodes ∧ .function ∉ s.nodes :=
    hreports.exists_ok_iff.trans find?_lacksLayout_eq_none_iff
  refine ⟨?_, fun e => hreports.eq_error_iff, hok⟩
  rw [Decidable.or_iff_not_not_and_not, ← hok]
  cases s.layout <;> simp

example : (tuple [.array .bit, .variant [.tuple [.bit, .function], .unit]]).layout = .error ⟨.function⟩ := by rfl

end BitStore.Schema
