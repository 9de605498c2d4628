import BitStore.Kind

/-! Schemas: the shape of a dataset. Numbers are not primitive; an unsigned
number of `n` bits is a tuple of `n` bits, most significant first. -/

namespace BitStore

inductive Schema where
  | unit
  | bit
  | tuple (elements : List Schema)
  /-- One of several possibilities; which one is not recorded. -/
  | variant (possibilities : List Schema)
  /-- A sequence whose length is known only when it is read. -/
  | array (element : Schema)
  | function

namespace Schema

/-- The schema of unsigned numbers of `width` bits. -/
def unsigned (width : Nat) : Schema :=
  .tuple (List.replicate width .bit)

/-- Either nothing or the given content. -/
def optional (content : Schema) : Schema :=
  .variant [.unit, content]

def kind : Schema → Kind
  | .unit => .unit
  | .bit => .bit
  | .tuple _ => .tuple
  | .variant _ => .variant
  | .array _ => .array
  | .function => .function

def isBit : Schema → Bool
  | .bit => true
  | _ => false

/-- A tuple of these elements is an unsigned number of at least one bit. -/
def areDigits (elements : List Schema) : Bool :=
  !elements.isEmpty && elements.all isBit

theorem isBit_iff {s : Schema} : s.isBit = true ↔ s = .bit := by
  cases s <;> simp [isBit]

theorem areDigits_iff {elements : List Schema} :
    areDigits elements = true ↔ ∃ width, 0 < width ∧ elements = List.replicate width .bit := by
  rw [areDigits, Bool.and_eq_true, List.all_eq_true]
  simp only [isBit_iff, Bool.not_eq_true', List.isEmpty_eq_false_iff]
  constructor
  · rintro ⟨hne, hall⟩
    exact ⟨elements.length, List.length_pos_iff.2 hne, List.eq_replicate_iff.2 ⟨rfl, hall⟩⟩
  · rintro ⟨width, hwidth, rfl⟩
    exact ⟨List.ne_nil_of_length_pos (by simpa using hwidth), fun _ => List.eq_of_mem_replicate⟩

/-! ### Equality -/

mutual

def same : Schema → Schema → Bool
  | .unit, .unit => true
  | .bit, .bit => true
  | .function, .function => true
  | .tuple ss, .tuple ts => sameAll ss ts
  | .variant ss, .variant ts => sameAll ss ts
  | .array s, .array t => same s t
  | _, _ => false
termination_by structural s => s

def sameAll : List Schema → List Schema → Bool
  | [], [] => true
  | s :: ss, t :: ts => same s t && sameAll ss ts
  | _, _ => false
termination_by structural ss => ss

end

mutual

theorem same_iff : ∀ s t : Schema, same s t = true ↔ s = t
  | .unit, t | .bit, t | .function, t => by cases t <;> simp [same]
  | .tuple ss, t | .variant ss, t => by cases t <;> simp [same, sameAll_iff ss]
  | .array s, t => by cases t <;> simp [same, same_iff s]

theorem sameAll_iff : ∀ ss ts : List Schema, sameAll ss ts = true ↔ ss = ts
  | [], ts => by cases ts <;> simp [sameAll]
  | s :: ss, ts => by cases ts <;> simp [sameAll, same_iff s, sameAll_iff ss]

end

instance : DecidableEq Schema :=
  fun s t => decidable_of_iff _ (same_iff s t)

end Schema

end BitStore
