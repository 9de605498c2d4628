import BitStore.Eval.Bounded

/-! Comparing two runs. The second run matches the first if it finds something
related where the first finds something, and faults alike where the first faults.
A tolerance says which ways of stopping the first run may take, and which of them
leave the second run free. Matching passes through steps in order. -/

namespace BitStore

/-- The same fault, up to how a refused index is written. -/
inductive Fault.Alike : Fault → Fault → Prop
  | refl (e) : Alike e e
  | invalidIndex (d d') : Alike (.invalidIndex d) (.invalidIndex d')

/-- How far the second of two runs may stray from the first. -/
structure Tolerance where
  /-- The first run may come upon missing data; then nothing is said of the second. -/
  missing : Prop
  /-- Where the first run faults, nothing is said of the second. -/
  fault : Prop
  /-- Faults that count as the same. -/
  alike : Fault → Fault → Prop
  alike_refl : ∀ e, alike e e

/-- Nothing goes missing, and faults are equal. -/
def Tolerance.none : Tolerance :=
  ⟨False, False, Eq, fun _ => rfl⟩

/-- What goes missing in the first run may be there in the second. -/
def Tolerance.lack : Tolerance :=
  ⟨True, False, Eq, fun _ => rfl⟩

namespace Outcome

theorem ofOption_eq_found_iff {α : Type} {x : Option α} {a : α} : ofOption x = .found a ↔ x = some a := by
  cases x <;> simp [ofOption]

variable {τ : Tolerance} {α β γ δ : Type} {R : α → β → Prop} {S : γ → δ → Prop}

def Matches (τ : Tolerance) (R : α → β → Prop) : Outcome α → Outcome β → Prop
  | .found a, y => ∃ b, y = .found b ∧ R a b
  | .missing, _ => τ.missing
  | .fault e, y => τ.fault ∨ ∃ f, y = .fault f ∧ τ.alike e f

theorem Matches.found {a : α} {b : β} (h : R a b) : (Outcome.found a).Matches τ R (.found b) :=
  ⟨b, rfl, h⟩

theorem Matches.fault {e f : Fault} (h : τ.alike e f) : (Outcome.fault e : Outcome α).Matches τ R (.fault f : Outcome β) :=
  .inr ⟨f, rfl, h⟩

theorem Matches.same_fault (e : Fault) : (Outcome.fault e : Outcome α).Matches τ R (.fault e : Outcome β) :=
  .fault (τ.alike_refl e)

/-- A run that lacks nothing it may not lack matches itself. -/
theorem Matches.refl {x : Outcome α} (h : x = .missing → τ.missing) : x.Matches τ Eq x := by
  cases x with
  | found a => exact .found rfl
  | missing => exact h rfl
  | fault e => exact .same_fault e

theorem Matches.bind {x : Outcome α} {y : Outcome β} {f : α → Outcome γ} {g : β → Outcome δ}
    (h : x.Matches τ R y) (hf : ∀ a b, R a b → (f a).Matches τ S (g b)) : (x >>= f).Matches τ S (y >>= g) := by
  cases x with
  | found a =>
    obtain ⟨b, rfl, hab⟩ := h
    exact hf a b hab
  | missing => exact h
  | fault e =>
    rcases h with h | ⟨f, rfl, h⟩
    · exact .inl h
    · exact .fault h

theorem Matches.map {x : Outcome α} {y : Outcome β} {f : α → γ} {g : β → δ} (h : x.Matches τ R y)
    (hf : ∀ a b, R a b → S (f a) (g b)) : (f <$> x).Matches τ S (g <$> y) :=
  h.bind fun a b hab => .found (hf a b hab)

/-- Matching through injective maps is matching. -/
theorem Matches.of_map {x : Outcome α} {y : Outcome β} {f : α → γ} {g : β → δ} (h : (f <$> x).Matches τ S (g <$> y))
    (hf : ∀ a b, S (f a) (g b) → R a b) : x.Matches τ R y := by
  cases x with
  | found a =>
    obtain ⟨c, hc, hS⟩ := h
    obtain ⟨b, rfl, hb⟩ := bind_eq_found_iff.1 hc
    obtain rfl : g b = c := Outcome.found.inj hb
    exact .found (hf a b hS)
  | missing => exact h
  | fault e =>
    refine h.imp_right fun ⟨f, hy, hef⟩ => ?_
    cases y with
    | fault e' => exact ⟨e', rfl, by cases hy; exact hef⟩
    | found b => cases hy
    | missing => cases hy

/-- What is related was found by the first run. -/
theorem Matches.and_found {x : Outcome α} {y : Outcome β} (h : x.Matches τ R y) :
    x.Matches τ (fun a b => x = .found a ∧ R a b) y := by
  cases x with
  | found a =>
    obtain ⟨b, hy, hab⟩ := h
    exact ⟨b, hy, rfl, hab⟩
  | missing => exact h
  | fault e => exact h

/-! ### What matching says -/

theorem Matches.ne_missing {x : Outcome α} {y : Outcome β} (h : x.Matches τ R y) (hτ : ¬ τ.missing) : x ≠ .missing := by
  rintro rfl
  exact hτ h

theorem Matches.eq_found {a : α} {x y : Outcome α} (h : x.Matches τ Eq y) (hx : x = .found a) : y = .found a := by
  subst hx
  obtain ⟨b, rfl, rfl⟩ := h
  rfl

theorem Matches.eq_fault {e : Fault} {x : Outcome α} {y : Outcome β} (h : x.Matches τ R y) (hτ : ¬ τ.fault)
    (hx : x = .fault e) : ∃ f, y = .fault f ∧ τ.alike e f := by
  subst hx
  exact h.resolve_left hτ

/-! ### Agreement -/

/-- Both runs find related things, both lack data, or they fault alike. -/
inductive Agrees (alike : Fault → Fault → Prop) (R : α → β → Prop) : Outcome α → Outcome β → Prop
  | found {a b} : R a b → Agrees alike R (.found a) (.found b)
  | missing : Agrees alike R .missing .missing
  | fault {e f} : alike e f → Agrees alike R (.fault e) (.fault f)

/-- Runs that match each other, up to missing data, agree. -/
theorem Matches.agrees {S : β → α → Prop} {x : Outcome α} {y : Outcome β} (h : x.Matches τ R y)
    (hback : y.Matches τ S x) (hτ : ¬ τ.fault) : x.Agrees τ.alike R y := by
  cases x with
  | found a =>
    obtain ⟨b, rfl, hab⟩ := h
    exact .found hab
  | fault e =>
    obtain ⟨f, rfl, hef⟩ := h.eq_fault hτ rfl
    exact .fault hef
  | missing =>
    cases y with
    | missing => exact .missing
    | found b =>
      obtain ⟨a, ha, _⟩ := hback
      cases ha
    | fault f =>
      obtain ⟨e, he, _⟩ := hback.eq_fault hτ rfl
      cases he

theorem Agrees.mono {alike : Fault → Fault → Prop} {R S : α → β → Prop} {x : Outcome α} {y : Outcome β}
    (h : x.Agrees alike R y) (hRS : ∀ a b, R a b → S a b) : x.Agrees alike S y := by
  cases h with
  | found hab => exact .found (hRS _ _ hab)
  | missing => exact .missing
  | fault hef => exact .fault hef

end Outcome

namespace Bounded

variable {τ : Tolerance} {α β γ δ : Type} {R : α → β → Prop} {S : γ → δ → Prop}

/-- Where both limits are high enough, the second outcome matches the first. -/
def Matches (τ : Tolerance) (R : α → β → Prop) (x : Bounded α) (y : Bounded β) : Prop :=
  ∀ o p, x = some o → y = some p → o.Matches τ R p

theorem Matches.lift {x : Outcome α} {y : Outcome β} (h : x.Matches τ R y) :
    (liftM x : Bounded α).Matches τ R (liftM y : Bounded β) := by
  rintro _ _ ⟨⟩ ⟨⟩
  exact h

theorem Matches.found {a : α} {b : β} (h : R a b) : (pure a : Bounded α).Matches τ R (pure b : Bounded β) :=
  .lift (.found h)

theorem Matches.same_fault (e : Fault) : (e.raise : Bounded α).Matches τ R (e.raise : Bounded β) :=
  .lift (.same_fault e)

theorem Matches.exhausted (y : Bounded β) : (exhausted : Bounded α).Matches τ R y := by
  rintro _ _ ⟨⟩

theorem Matches.bind {x : Bounded α} {y : Bounded β} {f : α → Bounded γ} {g : β → Bounded δ}
    (h : x.Matches τ R y) (hf : ∀ a b, R a b → (f a).Matches τ S (g b)) : (x >>= f).Matches τ S (y >>= g) := by
  intro o p ho hp
  match x, y with
  | none, _ => cases ho
  | some _, none => cases hp
  | some (.found a), some y =>
    obtain ⟨b, rfl, hab⟩ := h _ _ rfl rfl
    exact hf a b hab o p ho hp
  | some .missing, some y =>
    cases ho
    exact h _ _ rfl rfl
  | some (.fault e), some y =>
    cases ho
    rcases h _ _ rfl rfl with hτ | ⟨f, rfl, hef⟩
    · exact .inl hτ
    · cases hp
      exact .fault hef

end Bounded

end BitStore
