import BitStore.Bits.Basic

/-! Sources of bits. A source gives one bit after the other, until it is dry or for ever. What is read
from it is told by the bits that lead from one state of it to the next; a source that runs dry yields
just those that lead there. A source may be seen as another one, most often as the list of its bits. -/

namespace BitStore

/-- Something that bits are read from, one by one. -/
class BitSource (σ : Type) where
  next? : σ → Option (Bool × σ)

/-- A list gives its first bit. -/
instance : BitSource Bits where
  next?
    | [] => none
    | b :: bits => some (b, bits)

namespace BitSource

variable {σ τ : Type} [BitSource σ] [BitSource τ]

/-- Reading these bits leads from the one state of the source to the other. -/
def Gives : (source : σ) → Bits → (after : σ) → Prop
  | source, [], after => source = after
  | source, b :: bits, after => ∃ rest, next? source = some (b, rest) ∧ Gives rest bits after

/-- Read bit by bit, the source gives these bits and is dry after them. -/
def Yields : (source : σ) → Bits → Prop
  | source, [] => next? source = none
  | source, b :: bits => ∃ rest, next? source = some (b, rest) ∧ Yields rest bits

theorem Gives.append {source middle after : σ} {front back : Bits} (h : Gives source front middle)
    (hback : Gives middle back after) : Gives source (front ++ back) after := by
  induction front generalizing source with
  | nil => exact h ▸ hback
  | cons b front ih =>
    obtain ⟨rest, hnext, hrest⟩ := h
    exact ⟨rest, hnext, ih hrest⟩

/-- Bits that were read as one run were read as two. -/
theorem Gives.split {source after : σ} {front back : Bits} (h : Gives source (front ++ back) after) :
    ∃ middle, Gives source front middle ∧ Gives middle back after := by
  induction front generalizing source with
  | nil => exact ⟨source, rfl, h⟩
  | cons b front ih =>
    obtain ⟨rest, hnext, hrest⟩ := h
    obtain ⟨middle, hfront, hback⟩ := ih hrest
    exact ⟨middle, ⟨rest, hnext, hfront⟩, hback⟩

theorem Yields.split {source : σ} {front back : Bits} (h : Yields source (front ++ back)) :
    ∃ after, Gives source front after ∧ Yields after back := by
  induction front generalizing source with
  | nil => exact ⟨source, rfl, h⟩
  | cons b front ih =>
    obtain ⟨rest, hnext, hrest⟩ := h
    obtain ⟨after, hfront, hback⟩ := ih hrest
    exact ⟨after, ⟨rest, hnext, hfront⟩, hback⟩

/-! ### Sources seen as others -/

/-- Seen in this way, the one source gives the bits of the other. -/
structure SeenAs (view : σ → τ) : Prop where
  next : ∀ s, next? (view s) = (next? s).map fun r => (r.1, view r.2)

namespace SeenAs

variable {view : σ → τ} {bitsLeft : σ → Bits}

theorem comp {υ : Type} [BitSource υ] {further : τ → υ} (hfurther : SeenAs further) (h : SeenAs view) :
    SeenAs fun s => further (view s) where
  next s := by
    rw [hfurther.next, h.next, Option.map_map]
    rfl

theorem eq_nil (h : SeenAs bitsLeft) {s : σ} (hs : next? s = none) : bitsLeft s = [] := by
  have hnext := h.next s
  rw [hs] at hnext
  cases hbits : bitsLeft s with
  | nil => rfl
  | cons b bits =>
    rw [hbits] at hnext
    cases hnext

theorem eq_cons (h : SeenAs bitsLeft) {s rest : σ} {b : Bool} (hs : next? s = some (b, rest)) :
    bitsLeft s = b :: bitsLeft rest := by
  have hnext := h.next s
  rw [hs] at hnext
  cases hbits : bitsLeft s with
  | nil =>
    rw [hbits] at hnext
    cases hnext
  | cons c bits =>
    rw [hbits] at hnext
    obtain ⟨rfl, rfl⟩ := Prod.mk.inj (Option.some.inj hnext)
    rfl

/-- A source that is seen as the list of its bits yields these. -/
theorem yields_iff (h : SeenAs bitsLeft) {s : σ} {bits : Bits} : Yields s bits ↔ bitsLeft s = bits := by
  induction bits generalizing s with
  | nil =>
    rw [Yields]
    cases hs : next? s with
    | none => exact iff_of_true rfl (h.eq_nil hs)
    | some r => simp [h.eq_cons hs]
  | cons b bits ih =>
    rw [Yields]
    cases hs : next? s with
    | none => simp [h.eq_nil hs]
    | some r =>
      obtain ⟨c, rest⟩ := r
      simp [h.eq_cons hs, ih, and_assoc]

end SeenAs

end BitSource

end BitStore
