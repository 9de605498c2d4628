import BitStore.Proofs.Storage.Overlay

/-! Writes to different bytes commute. Seen with zeros behind its end, a storage is its length and a byte
at every position. So seen, a write changes the bytes in its own range and no other, since the gap
that it fills held zeros before; and it raises the length to the end of its range, if that lies
further. Two writes with ranges apart therefore leave the same in either order, wherever they
lie and even if one of them is empty, provided that memory grants the growth they ask for. -/

namespace BitStore.Storage

/-! ### Zeros behind the end -/

/-- The byte at a position, zero behind the end. -/
def byteAt (s : Storage) (j : Nat) : UInt8 :=
  s.bytes[j]?.getD 0

theorem getElem?_eq_byteAt {s : Storage} {j : Nat} (h : j < s.bytes.length) : s.bytes[j]? = some (s.byteAt j) := by
  simp [byteAt, h]

theorem byteAt_eq_zero {s : Storage} {j : Nat} (h : s.bytes.length ≤ j) : s.byteAt j = 0 := by
  simp [byteAt, h]

/-- A storage is determined by its length and its bytes. -/
theorem ext_byteAt {s t : Storage} (hlen : s.bytes.length = t.bytes.length) (h : ∀ j, s.byteAt j = t.byteAt j) : s = t := by
  have hbytes : s.bytes = t.bytes := by
    apply List.ext_getElem?
    intro j
    by_cases hj : j < s.bytes.length
    · rw [getElem?_eq_byteAt hj, getElem?_eq_byteAt (hlen ▸ hj), h]
    · rw [List.getElem?_eq_none (by omega), List.getElem?_eq_none (by omega)]
  exact congrArg mk hbytes

variable {old new : Storage}

/-- With zeros behind the end, a write changes the bytes of its own range and no other. -/
theorem Overlays.byteAt_eq {position : Nat} {written : List UInt8} (h : Overlays old new position written) (j : Nat) :
    new.byteAt j =
      if position ≤ j ∧ j < position + written.length then written[j - position]?.getD 0 else old.byteAt j := by
  have hlen := h.length
  by_cases hin : position ≤ j ∧ j < position + written.length
  · rw [if_pos hin, byteAt, h.inside j hin.1 hin.2]
  rw [if_neg hin]
  by_cases hj : j < old.bytes.length
  · rw [byteAt, byteAt, h.outside j hj (by omega)]
  rw [byteAt_eq_zero (Nat.le_of_not_lt hj)]
  -- Behind the old end there are the zeros of the gap, or nothing.
  by_cases hgap : j < position
  · rw [byteAt, h.gap j (by omega) hgap, Option.getD_some]
  · exact byteAt_eq_zero (by omega)

/-- What was written is what is read from its start on. -/
theorem Overlays.written_prefix {position : Nat} {written : List UInt8} (h : Overlays old new position written) :
    written <+: new.bytes.drop position := by
  rw [List.prefix_iff_getElem?]
  intro i hi
  rw [List.getElem?_drop, h.inside (position + i) (by omega) (by omega), Nat.add_sub_cancel_left,
    List.getElem?_eq_getElem hi]

/-! ### Two writes -/

section Commuting

/-- No position is in both of two ranges, which are given by their starts and lengths. -/
def Apart (p m q n : Nat) : Prop :=
  ∀ j, p ≤ j ∧ j < p + m → ¬(q ≤ j ∧ j < q + n)

variable {xs ys : List UInt8}

/-- What two writes with ranges apart leave does not depend on their order. -/
theorem Overlays.comm {s s' t t' : Storage} {p q : Nat} (h : Apart p xs.length q ys.length)
    (hx : Overlays old s p xs) (hxy : Overlays s s' q ys) (hy : Overlays old t q ys) (hyx : Overlays t t' p xs) :
    s' = t' := by
  apply ext_byteAt
  · rw [hxy.length, hx.length, hyx.length, hy.length]
    omega
  · intro j
    rw [hxy.byteAt_eq, hx.byteAt_eq, hyx.byteAt_eq, hy.byteAt_eq]
    by_cases hj : p ≤ j ∧ j < p + xs.length
    · rw [if_neg (h j hj), if_pos hj, if_pos hj]
    · rw [if_neg hj, if_neg hj]

variable {m n : Memory} {a b : Address}

theorem overlays_of_write (h : (writeThrough m a xs).run old = .ok () new) : Overlays old new (a.bits / 8) xs := by
  rw [writeThrough_run] at h
  split at h
  next =>
    cases h
    exact overlays old a.byteIndex xs
  next => cases h

theorem exists_overlays_of_writes (h : (do writeThrough m a xs; writeThrough n b ys).run old = .ok () new) :
    ∃ middle, Overlays old middle (a.bits / 8) xs ∧ Overlays middle new (b.bits / 8) ys := by
  rw [EStateM.run_bind] at h
  cases hfirst : (writeThrough m a xs).run old with
  | error e s =>
    rw [hfirst] at h
    cases h
  | ok _ middle =>
    rw [hfirst] at h
    exact ⟨middle, overlays_of_write hfirst, overlays_of_write h⟩

/-- Where memory grants all growth, writes come to their end. -/
theorem exists_writes_eq_ok (hm : ∀ length gap, m length gap = true) (old : Storage) (a b : Address) (xs ys : List UInt8) :
    ∃ new, (do writeThrough m a xs; writeThrough m b ys).run old = .ok () new := by
  have hgranted (s : Storage) (a : Address) (bytes : List UInt8) :
      (writeThrough m a bytes).run s = .ok () ((s.extended a.byteIndex).overwrite a.byteIndex bytes) := by
    rw [writeThrough_run, if_pos (Or.inr (hm _ _))]
  rw [EStateM.run_bind, hgranted]
  exact ⟨_, hgranted _ b ys⟩

theorem writes_comm {m' n' : Memory} {s t : Storage} (h : Apart (a.bits / 8) xs.length (b.bits / 8) ys.length)
    (hs : (do writeThrough m a xs; writeThrough n b ys).run old = .ok () s)
    (ht : (do writeThrough m' b ys; writeThrough n' a xs).run old = .ok () t) :
    s = t ∧ xs <+: s.readAt a ∧ ys <+: s.readAt b := by
  obtain ⟨_, hx, hxy⟩ := exists_overlays_of_writes hs
  obtain ⟨_, hy, hyx⟩ := exists_overlays_of_writes ht
  obtain rfl : s = t := Overlays.comm h hx hxy hy hyx
  exact ⟨rfl, hyx.written_prefix, hxy.written_prefix⟩

/-- Two writes whose bytes have different places leave the same storage in either order, if they come to their
end, whatever memory there is at each of them; and where memory grants all growth, they do. Both runs of bytes
are there then. This goes for putting all bytes at once as well. -/
theorem disjoint_writes_commute (old : Storage) (a b : Address) (xs ys : List UInt8)
    (h : Apart (a.bits / 8) xs.length (b.bits / 8) ys.length) :
    (∀ (m n m' n' : Memory) (s t : Storage),
      (do writeThrough m a xs; writeThrough n b ys).run old = .ok () s →
      (do writeThrough m' b ys; writeThrough n' a xs).run old = .ok () t →
      s = t ∧ xs <+: s.readAt a ∧ ys <+: s.readAt b) ∧
    (∀ m : Memory, (∀ length gap, m length gap = true) →
      ∃ both, (do writeThrough m a xs; writeThrough m b ys).run old = .ok () both ∧
        (do writeThrough m b ys; writeThrough m a xs).run old = .ok () both) ∧
    ∀ (m n m' n' : Memory) (s t : Storage),
      (do writeAt a xs m; writeAt b ys n).run old = .ok () s →
      (do writeAt b ys m'; writeAt a xs n').run old = .ok () t →
      s = t ∧ xs <+: s.readAt a ∧ ys <+: s.readAt b := by
  refine ⟨fun _ _ _ _ _ _ => writes_comm h, fun m hm => ?_, fun m n m' n' s t hs ht => ?_⟩
  · obtain ⟨s, hs⟩ := exists_writes_eq_ok hm old a b xs ys
    obtain ⟨t, ht⟩ := exists_writes_eq_ok hm old b a ys xs
    obtain ⟨rfl, _⟩ := writes_comm h hs ht
    exact ⟨s, hs, ht⟩
  · simp only [writeAt_eq_writeThrough] at hs ht
    exact writes_comm h hs ht

/-- Behind the end of two bytes, the write that comes last in the storage leaves a gap for the other to write
over, or finds the other's bytes in front of its own. -/
theorem disjoint_writes_commute_behind_the_end :
    Apart 5 1 3 2 ∧
    ∃ both : Storage, both.bytes = [1, 2, 0, 8, 9, 7] ∧
      (do writeThrough (fun _ _ => true) ⟨40, by decide⟩ [7]; writeThrough (fun _ _ => true) ⟨24, by decide⟩ [8, 9]).run
        ⟨[1, 2]⟩ = .ok () both ∧
      (do writeThrough (fun _ _ => true) ⟨24, by decide⟩ [8, 9]; writeThrough (fun _ _ => true) ⟨40, by decide⟩ [7]).run
        ⟨[1, 2]⟩ = .ok () both ∧
      [7] <+: both.readAt ⟨40, by decide⟩ ∧ [8, 9] <+: both.readAt ⟨24, by decide⟩ := by
  have h : Apart 5 1 3 2 := fun j hj => by omega
  obtain ⟨hcomm, hgranted, _⟩ :=
    disjoint_writes_commute ⟨[1, 2]⟩ ⟨40, by decide⟩ ⟨24, by decide⟩ [7] [8, 9] (by exact h)
  obtain ⟨both, hs, ht⟩ := hgranted (fun _ _ => true) fun _ _ => rfl
  have hboth : (.ok () ⟨[1, 2, 0, 8, 9, 7]⟩ : EStateM.Result Fault Storage Unit) = .ok () both := hs
  cases hboth
  exact ⟨h, _, rfl, hs, ht, (hcomm _ _ _ _ _ _ hs ht).2⟩

end Commuting

end BitStore.Storage
