import BitStore.Proofs.Getter.Answer
import BitStore.Proofs.Storage.Reading

/-! A complete dataset always answers. Where a storage holds every bit that its element
count asks for, no getter lacks data, and every storage that starts with the same bits
answers alike. So bits behind the dataset are never looked at. -/

namespace BitStore

/-- How many bits a dataset of `count` elements takes up, its element count included.
Elements that are not bitsets cannot be read, so there only the element count matters. -/
def Layout.extent (element : Layout) (count : Nat) : Nat :=
  match element with
  | .bitset width => AddressSpace.width + width * count
  | _ => AddressSpace.width

theorem Layout.width_le_extent (element : Layout) (count : Nat) : AddressSpace.width ≤ element.extent count := by
  cases element with
  | bitset width => exact Nat.le_add_right _ _
  | unit | tuple | array | variant => exact Nat.le_refl _

namespace Bits

/-- Two runs of bits that start alike have the same bits wherever both still agree. -/
theorem take_drop_congr {bits others : Bits} {n : Nat} (h : bits.take n = others.take n) {start width : Nat}
    (hle : start + width ≤ n) : (bits.drop start).take width = (others.drop start).take width := by
  have hcut (run : Bits) : (run.drop start).take width = ((run.take n).drop start).take width := by
    have hwidth : width ≤ n - start := by omega
    rw [List.drop_take, List.take_take, Nat.min_eq_left hwidth]
  rw [hcut bits, hcut others, h]

end Bits

namespace Storage

/-- The storage starts with an element count and holds that many elements in full, at
addresses that exist. -/
structure Complete (s : Storage) (element : Layout) (count : Nat) : Prop where
  count_eq : Bits.toNat (s.toBits.take AddressSpace.width) = count
  extent_le : element.extent count ≤ s.toBits.length
  extent_lt : element.extent count < AddressSpace.size

namespace Complete

variable {s t : Storage} {element : Layout} {count : Nat}

theorem length? (h : s.Complete element count) : (StoredArray.mk .zero element).length? s = some count := by
  have hwidth := element.width_le_extent count
  have hle := h.extent_le
  rw [length_toBits] at hle
  have hread : s.Readable .zero AddressSpace.width := .inl (by rw [Address.bits_zero]; omega)
  rw [StoredArray.length?, countAt_eq_some_iff]
  exact ⟨hread, h.count_eq.symm⟩

theorem element_end_le (width : Nat) {index : Nat} (hi : index < count) :
    AddressSpace.width + width * index + width ≤ (Layout.bitset width).extent count := by
  have hmul : width * (index + 1) ≤ width * count := Nat.mul_le_mul_left width hi
  rw [Nat.mul_succ] at hmul
  rw [Layout.extent]
  omega

/-- An element below the count is read where the width puts it. -/
theorem elementAt {width : Nat} (h : s.Complete (.bitset width) count) {index : Nat} (hi : index < count) :
    (StoredArray.mk .zero (.bitset width)).elementAt s index =
      .found (.ofBits ((s.toBits.drop (AddressSpace.width + width * index)).take width)) := by
  have hend := element_end_le width hi
  have hlt := h.extent_lt
  have hle := h.extent_le
  rw [length_toBits] at hle
  let a : Address := ⟨AddressSpace.width + width * index, by omega⟩
  have haddress : Address.zero.element width index = .ok a := by
    rw [Address.element_eq_ok_iff, Address.bits_zero, Nat.zero_add]
  have hread : s.Readable a width := .inl (Nat.le_trans hend hle)
  exact StoredArray.elementAt_of_access rfl haddress (s.access_eq_some_iff.2 ⟨hread, rfl⟩)

/-- A storage that starts as a complete one does, to the end of the dataset, is complete. -/
theorem of_take_eq (h : s.Complete element count)
    (ht : t.toBits.take (element.extent count) = s.toBits.take (element.extent count)) :
    t.Complete element count where
  count_eq := by
    have hwidth : 0 + AddressSpace.width ≤ element.extent count := by
      rw [Nat.zero_add]
      exact element.width_le_extent count
    have hfirst : t.toBits.take AddressSpace.width = s.toBits.take AddressSpace.width :=
      Bits.take_drop_congr ht hwidth
    rw [hfirst]
    exact h.count_eq
  extent_le := by
    have hlen := congrArg List.length ht
    have hle := h.extent_le
    rw [List.length_take, List.length_take] at hlen
    omega
  extent_lt := h.extent_lt

/-- The dataset is read alike from both storages, and nothing of it is missing. -/
theorem readsAlike (h : s.Complete element count)
    (ht : t.toBits.take (element.extent count) = s.toBits.take (element.extent count)) :
    (StoredArray.mk .zero element).ReadsAlike .none s t where
  length := by
    rw [h.length?, (h.of_take_eq ht).length?]
    exact .found rfl
  element := by
    intro n hn i hi
    obtain rfl : n = count := Option.some.inj (hn.symm.trans h.length?)
    cases element with
    | bitset width =>
      rw [h.elementAt hi, (h.of_take_eq ht).elementAt hi, Bits.take_drop_congr ht (element_end_le width hi)]
      exact .found rfl
    | unit | tuple | array | variant => exact .same_fault _

end Complete

end Storage

namespace Outcome

/-- Where nothing is tolerated, outcomes that match are the same. -/
theorem Matches.eq_of_none {α : Type} {x y : Outcome α} (h : x.Matches .none Eq y) : y = x := by
  cases x with
  | found a => exact h.eq_found rfl
  | missing => exact absurd rfl (h.ne_missing not_false)
  | fault e =>
    obtain ⟨f, hy, rfl⟩ := h.eq_fault not_false rfl
    exact hy

end Outcome

namespace Expr

/-- From a complete dataset a getter never lacks data, and it answers the same from every
storage that starts with the bits of the dataset. -/
theorem run_of_complete (getter : Expr) (layout : Layout) (argument : Value) {s : Storage} {count : Nat}
    (h : s.Complete layout.root.element count) :
    getter.run s layout argument ≠ .missing ∧
    ∀ t : Storage, s.toBits.take (layout.root.element.extent count) <+: t.toBits →
      getter.run t layout argument = getter.run s layout argument := by
  have hmatch (t : Storage)
      (ht : t.toBits.take (layout.root.element.extent count) = s.toBits.take (layout.root.element.extent count)) :
      (getter.run s layout argument).Matches .none Eq (getter.run t layout argument) :=
    run_local argument (h.readsAlike ht) getter
  refine ⟨(hmatch s rfl).ne_missing not_false, fun t hprefix => ?_⟩
  have hlen : (s.toBits.take (layout.root.element.extent count)).length = layout.root.element.extent count :=
    List.length_take_of_le h.extent_le
  have ht := List.prefix_iff_eq_take.1 hprefix
  rw [hlen] at ht
  exact (hmatch t ht.symm).eq_of_none

/-- A single element of twelve bits ends inside a byte. What else is in that byte or behind it makes
no difference, even to a filter whose predicate reads the dataset again. -/
theorem run_of_complete_inside_a_byte :
    ∃ getter : Expr, getter = .filter (Expr.argument.nth 0)
      (.lambda (.equals .argument (Expr.bound.nth 0)) (Expr.argument.nth 0)) ∧
    Storage.Complete ⟨[0, 0, 0, 0, 0, 0, 0, 1, 0xab, 0xc0]⟩ (.bitset 12) 1 ∧
    getter.run ⟨[0, 0, 0, 0, 0, 0, 0, 1, 0xab, 0xc0]⟩ (.array (.bitset 12)) .unit ≠ .missing ∧
    getter.run ⟨[0, 0, 0, 0, 0, 0, 0, 1, 0xab, 0xcf, 0xff]⟩ (.array (.bitset 12)) .unit =
      getter.run ⟨[0, 0, 0, 0, 0, 0, 0, 1, 0xab, 0xc0]⟩ (.array (.bitset 12)) .unit := by
  have hcomplete : Storage.Complete ⟨[0, 0, 0, 0, 0, 0, 0, 1, 0xab, 0xc0]⟩ (.bitset 12) 1 :=
    ⟨by decide, by decide, by decide⟩
  refine ⟨_, rfl, hcomplete, ?_⟩
  have h := run_of_complete (.filter (Expr.argument.nth 0)
    (.lambda (.equals .argument (Expr.bound.nth 0)) (Expr.argument.nth 0))) (.array (.bitset 12)) .unit hcomplete
  exact ⟨h.1, h.2 ⟨[0, 0, 0, 0, 0, 0, 0, 1, 0xab, 0xcf, 0xff]⟩ (by decide)⟩

end Expr

end BitStore
