import BitStore.Proofs.Schema.Bitset

/-! Which tuples fold. Adding up widths step by step, as long as the address space holds the sum,
comes to the whole sum or to nothing. So a schema is laid out as a bitset exactly if it
groups bits and the address space holds their number. In all other layouts no tuple is
left that could have been folded, and that makes them canonical: only a bitset has a width. -/

namespace BitStore

namespace Layout

/-! ### Sums of widths -/

theorem bitsetsAfter?_eq_some_iff {before total : Nat} {ls : List Layout} (hbefore : before < AddressSpace.size) :
    bitsetsAfter? before ls = some total ↔
      ∃ widths : List Nat, ls = widths.map .bitset ∧ total = before + widths.foldr (· + ·) 0 ∧ total < AddressSpace.size := by
  induction ls generalizing before with
  | nil =>
    rw [bitsetsAfter?, Option.some_inj]
    constructor
    · rintro rfl
      exact ⟨[], rfl, rfl, hbefore⟩
    · rintro ⟨widths, hnil, rfl, _⟩
      rw [List.map_eq_nil_iff.1 hnil.symm]
      rfl
  | cons l ls ih =>
    rw [Schema.bitsetsAfter?_cons_eq_some_iff]
    constructor
    · rintro ⟨width, rfl, hwidth, h⟩
      obtain ⟨widths, rfl, rfl, hlt⟩ := (ih hwidth).1 h
      exact ⟨width :: widths, rfl, Nat.add_assoc _ _ _, hlt⟩
    · rintro ⟨widths, hls, rfl, hlt⟩
      obtain ⟨width, rest, rfl, rfl, rfl⟩ := List.map_eq_cons_iff.1 hls.symm
      have hsum : before + (width :: rest).foldr (· + ·) 0 = before + width + rest.foldr (· + ·) 0 :=
        (Nat.add_assoc _ _ _).symm
      have hwidth : before + width < AddressSpace.size := by omega
      exact ⟨width, rfl, hwidth, (ih hwidth).2 ⟨rest, rfl, hsum, hlt⟩⟩

theorem bitsetsAfter?_cons_of_ne {l : Layout} (h : ∀ width, l ≠ .bitset width) (before : Nat) (ls : List Layout) :
    bitsetsAfter? before (l :: ls) = none := by
  refine Option.eq_none_iff_forall_ne_some.2 fun total htotal => ?_
  obtain ⟨width, rfl, _⟩ := Schema.bitsetsAfter?_cons_eq_some_iff.1 htotal
  exact h width rfl

/-- Not all of these are bitsets, or the address space does not hold the sum of their widths. -/
def Unfoldable (ls : List Layout) : Prop :=
  (∃ l ∈ ls, ∀ width, l ≠ .bitset width) ∨
    ∃ widths : List Nat, ls = widths.map .bitset ∧ AddressSpace.size ≤ widths.foldr (· + ·) 0

theorem exists_widths_or (ls : List Layout) :
    (∃ widths : List Nat, ls = widths.map .bitset) ∨ ∃ l ∈ ls, ∀ width, l ≠ .bitset width := by
  induction ls with
  | nil => exact .inl ⟨[], rfl⟩
  | cons l ls ih =>
    rcases ih with ⟨widths, rfl⟩ | ⟨m, hm, hne⟩
    · cases l with
      | bitset width => exact .inl ⟨width :: widths, rfl⟩
      | unit | tuple | array | variant => exact .inr ⟨_, List.mem_cons_self, nofun⟩
    · exact .inr ⟨m, List.mem_cons_of_mem l hm, hne⟩

theorem unfoldable_of_bitsetsAfter? {ls : List Layout} (h : bitsetsAfter? 0 ls = none) : Unfoldable ls := by
  rcases exists_widths_or ls with ⟨widths, rfl⟩ | hne
  · refine .inr ⟨widths, rfl, Nat.le_of_not_lt fun hlt => ?_⟩
    have hsum := (bitsetsAfter?_eq_some_iff (by decide)).2 ⟨widths, rfl, (Nat.zero_add _).symm, hlt⟩
    rw [h] at hsum
    cases hsum
  · exact .inl hne

/-! ### Canonical layouts -/

/-- There is no unit in the layout, the address space holds the width of every bitset in it, and every
tuple in it has elements that do not fold. -/
inductive Canonical : Layout → Prop
  | bitset {width} : width < AddressSpace.size → Canonical (.bitset width)
  | tuple {ls} : (∀ l ∈ ls, Canonical l) → bitsetsAfter? 0 ls = none → Canonical (.tuple ls)
  | array {l} : Canonical l → Canonical (.array l)
  | variant {ls} : (∀ l ∈ ls, Canonical l) → Canonical (.variant ls)

/-- A layout is inside itself and inside every tuple, array and variant of a layout it is inside. -/
inductive Inside : Layout → Layout → Prop
  | refl (l) : Inside l l
  | element {l m ms} : m ∈ ms → Inside l m → Inside l (.tuple ms)
  | array {l m} : Inside l m → Inside l (.array m)
  | possibility {l m ms} : m ∈ ms → Inside l m → Inside l (.variant ms)

namespace Canonical

theorem of_inside {l m : Layout} (h : l.Inside m) (hm : m.Canonical) : l.Canonical := by
  induction h with
  | refl => exact hm
  | element hmem _ ih =>
    cases hm with
    | tuple hms _ => exact ih (hms _ hmem)
  | array _ ih =>
    cases hm with
    | array hm => exact ih hm
  | possibility hmem _ ih =>
    cases hm with
    | variant hms => exact ih (hms _ hmem)

theorem packed {ls : List Layout} (h : ∀ l ∈ ls, l.Canonical) : (Layout.packed ls).Canonical := by
  unfold Layout.packed
  split
  next width hsome =>
    obtain ⟨_, _, _, hlt⟩ := (bitsetsAfter?_eq_some_iff (by decide)).1 hsome
    exact .bitset hlt
  next hnone => exact .tuple h hnone

end Canonical

/-- Where only bitsets have a width, the width of a run is the one that folding gives it. -/
theorem widthAfter?_eq_bitsetsAfter? {ls : List Layout} (h : ∀ l ∈ ls, ∀ n, l.width? = some n ↔ l = .bitset n)
    (before : Nat) : widthAfter? before ls = bitsetsAfter? before ls := by
  induction ls generalizing before with
  | nil => rfl
  | cons l ls ih =>
    obtain ⟨hl, hls⟩ := List.forall_mem_cons.1 h
    cases hwidth : l.width? with
    | some width =>
      obtain rfl : l = .bitset width := (hl width).1 hwidth
      exact bind_congr fun total => ih hls total
    | none =>
      have hne (width : Nat) : l ≠ .bitset width := by
        intro heq
        rw [(hl width).2 heq] at hwidth
        cases hwidth
      rw [widthAfter?, hwidth, bitsetsAfter?_cons_of_ne hne]
      rfl

/-- Of canonical layouts only the bitsets have a width. -/
theorem Canonical.width?_eq_some_iff {l : Layout} (h : l.Canonical) {n : Nat} : l.width? = some n ↔ l = .bitset n := by
  induction h generalizing n with
  | bitset => simp [width?]
  | tuple _ hnone ih =>
    rw [width?, widthAfter?_eq_bitsetsAfter? (fun l hl n => ih l hl), hnone]
    exact iff_of_false nofun nofun
  | array | variant => exact iff_of_false nofun nofun

end Layout

namespace Schema

/-! ### Layouts of schemas -/

mutual

theorem canonical_of_layout : ∀ (s : Schema) {l : Layout}, s.layout = .ok l → l.Canonical
  | .bit, _, h => by
    cases h
    exact .bitset (by decide)
  | .tuple ss, _, h => by
    obtain ⟨ls, hls, ⟨⟩⟩ := bind_eq_ok_iff.1 h
    exact .packed (canonical_of_layouts ss hls)
  | .variant ss, _, h => by
    obtain ⟨ls, hls, ⟨⟩⟩ := bind_eq_ok_iff.1 h
    exact .variant (canonical_of_layouts ss hls)
  | .array s, _, h => by
    obtain ⟨l, hl, ⟨⟩⟩ := bind_eq_ok_iff.1 h
    exact .array (canonical_of_layout s hl)
  | .unit, _, h | .function, _, h => by cases h

theorem canonical_of_layouts : ∀ (ss : List Schema) {ls : List Layout}, layouts ss = .ok ls → ∀ l ∈ ls, l.Canonical
  | [], _, h => by
    cases h
    exact nofun
  | s :: ss, _, h => by
    obtain ⟨l, ls, rfl, hl, hls⟩ := layouts_cons_eq_ok_iff.1 h
    exact List.forall_mem_cons.2 ⟨canonical_of_layout s hl, canonical_of_layouts ss hls⟩

end

/-- Bits that are grouped fold into a bitset if the address space holds their number. -/
theorem Groups.layout {s : Schema} {width : Nat} (h : s.Groups width) (hlt : width < AddressSpace.size) :
    s.layout = .ok (.bitset width) := by
  induction h with
  | bit => rfl
  | nil => rfl
  | @cons s ss width widths _ _ ih ihs =>
    obtain ⟨ls, hls, hpacked⟩ := bind_eq_ok_iff.1 (ihs (by omega))
    have hrest : Layout.bitsetsAfter? 0 ls = some widths := packed_eq_bitset_iff.1 (Except.ok.inj hpacked)
    obtain ⟨ws, rfl, hsum, _⟩ := (Layout.bitsetsAfter?_eq_some_iff (by decide)).1 hrest
    have htotal : Layout.bitsetsAfter? 0 ((width :: ws).map .bitset) = some (width + widths) := by
      refine (Layout.bitsetsAfter?_eq_some_iff (by decide)).2 ⟨width :: ws, rfl, ?_, hlt⟩
      rw [List.foldr_cons]
      omega
    have hall : layouts (s :: ss) = .ok ((width :: ws).map .bitset) :=
      layouts_cons_eq_ok_iff.2 ⟨_, _, rfl, ih (by omega), hls⟩
    rw [Schema.layout, hall]
    exact congrArg Except.ok (packed_eq_bitset_iff.2 htotal)

theorem layout_eq_bitset_iff {s : Schema} {width : Nat} :
    s.layout = .ok (.bitset width) ↔ s.Groups width ∧ width < AddressSpace.size := by
  refine ⟨fun h => ⟨groups_of_layout s h, ?_⟩, fun h => h.1.layout h.2⟩
  cases canonical_of_layout s h with
  | bitset hlt => exact hlt

/-- A schema is laid out as a bitset exactly if it groups bits and the address space holds their number.
No layout of a schema has a unit in it or a tuple that folds, and only the bitsets among
these layouts have a width. -/
theorem layout_folds_exactly (s : Schema) :
    (∀ width, s.layout = .ok (.bitset width) ↔ s.Groups width ∧ width < AddressSpace.size) ∧
    ∀ l, s.layout = .ok l →
      (∀ m : Layout, m.Inside l → m ≠ .unit) ∧
      (∀ ms, (Layout.tuple ms).Inside l → Layout.Unfoldable ms) ∧
      ∀ width, l.width? = some width ↔ l = .bitset width := by
  refine ⟨fun width => layout_eq_bitset_iff, fun l hl => ?_⟩
  have hcanonical := canonical_of_layout s hl
  refine ⟨?_, fun ms hms => ?_, fun width => hcanonical.width?_eq_some_iff⟩
  · rintro m hm rfl
    cases hcanonical.of_inside hm
  · cases hcanonical.of_inside hms with
    | tuple _ hnone => exact Layout.unfoldable_of_bitsetsAfter? hnone

/-- An empty tuple folds into no bits at all, and an array keeps the tuple around it from folding. -/
theorem layout_folds_exactly_around_array :
    (Schema.tuple [.bit, .tuple [], .tuple [.bit, .bit]]).layout = .ok (.bitset 3) ∧
    (Schema.tuple [.unsigned 8, .array (.unsigned 8)]).layout = .ok (.tuple [.bitset 8, .array (.bitset 8)]) ∧
    Layout.Unfoldable [.bitset 8, .array (.bitset 8)] ∧
    (Layout.tuple [.bitset 8, .array (.bitset 8)]).width? = none := by
  have hbits : (Schema.tuple [.bit, .tuple [], .tuple [.bit, .bit]]).Groups 3 :=
    .cons .bit (.cons .nil (.cons (.cons .bit (.cons .bit .nil)) .nil))
  have hlayout : (Schema.tuple [.unsigned 8, .array (.unsigned 8)]).layout =
      .ok (.tuple [.bitset 8, .array (.bitset 8)]) := by rfl
  obtain ⟨_, htuples, hwidth⟩ := (layout_folds_exactly _).2 _ hlayout
  refine ⟨((layout_folds_exactly _).1 3).2 ⟨hbits, by decide⟩, hlayout, htuples _ (.refl _), ?_⟩
  exact Option.eq_none_iff_forall_ne_some.2 fun n hn => nomatch (hwidth n).1 hn

end Schema

end BitStore
