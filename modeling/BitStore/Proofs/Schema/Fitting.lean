import BitStore.Proofs.Layout.Encoding
import BitStore.Proofs.Schema.UniqueDecoding

/-! What fits a schema can be written under its layout, however schemas nest and whichever
tuples were folded. A variant is written under the first layout that takes its content.
That need not be the layout of the possibility the content fits, since a folded tuple
takes any bits of its width; this makes no difference where the two put the same counts in
the same places, but bits that belong to an array may be stored without their count. -/

namespace BitStore.Schema

theorem exists_mapM_eq_ok {f : Value → Except Fault Bits} {vs : List Value} (h : ∀ v ∈ vs, ∃ bits, f v = .ok bits) :
    ∃ parts, vs.mapM f = .ok parts := by
  refine ⟨_, mapM_eq_ok_map (g := fun v => (f v).toOption.getD []) fun v hv => ?_⟩
  obtain ⟨bits, hbits⟩ := h v hv
  rw [hbits]
  rfl

mutual

/-- A value that fits a schema can be written under its layout. -/
theorem exists_encode : ∀ (s : Schema) {l : Layout} {v : Value}, s.layout = .ok l → s.accepts v = true →
    ∃ bits, l.encode v = .ok bits
  | .bit, _, .bit b, hl, _ => by
    cases hl
    exact ⟨[b], rfl⟩
  | .tuple ss, _, .tuple vs, hl, hv => by
    obtain ⟨ls, hls, ⟨⟩⟩ := bind_eq_ok_iff.1 hl
    cases hwidth : Layout.bitsetsAfter? 0 ls with
    | some width =>
      rw [packed_eq_bitset_iff.2 hwidth] at hl ⊢
      obtain ⟨bits, rfl, hcodes⟩ := (groups_of_layout (tuple ss) hl).codes hv
      exact ⟨bits, hcodes.encode⟩
    | none =>
      obtain ⟨hlen, hbits⟩ := exists_encodeEach ss hls hv
      rw [Layout.packed, hwidth, Layout.encode, if_pos (length_of_layouts hls ▸ hlen)]
      exact hbits
  | .variant ss, _, .variant v, hl, hv => by
    obtain ⟨ls, hls, ⟨⟩⟩ := bind_eq_ok_iff.1 hl
    obtain ⟨bits, hbits⟩ := exists_encodeFirst ss hls hv
    refine ⟨bits, ?_⟩
    rw [Layout.encode, hbits]
  | .array s, _, .tuple vs, hl, hv => by
    obtain ⟨l, helement, ⟨⟩⟩ := bind_eq_ok_iff.1 hl
    rw [accepts, List.all_eq_true] at hv
    obtain ⟨parts, hparts⟩ := exists_mapM_eq_ok fun v hmem => exists_encode s helement (hv v hmem)
    refine ⟨Layout.countBits vs.length ++ parts.flatten, ?_⟩
    rw [Layout.encode, hparts]
    rfl
  | .unit, _, _, hl, _ | .function, _, _, hl, _ => by cases hl

theorem exists_encodeEach : ∀ (ss : List Schema) {ls : List Layout} {vs : List Value}, layouts ss = .ok ls →
    acceptsEach ss vs = true → ss.length = vs.length ∧ ∃ bits, Layout.encodeEach ls vs = .ok bits
  | [], _, [], hls, _ => by
    cases hls
    exact ⟨rfl, [], rfl⟩
  | s :: ss, _, v :: vs, hls, hv => by
    obtain ⟨l, ls, rfl, hl, hrest⟩ := layouts_cons_eq_ok_iff.1 hls
    rw [acceptsEach, Bool.and_eq_true] at hv
    obtain ⟨bits, hbits⟩ := exists_encode s hl hv.1
    obtain ⟨hlen, rest, hrest⟩ := exists_encodeEach ss hrest hv.2
    refine ⟨congrArg Nat.succ hlen, bits ++ rest, ?_⟩
    rw [Layout.encodeEach, hbits, hrest]
    rfl

theorem exists_encodeFirst : ∀ (ss : List Schema) {ls : List Layout} {v : Value}, layouts ss = .ok ls →
    anyAccepts ss v = true → ∃ bits, Layout.encodeFirst ls v = some bits
  | s :: ss, _, v, hls, hv => by
    obtain ⟨l, ls, rfl, hl, hrest⟩ := layouts_cons_eq_ok_iff.1 hls
    rw [anyAccepts, Bool.or_eq_true] at hv
    rw [Layout.encodeFirst]
    rcases hv with hv | hv
    · obtain ⟨bits, hbits⟩ := exists_encode s hl hv
      exact ⟨bits, by rw [hbits]⟩
    · cases l.encode v with
      | ok bits => exact ⟨bits, rfl⟩
      | error e => exact exists_encodeFirst ss hrest hv

end

/-! ### Variants -/

theorem mem_of_layouts {ss : List Schema} {ls : List Layout} (hls : layouts ss = .ok ls) {s : Schema} (hs : s ∈ ss)
    {l : Layout} (hl : s.layout = .ok l) : l ∈ ls := by
  induction ss generalizing ls with
  | nil => cases hs
  | cons t ss ih =>
    obtain ⟨m, ms, rfl, hm, hrest⟩ := layouts_cons_eq_ok_iff.1 hls
    rcases List.mem_cons.1 hs with rfl | hs
    · obtain rfl : l = m := Except.ok.inj (hl.symm.trans hm)
      exact List.mem_cons_self
    · exact List.mem_cons_of_mem m (ih hrest hs)

/-- A value in a bitset is written as the bits from which its schema reads it back. -/
theorem codes_of_encode {s : Schema} {width : Nat} (hl : s.layout = .ok (.bitset width)) {v : Value}
    (hv : s.accepts v = true) {bits : Bits} (h : (Layout.bitset width).encode v = .ok bits) : s.Codes v bits := by
  obtain ⟨row, rfl, hcodes⟩ := (groups_of_layout s hl).codes hv
  obtain rfl : row = bits := Except.ok.inj (hcodes.encode.symm.trans h)
  exact hcodes

/-- A variant whose content fits a possibility is written, as the content is under the first
layout that takes it. This is just what the layout of the possibility writes if the two put the
same counts in the same places, as they do if they are the same or neither has an array in it;
from a bitset the possibility then reads the content back. -/
theorem encode_variant_content {possibilities : List Schema} {ls : List Layout}
    (hls : (variant possibilities).layout = .ok (.variant ls)) {active : Schema} (hactive : active ∈ possibilities)
    {l : Layout} (hl : active.layout = .ok l) {content : Value} (hcontent : active.accepts content = true) :
    ∃ first bits, ls.find? (Layout.takes content) = some first ∧ first.encode content = .ok bits ∧
      (Layout.variant ls).encode (.variant content) = .ok bits ∧ l ∈ ls ∧ l.takes content = true ∧
      (first = l ∨ first.arrayFree = true ∧ l.arrayFree = true → first.pieces content = l.pieces content) ∧
      (first.pieces content = l.pieces content →
        l.encode content = .ok bits ∧ ∀ width, l = .bitset width → active.Codes content bits) := by
  have hmem : l ∈ ls := by
    obtain ⟨_, hlayouts, ⟨⟩⟩ := bind_eq_ok_iff.1 hls
    exact mem_of_layouts hlayouts hactive hl
  obtain ⟨own, hown⟩ := exists_encode active hl hcontent
  have htakes : l.takes content = true := Layout.takes_iff.2 ⟨own, hown⟩
  obtain ⟨first, hfirst⟩ := Option.isSome_iff_exists.1 (List.find?_isSome.2 ⟨l, hmem, htakes⟩)
  obtain ⟨bits, hbits⟩ := Layout.takes_iff.1 (List.find?_some hfirst)
  refine ⟨first, bits, hfirst, hbits, Layout.encode_variant_eq_ok_iff.2 ⟨first, hfirst, hbits⟩, hmem, htakes, ?_, ?_⟩
  · rintro (rfl | ⟨hfree, hlfree⟩)
    · rfl
    · exact Layout.pieces_eq_of_arrayFree hfree hlfree hbits hown
  · intro hsame
    obtain rfl : bits = own := Layout.encode_eq_of_pieces_eq hsame hbits hown
    refine ⟨hown, fun width hwidth => ?_⟩
    subst hwidth
    exact codes_of_encode hl hcontent hown

/-- What fits only the last of three possibilities is taken by the second. Both write the count of an array
first and then two bits, so they write it alike. -/
theorem encode_variant_content_last_of_three :
    ∃ content bits, content = Value.tuple [.tuple [.present (.bit true), .bit false]] ∧
      (variant [.unsigned 8, .array (.unsigned 2), .array (.tuple [.variant [.bit], .bit])]).layout =
        .ok (.variant [.bitset 8, .array (.bitset 2), .array (.tuple [.variant [.bitset 1], .bitset 1])]) ∧
      (Schema.array (.unsigned 2)).accepts content = false ∧
      (Schema.array (.tuple [.variant [.bit], .bit])).accepts content = true ∧
      (Layout.variant [.bitset 8, .array (.bitset 2), .array (.tuple [.variant [.bitset 1], .bitset 1])]).encode
        (.variant content) = .ok bits ∧
      (Layout.array (.tuple [.variant [.bitset 1], .bitset 1])).encode content = .ok bits := by
  have hls : (variant [.unsigned 8, .array (.unsigned 2), .array (.tuple [.variant [.bit], .bit])]).layout =
      .ok (.variant [.bitset 8, .array (.bitset 2), .array (.tuple [.variant [.bitset 1], .bitset 1])]) := by rfl
  have hl : (Schema.array (.tuple [.variant [.bit], .bit])).layout =
      .ok (.array (.tuple [.variant [.bitset 1], .bitset 1])) := by rfl
  have hcontent : (Schema.array (.tuple [.variant [.bit], .bit])).accepts
      (.tuple [.tuple [.present (.bit true), .bit false]]) = true := by rfl
  obtain ⟨first, bits, hfirst, _, hbits, _, _, _, hsame⟩ := encode_variant_content hls (by simp) hl hcontent
  obtain rfl : Layout.array (.bitset 2) = first := Option.some.inj hfirst
  exact ⟨_, bits, rfl, hls, by rfl, hcontent, hbits, (hsame (by rfl)).1⟩

/-- Two bits that fit only an array are stored without their count, since a possibility before it
is laid out as a bitset of two bits. -/
theorem encode_variant_without_count :
    (variant [.tuple [.bit, .tuple [.bit]], .array .bit]).layout = .ok (.variant [.bitset 2, .array (.bitset 1)]) ∧
    (Schema.tuple [.bit, .tuple [.bit]]).accepts (.unsigned 2 2) = false ∧
    (Schema.array .bit).accepts (.unsigned 2 2) = true ∧ (Schema.array .bit).countsFit (.unsigned 2 2) = true ∧
    (Layout.variant [.bitset 2, .array (.bitset 1)]).encode (.variant (.unsigned 2 2)) = .ok [true, false] ∧
    (Layout.array (.bitset 1)).encode (.unsigned 2 2) = .ok (Layout.countBits 2 ++ [true, false]) ∧
    [true, false] ≠ Layout.countBits 2 ++ [true, false] := by
  refine ⟨by rfl, by rfl, by rfl, by rfl, by rfl, by rfl, by decide⟩

end BitStore.Schema
