import BitStore.Proofs.Schema.Bitset

/-! The stored form is uniquely decodable. Whatever follows it, a run of bits that starts
with a stored value of a known schema starts with no other one. Folding has no part in
this: a value is stored as the same bits whether its tuples were folded or not, so the
stored form is described by recursion on the schema alone. Variants are left out, since
their content does not say which possibility it is. -/

namespace BitStore

theorem Layout.countBits_inj {m n : Nat} (hm : m < AddressSpace.size) (hn : n < AddressSpace.size)
    (h : countBits m = countBits n) : m = n := by
  have hback := congrArg Bits.toNat h
  rw [countBits, countBits, Bits.toNat_ofNat, Bits.toNat_ofNat] at hback
  rwa [Nat.mod_eq_of_lt (show m < 1 <<< AddressSpace.width from hm),
    Nat.mod_eq_of_lt (show n < 1 <<< AddressSpace.width from hn)] at hback

namespace Schema

mutual

/-- No variant occurs in the schema. -/
def variantFree : Schema → Bool
  | .unit => true
  | .bit => true
  | .tuple elements => allVariantFree elements
  | .variant _ => false
  | .array element => variantFree element
  | .function => true

def allVariantFree : List Schema → Bool
  | [] => true
  | s :: ss => variantFree s && allVariantFree ss

end

mutual

/-- The element counts of all arrays in a value of the schema can be written in front of them. -/
def countsFit : Schema → Value → Bool
  | .array element, .tuple values => decide (values.length < AddressSpace.size) && values.all (countsFit element)
  | .tuple schemas, .tuple values => countsFitEach schemas values
  | _, _ => true
termination_by structural s => s

def countsFitEach : List Schema → List Value → Bool
  | s :: ss, v :: vs => countsFit s v && countsFitEach ss vs
  | _, _ => true
termination_by structural ss => ss

end

/-! ### The stored form -/

/-- The value is stored as these bits. -/
inductive Stores : Schema → Value → Bits → Prop
  | bit (b : Bool) : Stores .bit (.bit b) [b]
  | nil : Stores (.tuple []) (.tuple []) []
  | cons {s ss v vs bits rest} : Stores s v bits → Stores (.tuple ss) (.tuple vs) rest →
    Stores (.tuple (s :: ss)) (.tuple (v :: vs)) (bits ++ rest)
  /-- Behind its element count an array is stored as a tuple of that many elements. -/
  | array {s vs bits} : vs.length < AddressSpace.size →
    Stores (.tuple (List.replicate vs.length s)) (.tuple vs) bits →
    Stores (.array s) (.tuple vs) (Layout.countBits vs.length ++ bits)

/-- A stored value and where it ends can be told from the bits, whatever follows. -/
theorem Stores.unique {s : Schema} {v w : Value} {bits others rest tail : Bits} (hv : s.Stores v bits)
    (hw : s.Stores w others) (heq : bits ++ rest = others ++ tail) : v = w ∧ rest = tail := by
  induction hv generalizing w others rest tail with
  | bit b =>
    cases hw with
    | bit c =>
      obtain ⟨rfl, rfl⟩ := List.cons.inj heq
      exact ⟨rfl, rfl⟩
  | nil =>
    cases hw with
    | nil => exact ⟨rfl, heq⟩
  | cons _ _ ih ihs =>
    cases hw with
    | cons hw hws =>
      rw [List.append_assoc, List.append_assoc] at heq
      obtain ⟨rfl, heq⟩ := ih hw heq
      obtain ⟨hvs, rfl⟩ := ihs hws heq
      exact ⟨by rw [Value.tuple.inj hvs], rfl⟩
  | array hcount _ ih =>
    cases hw with
    | array hcount' hws =>
      rw [List.append_assoc, List.append_assoc] at heq
      obtain ⟨hcounts, heq⟩ := List.append_inj heq (by simp [Layout.countBits])
      -- Equal counts make the elements of both arrays tuples of one schema.
      rw [← Layout.countBits_inj hcount hcount' hcounts] at hws
      exact ih hws heq

theorem exists_stores_replicate {s : Schema} {vs : List Value} (h : ∀ v ∈ vs, ∃ bits, s.Stores v bits) :
    ∃ bits, (tuple (List.replicate vs.length s)).Stores (.tuple vs) bits := by
  induction vs with
  | nil => exact ⟨[], .nil⟩
  | cons v vs ih =>
    obtain ⟨hv, hvs⟩ := List.forall_mem_cons.1 h
    obtain ⟨bits, hbits⟩ := hv
    obtain ⟨rest, hrest⟩ := ih hvs
    exact ⟨bits ++ rest, .cons hbits hrest⟩

mutual

/-- Every value that fits a schema with a layout has a stored form, variants apart. -/
theorem exists_stores : ∀ (s : Schema) {l : Layout} {v : Value}, s.layout = .ok l → s.variantFree = true →
    s.accepts v = true → s.countsFit v = true → ∃ bits, s.Stores v bits
  | .bit, _, .bit b, _, _, _, _ => ⟨[b], .bit b⟩
  | .tuple ss, _, .tuple vs, hl, hs, hv, hfit => by
    obtain ⟨ls, hls, _⟩ := bind_eq_ok_iff.1 hl
    exact exists_storesEach ss hls hs hv hfit
  | .array s, _, .tuple vs, hl, hs, hv, hfit => by
    obtain ⟨l, hl, _⟩ := bind_eq_ok_iff.1 hl
    rw [accepts, List.all_eq_true] at hv
    rw [countsFit, Bool.and_eq_true, decide_eq_true_iff, List.all_eq_true] at hfit
    obtain ⟨hcount, hfit⟩ := hfit
    have helements (v : Value) (hmem : v ∈ vs) : ∃ bits, s.Stores v bits :=
      exists_stores s hl hs (hv v hmem) (hfit v hmem)
    obtain ⟨bits, hbits⟩ := exists_stores_replicate helements
    exact ⟨_, .array hcount hbits⟩
  | .unit, _, _, hl, _, _, _ | .function, _, _, hl, _, _, _ => by cases hl
  | .variant _, _, _, _, hs, _, _ => by cases hs

theorem exists_storesEach : ∀ (ss : List Schema) {ls : List Layout} {vs : List Value}, layouts ss = .ok ls →
    allVariantFree ss = true → acceptsEach ss vs = true → countsFitEach ss vs = true →
    ∃ bits, (tuple ss).Stores (.tuple vs) bits
  | [], _, [], _, _, _, _ => ⟨[], .nil⟩
  | s :: ss, _, v :: vs, hls, hs, hv, hfit => by
    obtain ⟨l, ls, rfl, hl, hls⟩ := layouts_cons_eq_ok_iff.1 hls
    rw [allVariantFree, Bool.and_eq_true] at hs
    rw [acceptsEach, Bool.and_eq_true] at hv
    rw [countsFitEach, Bool.and_eq_true] at hfit
    obtain ⟨bits, hbits⟩ := exists_stores s hl hs.1 hv.1 hfit.1
    obtain ⟨rest, hrest⟩ := exists_storesEach ss hls hs.2 hv.2 hfit.2
    exact ⟨bits ++ rest, .cons hbits hrest⟩

end

/-! ### What is written -/

/-- The stored form of a value in a bitset is its plain bits. -/
theorem Stores.codes {s : Schema} {v : Value} {bits : Bits} (h : s.Stores v bits) {width : Nat} (hs : s.Groups width) :
    bits.length = width ∧ s.Codes v bits := by
  induction h generalizing width with
  | bit b =>
    cases hs
    exact ⟨rfl, codes_bit b⟩
  | nil =>
    cases hs
    exact ⟨rfl, codes_nil⟩
  | cons _ _ ih ihs =>
    cases hs with
    | cons hs hss =>
      obtain ⟨hlen, hcodes⟩ := ih hs
      obtain ⟨hlens, hcodess⟩ := ihs hss
      exact ⟨by rw [List.length_append, hlen, hlens], hcodes.cons hcodess⟩
  | array => cases hs

theorem Stores.length_eq {ss : List Schema} {vs : List Value} {bits : Bits} (h : (tuple ss).Stores (.tuple vs) bits) :
    ss.length = vs.length := by
  induction ss generalizing vs bits with
  | nil =>
    cases h
    rfl
  | cons s ss ih =>
    cases h with
    | cons _ h => rw [List.length_cons, List.length_cons, ih h]

/-- The elements of an array are stored one by one. -/
theorem Stores.exists_parts {s : Schema} {f : Value → Except Fault Bits}
    (hf : ∀ v bits, s.Stores v bits → f v = .ok bits) {vs : List Value} {bits : Bits}
    (h : (tuple (List.replicate vs.length s)).Stores (.tuple vs) bits) :
    ∃ parts, vs.mapM f = .ok parts ∧ parts.flatten = bits := by
  induction vs generalizing bits with
  | nil =>
    cases h
    exact ⟨[], rfl, rfl⟩
  | cons v vs ih =>
    cases h with
    | cons hv hvs =>
      obtain ⟨parts, hparts, rfl⟩ := ih hvs
      refine ⟨_ :: parts, ?_, List.flatten_cons⟩
      rw [List.mapM_cons, hf v _ hv, hparts]
      rfl

mutual

/-- A value is written in its stored form, however its schema was folded. -/
theorem encode_of_stores : ∀ (s : Schema) {l : Layout} {v : Value} {bits : Bits}, s.layout = .ok l →
    s.Stores v bits → l.encode v = .ok bits
  | .bit, _, _, _, hl, .bit b => by
    cases hl
    rfl
  | .tuple ss, _, .tuple vs, bits, hl, h => by
    obtain ⟨ls, hls, ⟨⟩⟩ := bind_eq_ok_iff.1 hl
    cases hwidth : Layout.bitsetsAfter? 0 ls with
    | some width =>
      rw [packed_eq_bitset_iff.2 hwidth] at hl ⊢
      obtain ⟨rfl, hcodes⟩ := h.codes (groups_of_layout (tuple ss) hl)
      exact hcodes.encode
    | none =>
      have hlen : ls.length = vs.length := (length_of_layouts hls).trans h.length_eq
      rw [Layout.packed, hwidth, Layout.encode, if_pos hlen]
      exact encodeEach_of_stores ss hls h
  | .array s, _, _, _, hl, .array hcount h => by
    obtain ⟨l, helement, ⟨⟩⟩ := bind_eq_ok_iff.1 hl
    obtain ⟨parts, hparts, rfl⟩ := h.exists_parts fun v bits hv => encode_of_stores s helement hv
    rw [Layout.encode, hparts]
    rfl

theorem encodeEach_of_stores : ∀ (ss : List Schema) {ls : List Layout} {vs : List Value} {bits : Bits},
    layouts ss = .ok ls → (tuple ss).Stores (.tuple vs) bits → Layout.encodeEach ls vs = .ok bits
  | [], _, _, _, hls, .nil => by
    cases hls
    rfl
  | s :: ss, _, _, _, hls, .cons hv hvs => by
    obtain ⟨l, ls, rfl, hfirst, hrest⟩ := layouts_cons_eq_ok_iff.1 hls
    rw [Layout.encodeEach, encode_of_stores s hfirst hv, encodeEach_of_stores ss hrest hvs]
    rfl

end

/-- Values that fit a schema without variants can be written, and what is written tells the
value apart from all others and from whatever bits follow it. -/
theorem encode_uniquely_decodable {s : Schema} {l : Layout} (hl : s.layout = .ok l) (hs : s.variantFree = true)
    {v w : Value} (hv : s.accepts v = true) (hw : s.accepts w = true) (hvcounts : s.countsFit v = true)
    (hwcounts : s.countsFit w = true) :
    ∃ bits others, l.encode v = .ok bits ∧ l.encode w = .ok others ∧
      ∀ rest tail, bits ++ rest = others ++ tail → v = w ∧ rest = tail := by
  obtain ⟨bits, hbits⟩ := exists_stores s hl hs hv hvcounts
  obtain ⟨others, hothers⟩ := exists_stores s hl hs hw hwcounts
  refine ⟨bits, others, encode_of_stores s hl hbits, encode_of_stores s hl hothers, ?_⟩
  exact fun rest tail heq => hbits.unique hothers heq

/-- Two arrays of elements that take no bits differ by their counts, whatever follows them. -/
theorem encode_uniquely_decodable_no_bits :
    ∃ bits others, (Layout.tuple [.bitset 1, .array (.bitset 0)]).encode
        (.tuple [.bit true, .tuple [.tuple [], .tuple []]]) = .ok bits ∧
      (Layout.tuple [.bitset 1, .array (.bitset 0)]).encode
        (.tuple [.bit true, .tuple [.tuple [], .tuple [], .tuple []]]) = .ok others ∧
      ∀ rest tail, bits ++ rest ≠ others ++ tail := by
  have hlayout : (Schema.tuple [.bit, .array (.tuple [])]).layout = .ok (.tuple [.bitset 1, .array (.bitset 0)]) := by
    rfl
  obtain ⟨bits, others, hbits, hothers, hunique⟩ := encode_uniquely_decodable hlayout (by rfl)
    (v := .tuple [.bit true, .tuple [.tuple [], .tuple []]])
    (w := .tuple [.bit true, .tuple [.tuple [], .tuple [], .tuple []]]) (by rfl) (by rfl) (by rfl) (by rfl)
  refine ⟨bits, others, hbits, hothers, fun rest tail heq => ?_⟩
  exact absurd (hunique rest tail heq).1 (by decide)

end Schema

end BitStore
