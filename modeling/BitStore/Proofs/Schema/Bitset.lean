import BitStore.Layout.Encode
import BitStore.Schema.Layout
import BitStore.Value.Conforms

/-! Schemas that are laid out as bitsets. They consist of bits in some grouping, and
their width is the number of these bits. A value that fits is written as just as many
bits, whatever the sink, and the schema reads the value back wherever its bits come
next, whatever the source. -/

namespace BitStore

theorem bind_eq_ok_iff {ε α β : Type} {x : Except ε α} {f : α → Except ε β} {b : β} :
    (x >>= f) = .ok b ↔ ∃ a, x = .ok a ∧ f a = .ok b := by
  cases x <;> simp [bind, Except.bind]

theorem mapM_eq_ok_map {ε α β : Type} {f : α → Except ε β} {g : α → β} {as : List α} (h : ∀ a ∈ as, f a = .ok (g a)) :
    as.mapM f = .ok (as.map g) := by
  induction as with
  | nil => rfl
  | cons a as ih =>
    have ha : f a = .ok (g a) := h a List.mem_cons_self
    have has : as.mapM f = .ok (as.map g) := ih fun b hb => h b (List.mem_cons_of_mem a hb)
    rw [List.mapM_cons, ha, has]
    rfl

theorem run_bind_eq_ok_iff {ε σ α β : Type} {x : EStateM ε σ α} {f : α → EStateM ε σ β} {start final : σ} {b : β} :
    (x >>= f).run start = .ok b final ↔ ∃ a middle, x.run start = .ok a middle ∧ (f a).run middle = .ok b final := by
  rw [EStateM.run_bind]
  cases x.run start <;> simp [and_assoc]

theorem BitSource.run_read {σ : Type} [BitSource σ] (source : σ) : BitSource.read.run source =
    match next? source with
    | none => .ok none source
    | some (b, after) => .ok (some b) after := by
  cases h : next? source <;> simp [-bind_pure_comp, BitSource.read, h]

namespace Schema

/-- The schema groups `width` bits, and nothing else. -/
inductive Groups : Schema → Nat → Prop
  | bit : Groups .bit 1
  | nil : Groups (.tuple []) 0
  | cons {s ss width widths} : Groups s width → Groups (.tuple ss) widths → Groups (.tuple (s :: ss)) (width + widths)

/-! ### Layouts -/

theorem layouts_cons_eq_ok_iff {s : Schema} {ss : List Schema} {ls : List Layout} :
    layouts (s :: ss) = .ok ls ↔ ∃ l rest, ls = l :: rest ∧ s.layout = .ok l ∧ layouts ss = .ok rest := by
  rw [layouts, bind_eq_ok_iff]
  constructor
  · rintro ⟨l, hl, h⟩
    obtain ⟨rest, hrest, ⟨⟩⟩ := bind_eq_ok_iff.1 h
    exact ⟨l, rest, rfl, hl, hrest⟩
  · rintro ⟨l, rest, rfl, hl, hrest⟩
    exact ⟨l, hl, bind_eq_ok_iff.2 ⟨rest, hrest, rfl⟩⟩

theorem length_of_layouts {ss : List Schema} {ls : List Layout} (h : layouts ss = .ok ls) : ls.length = ss.length := by
  induction ss generalizing ls with
  | nil =>
    cases h
    rfl
  | cons s ss ih =>
    obtain ⟨_, _, rfl, _, hrest⟩ := layouts_cons_eq_ok_iff.1 h
    rw [List.length_cons, List.length_cons, ih hrest]

theorem packed_eq_bitset_iff {ls : List Layout} {width : Nat} :
    Layout.packed ls = .bitset width ↔ Layout.bitsetsAfter? 0 ls = some width := by
  unfold Layout.packed
  split <;> simp [*]

theorem bitsetsAfter?_cons_eq_some_iff {l : Layout} {ls : List Layout} {before total : Nat} :
    Layout.bitsetsAfter? before (l :: ls) = some total ↔
      ∃ width, l = .bitset width ∧ before + width < AddressSpace.size ∧
        Layout.bitsetsAfter? (before + width) ls = some total := by
  cases l with
  | bitset width =>
    rw [Layout.bitsetsAfter?, AddressSpace.add]
    by_cases h : before + width < AddressSpace.size <;> simp [h, Except.toOption]
  | unit | tuple | array | variant => simp [Layout.bitsetsAfter?]

mutual

theorem groups_of_layout : ∀ (s : Schema) {width : Nat}, s.layout = .ok (.bitset width) → s.Groups width
  | .bit, width, h => by
    obtain rfl : 1 = width := by simpa [layout] using h
    exact .bit
  | .tuple ss, width, h => by
    obtain ⟨ls, hls, h⟩ := bind_eq_ok_iff.1 h
    have htotal : Layout.bitsetsAfter? 0 ls = some width := packed_eq_bitset_iff.1 (Except.ok.inj h)
    obtain ⟨width, hss, rfl⟩ := groups_of_layouts ss hls htotal
    rwa [Nat.zero_add]
  | .variant ss, _, h | .array s, _, h => by
    obtain ⟨_, _, h⟩ := bind_eq_ok_iff.1 h
    cases h
  | .unit, _, h | .function, _, h => by cases h

theorem groups_of_layouts : ∀ (ss : List Schema) {ls : List Layout} {before total : Nat}, layouts ss = .ok ls →
    Layout.bitsetsAfter? before ls = some total → ∃ width, (tuple ss).Groups width ∧ total = before + width
  | [], ls, before, total, hls, htotal => by
    cases hls
    cases htotal
    exact ⟨0, .nil, rfl⟩
  | s :: ss, ls, before, total, hls, htotal => by
    obtain ⟨l, rest, rfl, hl, hrest⟩ := layouts_cons_eq_ok_iff.1 hls
    obtain ⟨width, rfl, _, htotal⟩ := bitsetsAfter?_cons_eq_some_iff.1 htotal
    obtain ⟨widths, hss, rfl⟩ := groups_of_layouts ss hrest htotal
    exact ⟨width + widths, .cons (groups_of_layout s hl) hss, Nat.add_assoc before width widths⟩

end

/-! ### Decoding -/

section Decode

variable {σ : Type} [BitSource σ] {source after : σ}

theorem decode_bit_eq_ok_iff {v : Value} :
    bit.decode.run source = .ok (some v) after ↔ ∃ b, v = .bit b ∧ BitSource.next? source = some (b, after) := by
  rw [decode, run_bind_eq_ok_iff, BitSource.run_read]
  cases BitSource.next? source with
  | none => simp
  | some r =>
    constructor
    · rintro ⟨_, _, ⟨⟩, ⟨⟩⟩
      exact ⟨r.1, rfl, rfl⟩
    · rintro ⟨b, rfl, ⟨⟩⟩
      exact ⟨some b, after, rfl, rfl⟩

theorem decode_tuple_eq_ok_iff {ss : List Schema} {v : Value} :
    (tuple ss).decode.run source = .ok (some v) after ↔
      ∃ vs, v = .tuple vs ∧ (decodeAll ss).run source = .ok (some vs) after := by
  rw [decode, run_bind_eq_ok_iff]
  constructor
  · rintro ⟨_ | vs, middle, hvs, h⟩
    · cases h
    · cases h
      exact ⟨vs, rfl, hvs⟩
  · rintro ⟨vs, rfl, hvs⟩
    exact ⟨some vs, after, hvs, rfl⟩

theorem decodeAll_cons_eq_ok_iff {s : Schema} {ss : List Schema} {vs : List Value} :
    (decodeAll (s :: ss)).run source = .ok (some vs) after ↔
      ∃ v rest middle, vs = v :: rest ∧ s.decode.run source = .ok (some v) middle ∧
        (decodeAll ss).run middle = .ok (some rest) after := by
  rw [decodeAll, run_bind_eq_ok_iff]
  constructor
  · rintro ⟨_ | v, middle, hv, h⟩
    · cases h
    · obtain ⟨_ | rest, last, hrest, h⟩ := run_bind_eq_ok_iff.1 h
      · cases h
      · cases h
        exact ⟨v, rest, middle, rfl, hv, hrest⟩
  · rintro ⟨v, rest, middle, rfl, hv, hrest⟩
    exact ⟨some v, middle, hv, run_bind_eq_ok_iff.2 ⟨some rest, after, hrest, rfl⟩⟩

end Decode

/-! ### Values -/

/-- The value is written as these bits, and read back where they come next. -/
structure Codes (s : Schema) (v : Value) (bits : Bits) : Prop where
  write : ∀ {σ : Type} [BitSink σ] (sink : σ), v.serialize.run sink = .ok () (bits.foldl BitSink.push sink)
  read : ∀ {σ : Type} [BitSource σ] {source after : σ}, BitSource.Gives source bits after →
    s.decode.run source = .ok (some v) after

theorem codes_bit (b : Bool) : bit.Codes (.bit b) [b] where
  write _ := rfl
  read := by
    rintro σ _ source after ⟨_, hnext, rfl⟩
    exact decode_bit_eq_ok_iff.2 ⟨b, rfl, hnext⟩

theorem codes_nil : (tuple []).Codes (.tuple []) [] where
  write _ := rfl
  read := by
    rintro σ _ source _ rfl
    exact decode_tuple_eq_ok_iff.2 ⟨[], rfl, rfl⟩

theorem Codes.cons {s : Schema} {ss : List Schema} {v : Value} {vs : List Value} {bits rest : Bits}
    (h : s.Codes v bits) (hs : (tuple ss).Codes (.tuple vs) rest) :
    (tuple (s :: ss)).Codes (.tuple (v :: vs)) (bits ++ rest) where
  write sink := by
    have hrest := hs.write (bits.foldl BitSink.push sink)
    rw [Value.serialize] at hrest ⊢
    rw [Value.serializeAll, EStateM.run_bind, h.write sink, List.foldl_append]
    exact hrest
  read := by
    intro σ _ source after hgives
    obtain ⟨middle, hfirst, hrest⟩ := hgives.split
    obtain ⟨_, ⟨⟩, hall⟩ := decode_tuple_eq_ok_iff.1 (hs.read hrest)
    exact decode_tuple_eq_ok_iff.2 ⟨v :: vs, rfl, decodeAll_cons_eq_ok_iff.2 ⟨v, vs, middle, rfl, h.read hfirst, hall⟩⟩

/-- A value that fits a schema of `width` bits has `width` bits. -/
theorem Groups.codes {s : Schema} {width : Nat} (h : s.Groups width) {v : Value} (hv : s.accepts v = true) :
    ∃ bits : Bits, bits.length = width ∧ s.Codes v bits := by
  induction h generalizing v with
  | bit =>
    cases v with
    | bit b => exact ⟨[b], rfl, codes_bit b⟩
    | unit | tuple | variant | closure => cases hv
  | nil =>
    cases v with
    | tuple vs =>
      cases vs with
      | nil => exact ⟨[], rfl, codes_nil⟩
      | cons v vs => cases hv
    | unit | bit | variant | closure => cases hv
  | cons _ _ ih ihs =>
    cases v with
    | tuple vs =>
      cases vs with
      | nil => cases hv
      | cons v vs =>
        rw [accepts, acceptsEach, Bool.and_eq_true] at hv
        obtain ⟨bits, rfl, hbits⟩ := ih hv.1
        obtain ⟨rest, rfl, hrest⟩ := @ihs (.tuple vs) hv.2
        exact ⟨bits ++ rest, List.length_append, hbits.cons hrest⟩
    | unit | bit | variant | closure => cases hv

theorem Codes.toBits {s : Schema} {v : Value} {bits : Bits} (h : s.Codes v bits) : v.toBits = .ok bits := by
  have hwrite : v.serializeInto (#[] : Array Bool) = .ok (bits.foldl Array.push #[]) := by
    rw [Value.serializeInto, h.write]
    rfl
  rw [Value.toBits, hwrite, List.foldl_push_eq_append']
  simp [Except.map]

theorem Codes.encode {s : Schema} {v : Value} {bits : Bits} (h : s.Codes v bits) :
    (Layout.bitset bits.length).encode v = .ok bits := by
  rw [Layout.encode, Layout.encodeBitset, h.toBits]
  exact if_pos rfl

end Schema

end BitStore
