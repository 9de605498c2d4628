import BitStore.Bits.Cursor
import BitStore.Proofs.Bits.Bytes
import BitStore.Proofs.Schema.Bitset
import BitStore.Proofs.Value.Leaves

/-! Plain bits and back. A schema of units, bits and tuples reads a value that fits it back
from the bits of the value, whatever comes after them; and whenever it reads a value, the
value fits and the bits it took are those of the value. Where the schema is laid out as a
bitset, this holds of bytes too, with fewer than eight zeros left over. -/

namespace BitStore

namespace Schema

mutual

/-- Nothing but units, bits and tuples occurs in the schema. -/
def decodable : Schema → Bool
  | .unit => true
  | .bit => true
  | .tuple elements => allDecodable elements
  | .variant _ => false
  | .array _ => false
  | .function => false

def allDecodable : List Schema → Bool
  | [] => true
  | s :: ss => decodable s && allDecodable ss

end

/-! ### From values to bits and back -/

theorem codes_unit : unit.Codes .unit [] where
  write _ := rfl
  read := by
    rintro σ _ source _ rfl
    rfl

mutual

theorem exists_codes : ∀ (s : Schema) {v : Value}, s.decodable = true → s.accepts v = true → ∃ bits, s.Codes v bits
  | .unit, .unit, _, _ => ⟨[], codes_unit⟩
  | .bit, .bit b, _, _ => ⟨[b], codes_bit b⟩
  | .tuple ss, .tuple _, hs, hv => exists_codesEach ss hs hv

theorem exists_codesEach : ∀ (ss : List Schema) {vs : List Value}, allDecodable ss = true → acceptsEach ss vs = true →
    ∃ bits, (tuple ss).Codes (.tuple vs) bits
  | [], [], _, _ => ⟨[], codes_nil⟩
  | s :: ss, v :: vs, hs, hv => by
    rw [allDecodable, Bool.and_eq_true] at hs
    rw [acceptsEach, Bool.and_eq_true] at hv
    obtain ⟨bits, hbits⟩ := exists_codes s hs.1 hv.1
    obtain ⟨rest, hrest⟩ := exists_codesEach ss hs.2 hv.2
    exact ⟨bits ++ rest, hbits.cons hrest⟩

end

/-! ### From bits to values and back -/

section Source

variable {σ : Type} [BitSource σ]

mutual

/-- A value that was read fits the schema, and its bits are those that were taken. -/
theorem gives_of_decode : ∀ (s : Schema) {source after : σ} {v : Value}, s.decode.run source = .ok (some v) after →
    s.accepts v = true ∧ v.containsClosure = false ∧ BitSource.Gives source v.leaves after
  | .unit, _, _, _, h => by
    cases h
    exact ⟨rfl, rfl, rfl⟩
  | .bit, source, after, _, h => by
    obtain ⟨b, rfl, hnext⟩ := decode_bit_eq_ok_iff.1 h
    exact ⟨rfl, rfl, after, hnext, rfl⟩
  | .tuple ss, _, _, _, h => by
    obtain ⟨vs, rfl, hvs⟩ := decode_tuple_eq_ok_iff.1 h
    exact gives_of_decodeAll ss hvs
  | .variant _, _, _, _, h | .array _, _, _, _, h | .function, _, _, _, h => by cases h

theorem gives_of_decodeAll : ∀ (ss : List Schema) {source after : σ} {vs : List Value},
    (decodeAll ss).run source = .ok (some vs) after →
    acceptsEach ss vs = true ∧ Value.anyContainsClosure vs = false ∧ BitSource.Gives source (Value.leavesAll vs) after
  | [], _, _, _, h => by
    cases h
    exact ⟨rfl, rfl, rfl⟩
  | s :: ss, source, after, _, h => by
    obtain ⟨v, rest, middle, rfl, hv, hrest⟩ := decodeAll_cons_eq_ok_iff.1 h
    obtain ⟨hfits, hplain, hbits⟩ := gives_of_decode s hv
    obtain ⟨hfitsEach, hplainAll, hbitsAll⟩ := gives_of_decodeAll ss hrest
    refine ⟨?_, ?_, ?_⟩
    · rw [acceptsEach, hfits, hfitsEach]
      rfl
    · rw [Value.anyContainsClosure, hplain, hplainAll]
      rfl
    · rw [Value.leavesAll, hplain]
      exact hbits.append hbitsAll

end

/-! ### Both directions -/

/-- From the bytes of a value its schema reads it back, up to the zeros that fill the last byte. -/
theorem Codes.decode_toBytes {s : Schema} {v : Value} {bits : Bits} (h : s.Codes v bits) :
    ∃ after, s.decode.run (BitCursor.ofBytes bits.toBytes) = .ok (some v) after ∧
      ∃ n < 8, after.toBits = List.replicate n false := by
  have hcursor : BitSource.Yields (BitCursor.ofBytes bits.toBytes)
      (bits ++ List.replicate ((8 - bits.length % 8) % 8) false) := by
    rw [BitCursor.yields_iff, BitCursor.toBits_ofBytes, Bits.ofBytes_toBytes]
  obtain ⟨after, hgives, hafter⟩ := hcursor.split
  exact ⟨after, h.read hgives, _, Nat.mod_lt _ (by decide), BitCursor.yields_iff.1 hafter⟩

/-- Whatever the source, a schema of units, bits and tuples reads back what fits it from its bits, in front
of any others; what it reads fits it and has just the bits that were taken. The bytes of a value
in a bitset are its bits, filled up, and are read back too. -/
theorem codec_round_trip {s : Schema} (hs : s.decodable = true) :
    (∀ v, s.accepts v = true → ∃ bits, v.toBits = .ok bits ∧
      (∀ source after : σ, BitSource.Gives source bits after → s.decode.run source = .ok (some v) after) ∧
      ∀ (source : σ) (rest : Bits), BitSource.Yields source (bits ++ rest) →
        ∃ after, s.decode.run source = .ok (some v) after ∧ BitSource.Yields after rest) ∧
    (∀ (source after : σ) (v : Value), s.decode.run source = .ok (some v) after →
      s.accepts v = true ∧ ∃ bits, v.toBits = .ok bits ∧ BitSource.Gives source bits after) ∧
    (∀ width v, s.layout = .ok (.bitset width) → s.accepts v = true →
      ∃ bits bytes, v.toBits = .ok bits ∧ bits.length = width ∧
        v.toBytes = .ok bytes ∧ bytes.length = (width + 7) / 8 ∧
        ∃ after, s.decode.run (BitCursor.ofBytes bytes) = .ok (some v) after ∧
          ∃ n < 8, after.toBits = List.replicate n false) := by
  refine ⟨fun v hv => ?_, fun source after v h => ?_, fun width v hl hv => ?_⟩
  · obtain ⟨bits, hcodes⟩ := exists_codes s hs hv
    refine ⟨bits, hcodes.toBits, fun source after => hcodes.read, fun source rest hyields => ?_⟩
    obtain ⟨after, hgives, hrest⟩ := hyields.split
    exact ⟨after, hcodes.read hgives, hrest⟩
  · obtain ⟨hfits, hplain, hgives⟩ := gives_of_decode s h
    exact ⟨hfits, v.leaves, Value.toBits_eq_ok_iff.2 ⟨hplain, rfl⟩, hgives⟩
  · obtain ⟨bits, hlen, hcodes⟩ := (groups_of_layout s hl).codes hv
    have hbytes : v.toBytes = .ok bits.toBytes := by
      rw [Value.toBytes_eq, hcodes.toBits]
      rfl
    refine ⟨bits, bits.toBytes, hcodes.toBits, hlen, hbytes, ?_, hcodes.decode_toBytes⟩
    rw [Bits.length_toBytes, hlen]

end Source

/-- Three bits in nested tuples go through a single byte. -/
theorem codec_round_trip_three_bits :
    (Schema.tuple [.bit, .tuple [.bit, .bit, .tuple []]]).decodable = true ∧
    ∃ bytes after, (Value.tuple [.bit true, .tuple [.bit false, .bit true, .tuple []]]).toBytes = .ok bytes ∧
      bytes.length = 1 ∧
      (Schema.tuple [.bit, .tuple [.bit, .bit, .tuple []]]).decode.run (BitCursor.ofBytes bytes) =
        .ok (some (.tuple [.bit true, .tuple [.bit false, .bit true, .tuple []]])) after ∧
      ∃ n < 8, after.toBits = List.replicate n false := by
  have hs : (Schema.tuple [.bit, .tuple [.bit, .bit, .tuple []]]).decodable = true := by rfl
  obtain ⟨_, _, hbitset⟩ := @codec_round_trip BitCursor _ _ hs
  obtain ⟨bits, bytes, _, _, hbytes, hlen, after, hdecode, hzeros⟩ :=
    hbitset 3 (.tuple [.bit true, .tuple [.bit false, .bit true, .tuple []]]) (by rfl) (by rfl)
  exact ⟨hs, bytes, after, hbytes, hlen, hdecode, hzeros⟩

end Schema

end BitStore
