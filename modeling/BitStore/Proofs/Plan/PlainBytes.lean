import BitStore.Proofs.Bits.Bytes
import BitStore.Proofs.Layout.Encoding
import BitStore.Proofs.Plan.Acceptance

/-! Where no array is in the way, a layout adds nothing. A value that is written under a layout
without arrays is written as its plain bits, whether it fits the schema or only happens to
have the right widths. So an array of such records is stored as its element count, in eight
bytes, and then byte for byte as its plain bits would be. -/

namespace BitStore

theorem Layout.toBits_of_encode {l : Layout} (hl : l.arrayFree = true) {v : Value} {bits : Bits}
    (h : l.encode v = .ok bits) : v.toBits = .ok bits :=
  Value.toBits_eq_ok_iff.2 (leaves_of_encode l hl h)

/-- The elements of an array are written as their plain bits end to end. -/
theorem Layout.toBits_of_mapM_encode {l : Layout} (hl : l.arrayFree = true) {vs : List Value} {parts : List Bits}
    (h : vs.mapM l.encode = .ok parts) : (Value.tuple vs).toBits = .ok parts.flatten := by
  obtain ⟨hplain, hfills⟩ := fills_of_mapM (fun h => fills_of_encode l h) h
  have hbit : ∀ p ∈ vs.flatMap l.pieces, p = .bit := by
    intro p hp
    obtain ⟨v, _, hp⟩ := List.mem_flatMap.1 hp
    exact eq_bit_of_mem_pieces l hl p hp
  exact Value.toBits_eq_ok_iff.2 ⟨hplain, (hfills.eq_of_forall_bit hbit).2⟩

theorem Layout.toBytes_countBits_append (n : Nat) (bits : Bits) :
    (countBits n ++ bits).toBytes = Bits.bigEndian 8 n ++ bits.toBytes := by
  have hcount : countBits n = Bits.ofBytes (Bits.bigEndian 8 n) := (Bits.ofBytes_bigEndian 8 n).symm
  rw [hcount, Bits.toBytes_ofBytes_append]

namespace Storage

theorem writeValue_of_toBytes {v : Value} {bytes : List UInt8} (h : v.toBytes = .ok bytes) (memory : Memory)
    (old : Storage) : (writeValue v memory).run old = .ok () (old.overwrite 0 bytes) := by
  rw [writeValue, h]
  exact writeAt_zero memory bytes old

end Storage

namespace Plan

theorem write_eq_ok_iff {plan : Plan} {v : Value} {memory : Storage.Memory} {old new : Storage} :
    (plan.write v memory).run old = .ok () new ↔
      ∃ bits, plan.layout.encodeRoot v = .ok bits ∧ new = old.overwrite 0 bits.toBytes := by
  constructor
  · intro h
    cases hroot : plan.layout.encodeRoot v with
    | ok bits =>
      rw [write_of_encode memory old hroot] at h
      cases h
      exact ⟨bits, rfl, rfl⟩
    | error e =>
      rw [write, hroot] at h
      cases h
  · rintro ⟨bits, hroot, rfl⟩
    exact write_of_encode memory old hroot

/-- Under a layout without arrays values are written as their plain bits. Hence what the plan of an
array of such records writes is the count of the records and then the plain bytes of the array. -/
theorem writes_plain_bytes :
    (∀ (l : Layout) (v : Value) (bits : Bits), l.arrayFree = true → l.encode v = .ok bits → v.toBits = .ok bits) ∧
    ∀ (record : Schema) (l : Layout), record.layout = .ok l → l.arrayFree = true →
      ∀ (getters setters : List Expr) (settings : Settings) (plan : Plan),
        compile (.array record) getters setters settings = .ok plan →
      ∀ (vs : List Value) (memory : Storage.Memory) (old new : Storage),
        (plan.write (.tuple vs) memory).run old = .ok () new →
        ∃ bytes, (Value.tuple vs).toBytes = .ok bytes ∧
          new = old.overwrite 0 (Bits.bigEndian 8 vs.length ++ bytes) ∧
          ∀ memory, (Storage.writeValue (.tuple vs) memory).run old = .ok () (old.overwrite 0 bytes) := by
  refine ⟨fun l v bits hl h => Layout.toBits_of_encode hl h, ?_⟩
  intro record l hrecord hl getters setters settings plan hplan vs memory old new hwrite
  have hlayout : plan.layout = .array l := by
    have h := layout_of_compile hplan
    rw [Schema.layout, hrecord] at h
    exact (Except.ok.inj h).symm
  obtain ⟨bits, hroot, rfl⟩ := write_eq_ok_iff.1 hwrite
  rw [hlayout, Layout.encodeRoot, Layout.encode] at hroot
  obtain ⟨parts, hparts, ⟨⟩⟩ := bind_eq_ok_iff.1 hroot
  have hbytes : (Value.tuple vs).toBytes = .ok (Bits.toBytes parts.flatten) := by
    rw [Value.toBytes_eq, Layout.toBits_of_mapM_encode hl hparts]
    rfl
  refine ⟨_, hbytes, ?_, fun memory => Storage.writeValue_of_toBytes hbytes memory old⟩
  rw [Layout.toBytes_countBits_append]

/-- Two records are written over a stale byte. Neither fits the schema, a pair of bits, but both have
two bits. -/
theorem writes_plain_bytes_of_misfits :
    ∃ plan bytes, compile (.array (.tuple [.bit, .bit])) [] [] {} = .ok plan ∧
      (Schema.tuple [.bit, .bit]).accepts (.present (.unsigned 2 1)) = false ∧
      (Schema.tuple [.bit, .bit]).accepts (.tuple [.unit, .unsigned 2 3]) = false ∧
      (Layout.bitset 2).encode (.present (.unsigned 2 1)) = .ok [false, true] ∧
      (Value.present (.unsigned 2 1)).toBits = .ok [false, true] ∧
      (Value.tuple [.present (.unsigned 2 1), .tuple [.unit, .unsigned 2 3]]).toBytes = .ok bytes ∧
      (plan.write (.tuple [.present (.unsigned 2 1), .tuple [.unit, .unsigned 2 3]])).run ⟨[255]⟩ =
        .ok () (Storage.overwrite ⟨[255]⟩ 0 ([0, 0, 0, 0, 0, 0, 0, 2] ++ bytes)) := by
  have hlayout : (Schema.tuple [.bit, .bit]).layout = .ok (.bitset 2) := by rfl
  have hplan : compile (.array (.tuple [.bit, .bit])) [] [] {} = .ok ⟨.array (.bitset 2), []⟩ :=
    compile_of_layout (by rfl) [] {}
  have hencode : (Layout.bitset 2).encode (.present (.unsigned 2 1)) = .ok [false, true] := by rfl
  have hroot : (Layout.array (.bitset 2)).encodeRoot (.tuple [.present (.unsigned 2 1), .tuple [.unit, .unsigned 2 3]]) =
      .ok (Layout.countBits 2 ++ [false, true, true, true]) := by rfl
  have hwrite := @write_of_encode Storage.Memory.usual ⟨[255]⟩ ⟨.array (.bitset 2), []⟩ _ _ hroot
  obtain ⟨bytes, hbytes, hnew, _⟩ := writes_plain_bytes.2 _ _ hlayout rfl [] [] {} _ hplan _ _ _ _ hwrite
  rw [hnew] at hwrite
  exact ⟨_, bytes, hplan, rfl, rfl, hencode, writes_plain_bytes.1 _ _ _ rfl hencode, hbytes, hwrite⟩

end Plan

end BitStore
