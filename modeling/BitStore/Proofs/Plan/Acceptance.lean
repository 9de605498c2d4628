import BitStore.Proofs.Plan.RoundTrip
import BitStore.Proofs.Schema.Fitting

/-! A plan writes whatever fits its schema. Its layout is that of the schema and takes every
value that fits, so writing such a value never fails, whatever the storage held. -/

namespace BitStore

namespace Layout

/-- The count in front of a dataset whose root does not bring its own. -/
def rootCount : Layout → Bits
  | .array _ => []
  | _ => countBits 1

theorem encodeRoot_of_encode {l : Layout} {v : Value} {bits : Bits} (h : l.encode v = .ok bits) :
    l.encodeRoot v = .ok (l.rootCount ++ bits) := by
  cases l with
  | array element => exact h
  | unit | tuple | bitset | variant =>
    rw [encodeRoot, h]
    · rfl
    · rintro _ ⟨⟩

end Layout

namespace Plan

theorem layout_of_compile {root : Schema} {getters setters : List Expr} {settings : Settings} {plan : Plan}
    (h : compile root getters setters settings = .ok plan) : root.layout = .ok plan.layout := by
  cases setters with
  | cons setter setters => simp [compile] at h
  | nil =>
    cases hlayout : root.layout with
    | error e => simp [compile, hlayout] at h
    | ok layout =>
      rw [compile_of_layout hlayout] at h
      cases h
      rfl

/-- A value that fits the schema of a plan is written by the plan, whatever the storage held and however
little memory there is to fill gaps. -/
theorem write_of_accepts {root : Schema} {getters setters : List Expr} {settings : Settings} {plan : Plan}
    (hplan : compile root getters setters settings = .ok plan) {v : Value} (hv : root.accepts v = true)
    (memory : Storage.Memory) (old : Storage) :
    ∃ bits, plan.layout.encodeRoot v = .ok bits ∧
      (plan.write v memory).run old = .ok () (old.overwrite 0 bits.toBytes) := by
  obtain ⟨bits, hbits⟩ := Schema.exists_encode root (layout_of_compile hplan) hv
  have hroot : plan.layout.encodeRoot v = .ok (plan.layout.rootCount ++ bits) := Layout.encodeRoot_of_encode hbits
  exact ⟨_, hroot, write_of_encode memory old hroot⟩

/-- A bit and one record, whose variant holds an array of three bits, are written over stale bytes. -/
theorem write_of_accepts_nested :
    ∃ plan bits, compile (.tuple [.bit, .array (.tuple [.bit, .variant [.unsigned 8, .array .bit]])]) [] [] {} =
        .ok plan ∧
      plan.layout.encodeRoot (.tuple [.bit true, .tuple [.tuple [.bit true, .present (.unsigned 3 5)]]]) = .ok bits ∧
      (plan.write (.tuple [.bit true, .tuple [.tuple [.bit true, .present (.unsigned 3 5)]]]) fun _ _ => false).run
        ⟨[255, 255]⟩ = .ok () (Storage.overwrite ⟨[255, 255]⟩ 0 bits.toBytes) := by
  have hlayout : (Schema.tuple [.bit, .array (.tuple [.bit, .variant [.unsigned 8, .array .bit]])]).layout =
      .ok (.tuple [.bitset 1, .array (.tuple [.bitset 1, .variant [.bitset 8, .array (.bitset 1)]])]) := by rfl
  have hplan := compile_of_layout hlayout [] {}
  obtain ⟨bits, hbits, hwrite⟩ := write_of_accepts hplan
    (v := .tuple [.bit true, .tuple [.tuple [.bit true, .present (.unsigned 3 5)]]]) (by rfl) (fun _ _ => false)
    ⟨[255, 255]⟩
  exact ⟨_, bits, hplan, hbits, hwrite⟩

end Plan

end BitStore
