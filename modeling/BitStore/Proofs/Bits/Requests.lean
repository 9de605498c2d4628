import BitStore.Proofs.Bits.Shifting

/-! Requests to a source of bits. A source is asked for its next bit, or to skip a number of bits. A cursor
over bytes opens each byte only when a bit of it is asked for, and gives up in the middle of a skip when there
are no more; all the same it answers every sequence of requests as the plain list of its bits does. So
a skip that asks for too much leaves nothing, and a cursor that is dry stays dry. -/

namespace BitStore

/-- A source from which bits can also be dropped, a number of them at a time. -/
class SkippingSource (σ : Type) extends BitSource σ where
  skip : (n : Nat) → σ → Bool × σ

instance : SkippingSource BitCursor := ⟨BitCursor.skip⟩

instance : SkippingSource ShiftCursor := ⟨ShiftCursor.skip⟩

/-- A list drops its bits at once, all of them if there are fewer. -/
instance : SkippingSource Bits where
  skip n bits := (decide (n ≤ bits.length), bits.drop n)

namespace BitSource

inductive Request where
  | next
  | skip (n : Nat)

inductive Answer where
  | bit (b : Option Bool)
  /-- Whether there were as many bits to skip. -/
  | skipped (all : Bool)
  deriving DecidableEq

/-- The answer of a source without bits. -/
def Request.whenDry : Request → Answer
  | .next => .bit none
  | .skip n => .skipped (n == 0)

section Serve

variable {σ τ : Type} [SkippingSource σ] [SkippingSource τ]

def answer (q : Request) (s : σ) : Answer × σ :=
  match q with
  | .next =>
    match next? s with
    | none => (.bit none, s)
    | some (b, rest) => (.bit (some b), rest)
  | .skip n => (.skipped (SkippingSource.skip n s).1, (SkippingSource.skip n s).2)

/-- Answers requests in turn. -/
def serve : List Request → σ → List Answer × σ
  | [], s => ([], s)
  | q :: qs, s => ((answer q s).1 :: (serve qs (answer q s).2).1, (serve qs (answer q s).2).2)

/-- Seen in this way, the one source gives the bits of the other, and skips as it does. -/
structure SkipsAs (view : σ → τ) : Prop extends SeenAs view where
  skip : ∀ n s, SkippingSource.skip n (view s) = ((SkippingSource.skip n s).1, view (SkippingSource.skip n s).2)

namespace SkipsAs

variable {view : σ → τ}

theorem comp {υ : Type} [SkippingSource υ] {further : τ → υ} (hfurther : SkipsAs further) (h : SkipsAs view) :
    SkipsAs fun s => further (view s) where
  toSeenAs := hfurther.toSeenAs.comp h.toSeenAs
  skip n s := by rw [hfurther.skip, h.skip]

theorem answer (h : SkipsAs view) (q : Request) (s : σ) :
    answer q (view s) = ((BitSource.answer q s).1, view (BitSource.answer q s).2) := by
  cases q with
  | next =>
    rw [BitSource.answer, BitSource.answer, h.next]
    cases next? s <;> rfl
  | skip n =>
    rw [BitSource.answer, h.skip]
    rfl

theorem serve (h : SkipsAs view) (qs : List Request) (s : σ) :
    serve qs (view s) = ((BitSource.serve qs s).1, view (BitSource.serve qs s).2) := by
  induction qs generalizing s with
  | nil => rfl
  | cons q qs ih =>
    rw [BitSource.serve, h.answer, ih]
    rfl

end SkipsAs

theorem serve_nil (qs : List Request) : serve qs ([] : Bits) = (qs.map Request.whenDry, []) := by
  induction qs with
  | nil => rfl
  | cons q qs ih =>
    have hanswer : answer q ([] : Bits) = (q.whenDry, []) := by
      cases q with
      | next => rfl
      | skip n => cases n <;> rfl
    rw [serve, hanswer, ih]
    rfl

/-- Once no bits are left there are none, whatever is asked for. -/
theorem SkipsAs.serve_of_dry {bitsLeft : σ → Bits} (h : SkipsAs bitsLeft) {s : σ} (hdry : bitsLeft s = [])
    (qs : List Request) :
    (BitSource.serve qs s).1 = qs.map Request.whenDry ∧ bitsLeft (BitSource.serve qs s).2 = [] := by
  have hserve := h.serve qs s
  rw [hdry, serve_nil] at hserve
  obtain ⟨hanswers, hrest⟩ := Prod.mk.inj hserve
  exact ⟨hanswers.symm, hrest.symm⟩

end Serve

/-! ### Cursors as lists -/

theorem skipsAs_toBits : SkipsAs BitCursor.toBits where
  toSeenAs := BitCursor.seenAs_toBits
  skip n c := Prod.ext (BitCursor.skip_fst n c).symm (BitCursor.toBits_skip n c).symm

theorem skipsAs_toCursor : SkipsAs ShiftCursor.toCursor where
  toSeenAs := ShiftCursor.seenAs_toCursor
  skip n r := r.skip_toCursor n

end BitSource

open BitSource

/-- However it is asked, a cursor over bytes answers as the list of their bits would, each byte from its
most significant bit on, and then has the bits left that the list has. If these are none, nothing
more comes of it. It is the same with a shift register. -/
theorem serve_as_flat_list (bytes : List UInt8) (requests : List Request) :
    ∃ answers rest cursor register,
      serve requests ((List.range (8 * bytes.length)).map fun k => (bytes.getD (k / 8) 0).toNat.testBit (7 - k % 8)) =
        (answers, rest) ∧
      serve requests (BitCursor.ofBytes bytes) = (answers, cursor) ∧ Yields cursor rest ∧
      serve requests (ShiftCursor.ofBytes bytes) = (answers, register) ∧ Yields register rest ∧
      (rest = [] → ∀ more,
        (serve more cursor).1 = more.map Request.whenDry ∧ Yields (serve more cursor).2 [] ∧
        (serve more register).1 = more.map Request.whenDry ∧ Yields (serve more register).2 []) := by
  have hregisters : SkipsAs fun r : ShiftCursor => r.toCursor.toBits := skipsAs_toBits.comp skipsAs_toCursor
  obtain ⟨hanswers, hrest⟩ := Prod.mk.inj (skipsAs_toBits.serve requests (.ofBytes bytes))
  obtain ⟨hanswers', hrest'⟩ := Prod.mk.inj (hregisters.serve requests (.ofBytes bytes))
  simp only [← Bits.ofBytes_eq_map, BitCursor.yields_iff, ShiftCursor.yields_iff]
  refine ⟨(serve requests (Bits.ofBytes bytes)).1, (serve requests (Bits.ofBytes bytes)).2, _, _, rfl,
    Prod.ext hanswers.symm rfl, hrest.symm, Prod.ext hanswers'.symm rfl, hrest'.symm, fun hdry more => ?_⟩
  obtain ⟨hnone, hleft⟩ := skipsAs_toBits.serve_of_dry (hrest.symm.trans hdry) more
  obtain ⟨hnone', hleft'⟩ := hregisters.serve_of_dry (hrest'.symm.trans hdry) more
  exact ⟨hnone, hleft, hnone', hleft'⟩

/-- The second skip asks for more bits than the byte has left. Then there are none to read or skip. -/
theorem serve_as_flat_list_over_the_end :
    ∃ cursor : BitCursor, serve [.skip 4, .next, .skip 4] (BitCursor.ofBytes [0x0F]) =
        ([.skipped true, .bit (some true), .skipped false], cursor) ∧
      (serve [.next, .skip 0, .skip 1] cursor).1 = [.bit none, .skipped true, .skipped false] := by
  obtain ⟨answers, rest, cursor, _, hlist, hcursor, _, _, _, hdry⟩ :=
    serve_as_flat_list [0x0F] [.skip 4, .next, .skip 4]
  obtain ⟨rfl, rfl⟩ : [.skipped true, .bit (some true), .skipped false] = answers ∧ [] = rest := Prod.mk.inj hlist
  exact ⟨cursor, hcursor, (hdry rfl [.next, .skip 0, .skip 1]).1⟩

end BitStore
