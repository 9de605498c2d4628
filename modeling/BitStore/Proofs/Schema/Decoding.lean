import BitStore.Bits.Cursor
import BitStore.Proofs.Schema.Bitset
import BitStore.Proofs.Schema.Rejection

/-! How far decoding gets. A schema is read node by node, depth first and from left to right. The first
variant, array or function on the way cannot be read from bits alone, and reading fails there. But
every single bit before it is read first, so with too few bits the source runs dry and the node
is never come upon. In each case the place where the source is left follows from the schema, and so
does the place where the schema after it starts to be read. -/

namespace BitStore.Schema

/-- Bits alone do not tell how such a schema is read. -/
def needsLayout : Schema → Bool
  | .variant _ => true
  | .array _ => true
  | .function => true
  | _ => false

/-- The number of single bits in front of the first schema that needs a layout, or of all
single bits if none does. -/
def bitsAhead (nodes : List Schema) : Nat :=
  (nodes.takeWhile fun s => !s.needsLayout).countP isBit

theorem bitsAhead_cons (s : Schema) (ss : List Schema) :
    bitsAhead (s :: ss) = if s.needsLayout then 0 else s.isBit.toNat + bitsAhead ss := by
  rw [bitsAhead, bitsAhead, List.takeWhile_cons]
  cases s with
  | bit => exact (List.countP_cons_of_pos rfl).trans (Nat.add_comm _ 1)
  | unit | tuple => exact (List.countP_cons_of_neg Bool.false_ne_true).trans (Nat.zero_add _).symm
  | variant | array | function => rfl

/-- Behind a schema that needs a layout no more bits count. -/
theorem bitsAhead_append (ns ms : List Schema) : bitsAhead (ns ++ ms) =
    bitsAhead ns + if (ns.find? needsLayout).isSome then 0 else bitsAhead ms := by
  induction ns with
  | nil => exact (Nat.zero_add _).symm
  | cons s ns ih =>
    rw [List.cons_append, bitsAhead_cons, bitsAhead_cons, ih]
    cases hs : s.needsLayout with
    | true => simp [hs]
    | false => simp [hs, Nat.add_assoc]

/-! ### One schema -/

section Source

open BitSource (Yields)

variable {σ : Type} [BitSource σ]

/-- What it comes to when schemas are read from the given bits: all bits are taken and there is no result,
or just the bits ahead of the first schema that needs a layout are taken and the error names its
kind, or just all single bits are taken and there is a result. -/
inductive Reads {α : Type} (nodes : List Schema) (bits : Bits) : EStateM.Result CodecError σ (Option α) → Prop
  | dry {after} : bits.length < bitsAhead nodes → Yields after [] → Reads nodes bits (.ok none after)
  | stuck {t after} : bitsAhead nodes ≤ bits.length → nodes.find? needsLayout = some t →
      Yields after (bits.drop (bitsAhead nodes)) → Reads nodes bits (.error (.undecodable t.kind) after)
  | done {a after} : bitsAhead nodes ≤ bits.length → nodes.find? needsLayout = none →
      Yields after (bits.drop (bitsAhead nodes)) → Reads nodes bits (.ok (some a) after)

namespace Reads

variable {α β : Type} {ns ms : List Schema} {bits : Bits}
variable {source : σ} {x : EStateM CodecError σ (Option α)}

theorem map (h : Reads ns bits (x.run source)) (f : α → β) :
    Reads ns bits ((do return (← x).map f).run source) := by
  rw [EStateM.run_bind]
  generalize x.run source = r at h
  cases h with
  | dry hshort hrest => exact .dry hshort hrest
  | stuck henough hfirst hrest => exact .stuck henough hfirst hrest
  | done henough hnone hrest => exact .done henough hnone hrest

/-- What is read behind schemas that were read to their end is read behind them and their bits. -/
theorem after {r : EStateM.Result CodecError σ (Option β)} (hnone : ns.find? needsLayout = none)
    (henough : bitsAhead ns ≤ bits.length) (h : Reads ms (bits.drop (bitsAhead ns)) r) : Reads (ns ++ ms) bits r := by
  have hahead : bitsAhead (ns ++ ms) = bitsAhead ns + bitsAhead ms := by
    rw [bitsAhead_append, hnone]
    rfl
  have hfind : (ns ++ ms).find? needsLayout = ms.find? needsLayout := by rw [List.find?_append, hnone, Option.none_or]
  have hlen : (bits.drop (bitsAhead ns)).length = bits.length - bitsAhead ns := List.length_drop
  cases h with
  | dry hshort hrest => exact .dry (by omega) hrest
  | stuck hmore hfirst hrest =>
    rw [List.drop_drop, ← hahead] at hrest
    exact .stuck (by omega) (hfind.trans hfirst) hrest
  | done hmore hend hrest =>
    rw [List.drop_drop, ← hahead] at hrest
    exact .done (by omega) (hfind.trans hend) hrest

/-- What follows is read only if there was a result so far. -/
theorem seq (h : Reads ns bits (x.run source)) {f : Option α → EStateM CodecError σ (Option β)}
    (hnone : f none = pure none)
    (hsome : ∀ a rest left, Yields rest left → Reads ms left ((f (some a)).run rest)) :
    Reads (ns ++ ms) bits ((x >>= f).run source) := by
  rw [EStateM.run_bind]
  generalize x.run source = r at h
  cases h with
  | @dry rest hshort hrest =>
    have hstop : Reads (ns ++ ms) bits ((f none).run rest) := by
      rw [hnone]
      have hle : bitsAhead ns ≤ bitsAhead (ns ++ ms) := bitsAhead_append ns ms ▸ Nat.le_add_right _ _
      exact .dry (Nat.lt_of_lt_of_le hshort hle) hrest
    exact hstop
  | stuck henough hfirst hrest =>
    have hahead : bitsAhead (ns ++ ms) = bitsAhead ns := by
      rw [bitsAhead_append, hfirst]
      rfl
    rw [← hahead] at henough hrest
    exact .stuck henough (by rw [List.find?_append, hfirst, Option.some_or]) hrest
  | done henough hend hrest => exact after hend henough (hsome _ _ _ hrest)

end Reads

mutual

theorem decode_reads : ∀ (s : Schema) {source : σ} {bits : Bits}, Yields source bits →
    Reads s.nodes bits (s.decode.run source)
  | .unit, _, _, h => .done (Nat.zero_le _) rfl h
  | .bit, source, bits, h => by
    refine .map ?_ Value.bit
    rw [BitSource.run_read]
    cases bits with
    | nil =>
      have hdry : BitSource.next? source = none := h
      rw [hdry]
      exact .dry (by decide) hdry
    | cons b bits =>
      obtain ⟨rest, hnext, hrest⟩ := h
      rw [hnext]
      exact .done (Nat.succ_le_succ (Nat.zero_le _)) rfl hrest
  | .tuple ss, _, _, h => by
    have htuple : [tuple ss].find? needsLayout = none := rfl
    exact .after htuple (Nat.zero_le _) (.map (decodeAll_reads ss h) Value.tuple)
  | .variant ss, _, _, h => .stuck (t := .variant ss) (Nat.zero_le _) rfl h
  | .array s, _, _, h => .stuck (t := .array s) (Nat.zero_le _) rfl h
  | .function, _, _, h => .stuck (t := .function) (Nat.zero_le _) rfl h

theorem decodeAll_reads : ∀ (ss : List Schema) {source : σ} {bits : Bits}, Yields source bits →
    Reads (nodesAll ss) bits ((decodeAll ss).run source)
  | [], _, _, h => .done (Nat.zero_le _) rfl h
  | s :: ss, _, _, h => by
    rw [nodesAll, decodeAll]
    exact (decode_reads s h).seq rfl fun v rest left hleft => (decodeAll_reads ss hleft).map (v :: ·)

end

/-! ### One schema after another -/

/-- Where the source is left. -/
def sourceAfter {α : Type} : EStateM.Result CodecError σ α → σ
  | .ok _ source => source
  | .error _ source => source

theorem Reads.yields_sourceAfter {α : Type} {nodes : List Schema} {bits : Bits}
    {r : EStateM.Result CodecError σ (Option α)} (h : Reads nodes bits r) :
    Yields (sourceAfter r) (bits.drop (bitsAhead nodes)) := by
  cases h with
  | dry hshort hrest =>
    rw [List.drop_eq_nil_of_le (Nat.le_of_lt hshort)]
    exact hrest
  | stuck _ _ hrest => exact hrest
  | done _ _ hrest => exact hrest

/-- Reads one schema after the other, each from where the source was left, whatever came of those before. -/
def decodeInTurn : List Schema → σ → List (EStateM.Result CodecError σ (Option Value))
  | [], _ => []
  | s :: ss, source => s.decode.run source :: decodeInTurn ss (sourceAfter (s.decode.run source))

/-- Where the schema after these starts to be read, if the source is not dry by then. -/
def bitsInTurn : List Schema → Nat
  | [] => 0
  | s :: ss => bitsAhead s.nodes + bitsInTurn ss

theorem length_decodeInTurn (ss : List Schema) (source : σ) : (decodeInTurn ss source).length = ss.length := by
  induction ss generalizing source with
  | nil => rfl
  | cons s ss ih => rw [decodeInTurn, List.length_cons, List.length_cons, ih]

theorem decodeInTurn_reads (ss : List Schema) {source : σ} {bits : Bits} (h : Yields source bits)
    (i : Fin ss.length) :
    ∃ r, (decodeInTurn ss source)[i.val]? = some r ∧ Reads ss[i].nodes (bits.drop (bitsInTurn (ss.take i))) r := by
  induction ss generalizing source bits with
  | nil => exact i.elim0
  | cons s ss ih =>
    have hfirst : Reads s.nodes bits (s.decode.run source) := decode_reads s h
    cases i using Fin.cases with
    | zero => exact ⟨_, rfl, hfirst⟩
    | succ i =>
      obtain ⟨r, hr, hreads⟩ := ih hfirst.yields_sourceAfter i
      rw [List.drop_drop] at hreads
      exact ⟨r, hr, hreads⟩

/-- From every source that runs dry at some time, a schema is read up to the first variant, array or function
in it, and no further than there are bits. Schemas that are read in turn start where those before them,
by this rule, have left the source. -/
theorem decode_stops_exactly {source : σ} {bits : Bits} (h : Yields source bits) :
    (∀ s : Schema, Reads s.nodes bits (s.decode.run source)) ∧
    ∀ ss : List Schema, (decodeInTurn ss source).length = ss.length ∧
      ∀ i : Fin ss.length, ∃ r, (decodeInTurn ss source)[i.val]? = some r ∧
        Reads ss[i].nodes (bits.drop (bitsInTurn (ss.take i))) r :=
  ⟨fun s => decode_reads s h, fun ss => ⟨length_decodeInTurn ss source, decodeInTurn_reads ss h⟩⟩

end Source

/-- From three bits of a cursor, the array behind two bits stops the first schema, the second takes a bit
and the third runs dry. -/
theorem decode_stops_exactly_three_in_turn :
    BitSource.Yields (BitCursor.ofBits [true, false, true]) [true, false, true] ∧
    ∃ results : List (EStateM.Result CodecError BitCursor (Option Value)),
      decodeInTurn [.tuple [.bit, .tuple [.bit, .array .bit]], .bit, .tuple [.bit, .function]]
        (BitCursor.ofBits [true, false, true]) = results ∧ results.length = 3 ∧
      results = [.error (.undecodable .array) ⟨[true], []⟩, .ok (some (.bit true)) ⟨[], []⟩, .ok none ⟨[], []⟩] := by
  have h : BitSource.Yields (BitCursor.ofBits [true, false, true]) [true, false, true] :=
    BitCursor.yields_iff.2 (BitCursor.toBits_ofBits _)
  exact ⟨h, _, rfl, ((decode_stops_exactly h).2 _).1, rfl⟩

end BitStore.Schema
