import BitStore.Layout.Encode
import BitStore.Proofs.Schema.Bitset
import BitStore.Proofs.Value.Leaves

/-! What layouts write. A variant is written under the first layout that takes its content,
and every later layout that takes it too is passed over. Whatever is written consists of the plain
bits of the value and element counts between them. So layouts that put the same counts in the same
places write the same, and under a layout without arrays just the plain bits are written. -/

namespace BitStore.Layout

/-! ### The first layout that takes a value -/

/-- The value can be written under the layout. -/
def takes (v : Value) (l : Layout) : Bool :=
  (l.encode v).isOk

theorem takes_iff {v : Value} {l : Layout} : l.takes v = true ↔ ∃ bits, l.encode v = .ok bits := by
  rw [takes]
  cases l.encode v <;> simp [Except.isOk, Except.toBool]

theorem takes_eq_false {v : Value} {l : Layout} {e : Fault} (h : l.encode v = .error e) : l.takes v = false := by
  rw [takes, h]
  rfl

theorem encodeFirst_eq_some_iff {ls : List Layout} {v : Value} {bits : Bits} :
    encodeFirst ls v = some bits ↔ ∃ first, ls.find? (takes v) = some first ∧ first.encode v = .ok bits := by
  induction ls with
  | nil => simp [encodeFirst]
  | cons l ls ih =>
    rw [encodeFirst, List.find?_cons]
    cases h : l.encode v with
    | ok b =>
      rw [takes_iff.2 ⟨b, h⟩]
      simp [h]
    | error e =>
      rw [takes_eq_false h]
      exact ih

theorem encode_variant_eq_ok_iff {ls : List Layout} {v : Value} {bits : Bits} :
    (variant ls).encode (.variant v) = .ok bits ↔
      ∃ first, ls.find? (takes v) = some first ∧ first.encode v = .ok bits := by
  rw [← encodeFirst_eq_some_iff, encode]
  cases encodeFirst ls v <;> simp

/-! ### Bits and counts -/

theorem encodeBitset_eq_ok_iff {width : Nat} {v : Value} {bits : Bits} :
    encodeBitset width v = .ok bits ↔ v.toBits = .ok bits ∧ bits.length = width := by
  rw [encodeBitset]
  cases v.toBits with
  | error e => simp
  | ok plain =>
    by_cases hlen : plain.length = width
    · simp only [if_pos hlen]
      constructor
      · rintro ⟨⟩
        exact ⟨rfl, hlen⟩
      · rintro ⟨⟨⟩, _⟩
        rfl
    · simp only [if_neg hlen]
      constructor
      · rintro ⟨⟩
      · rintro ⟨⟨⟩, h⟩
        exact absurd h hlen

/-- A piece of what is written of a value. -/
inductive Piece where
  /-- The next of the plain bits. -/
  | bit
  | count (n : Nat)

mutual

/-- The pieces that are written of a value, where the layout takes it. -/
def pieces : Layout → Value → List Piece
  | .bitset width, _ => List.replicate width .bit
  | .array element, .tuple values => .count values.length :: values.flatMap (pieces element)
  | .tuple layouts, .tuple values => piecesEach layouts values
  | .variant possibilities, .variant content => piecesFirst possibilities content
  | _, _ => []

def piecesEach : List Layout → List Value → List Piece
  | l :: ls, v :: vs => pieces l v ++ piecesEach ls vs
  | _, _ => []

def piecesFirst : List Layout → Value → List Piece
  | [], _ => []
  | l :: ls, v => if l.takes v then pieces l v else piecesFirst ls v

end

/-- The pieces become the written bits, if the plain bits take their places. -/
inductive Fills : List Piece → (plain written : Bits) → Prop
  | nil : Fills [] [] []
  | bit (b) {ps plain written} : Fills ps plain written → Fills (.bit :: ps) (b :: plain) (b :: written)
  | count (n) {ps plain written} : Fills ps plain written → Fills (.count n :: ps) plain (countBits n ++ written)

namespace Fills

variable {ps qs : List Piece} {plain others written bits : Bits}

theorem append (hp : Fills ps plain written) (hq : Fills qs others bits) :
    Fills (ps ++ qs) (plain ++ others) (written ++ bits) := by
  induction hp with
  | nil => exact hq
  | bit b _ ih => exact .bit b ih
  | count n _ ih =>
    rw [List.append_assoc]
    exact .count n ih

theorem replicate (plain : Bits) : Fills (List.replicate plain.length .bit) plain plain := by
  induction plain with
  | nil => exact .nil
  | cons b plain ih => exact .bit b ih

theorem written_unique (h : Fills ps plain written) (h' : Fills ps plain bits) : written = bits := by
  induction h generalizing bits with
  | nil =>
    cases h'
    rfl
  | bit b _ ih =>
    cases h' with
    | bit _ h' => rw [ih h']
  | count n _ ih =>
    cases h' with
    | count _ h' => rw [ih h']

/-- Pieces without a count are filled by any bits of their number. -/
theorem eq_of_forall_bit (h : Fills ps plain written) (hps : ∀ p ∈ ps, p = .bit) :
    ps = List.replicate plain.length .bit ∧ plain = written := by
  have heq : ps = List.replicate plain.length .bit := by
    induction h with
    | nil => rfl
    | bit b _ ih => exact congrArg _ (ih fun p hp => hps p (List.mem_cons_of_mem _ hp))
    | count n _ _ => cases hps _ List.mem_cons_self
  subst heq
  exact ⟨rfl, (replicate plain).written_unique h⟩

end Fills

/-- Elements of an array are written end to end. -/
theorem fills_of_mapM {element : Layout}
    (helement : ∀ {v bits}, element.encode v = .ok bits → v.containsClosure = false ∧
      Fills (element.pieces v) v.leaves bits) {vs : List Value} {parts : List Bits}
    (h : vs.mapM element.encode = .ok parts) :
    Value.anyContainsClosure vs = false ∧ Fills (vs.flatMap element.pieces) (Value.leavesAll vs) parts.flatten := by
  induction vs generalizing parts with
  | nil =>
    cases h
    exact ⟨rfl, .nil⟩
  | cons v vs ih =>
    rw [List.mapM_cons] at h
    obtain ⟨bits, hbits, h⟩ := bind_eq_ok_iff.1 h
    obtain ⟨rest, hrest, ⟨⟩⟩ := bind_eq_ok_iff.1 h
    obtain ⟨hplain, hfirst⟩ := helement hbits
    obtain ⟨hplains, hfills⟩ := ih hrest
    rw [Value.anyContainsClosure, Value.leavesAll, hplain, hplains, List.flatMap_cons, List.flatten_cons]
    exact ⟨rfl, hfirst.append hfills⟩

mutual

/-- What is written of a value are its plain bits and element counts. -/
theorem fills_of_encode : ∀ (l : Layout) {v : Value} {bits : Bits}, l.encode v = .ok bits →
    v.containsClosure = false ∧ Fills (l.pieces v) v.leaves bits
  | .unit, v, _, h => by
    cases v with
    | unit =>
      cases h
      exact ⟨rfl, .nil⟩
    | bit | tuple | variant | closure => simp [encode] at h
  | .bitset width, v, bits, h => by
    rw [encode, encodeBitset_eq_ok_iff] at h
    obtain ⟨hplain, rfl⟩ := Value.toBits_eq_ok_iff.1 h.1
    rw [pieces, ← h.2]
    exact ⟨hplain, .replicate _⟩
  | .array element, v, _, h => by
    cases v with
    | tuple vs =>
      rw [encode] at h
      obtain ⟨parts, hparts, ⟨⟩⟩ := bind_eq_ok_iff.1 h
      obtain ⟨hplain, hfills⟩ := fills_of_mapM (fun h => fills_of_encode element h) hparts
      rw [Value.containsClosure, Value.leaves, pieces]
      exact ⟨hplain, .count _ hfills⟩
    | unit | bit | variant | closure => simp [encode] at h
  | .tuple ls, v, _, h => by
    cases v with
    | tuple vs =>
      rw [encode] at h
      split at h
      next hlen => exact fills_of_encodeEach ls hlen h
      next => cases h
    | unit | bit | variant | closure => simp [encode] at h
  | .variant ls, v, _, h => by
    cases v with
    | variant content =>
      rw [encode_variant_eq_ok_iff, ← encodeFirst_eq_some_iff] at h
      rw [Value.containsClosure, Value.leaves, pieces]
      exact fills_of_encodeFirst ls h
    | unit | bit | tuple | closure => simp [encode] at h

theorem fills_of_encodeEach : ∀ (ls : List Layout) {vs : List Value} {bits : Bits}, ls.length = vs.length →
    encodeEach ls vs = .ok bits →
    Value.anyContainsClosure vs = false ∧ Fills (piecesEach ls vs) (Value.leavesAll vs) bits
  | [], [], _, _, h => by
    cases h
    exact ⟨rfl, .nil⟩
  | l :: ls, v :: vs, _, hlen, h => by
    obtain ⟨bits, hbits, h⟩ := bind_eq_ok_iff.1 h
    obtain ⟨rest, hrest, ⟨⟩⟩ := bind_eq_ok_iff.1 h
    obtain ⟨hplain, hfirst⟩ := fills_of_encode l hbits
    obtain ⟨hplains, hfills⟩ := fills_of_encodeEach ls (Nat.succ.inj hlen) hrest
    rw [Value.anyContainsClosure, Value.leavesAll, hplain, hplains]
    exact ⟨rfl, hfirst.append hfills⟩

theorem fills_of_encodeFirst : ∀ (ls : List Layout) {v : Value} {bits : Bits}, encodeFirst ls v = some bits →
    v.containsClosure = false ∧ Fills (piecesFirst ls v) v.leaves bits
  | [], _, _, h => by cases h
  | l :: ls, v, _, h => by
    rw [encodeFirst] at h
    rw [piecesFirst]
    cases hfirst : l.encode v with
    | ok bits =>
      rw [hfirst] at h
      cases h
      rw [takes_iff.2 ⟨_, hfirst⟩]
      exact fills_of_encode l hfirst
    | error e =>
      rw [hfirst] at h
      rw [takes_eq_false hfirst]
      exact fills_of_encodeFirst ls h

end

/-- Layouts that put the same counts in the same places of a value write it alike. -/
theorem encode_eq_of_pieces_eq {l m : Layout} {v : Value} (h : l.pieces v = m.pieces v) {bits others : Bits}
    (hl : l.encode v = .ok bits) (hm : m.encode v = .ok others) : bits = others := by
  have hfills := (fills_of_encode l hl).2
  rw [h] at hfills
  exact hfills.written_unique (fills_of_encode m hm).2

/-! ### Plain bits -/

mutual

/-- No array occurs in the layout. -/
def arrayFree : Layout → Bool
  | .unit => true
  | .tuple elements => allArrayFree elements
  | .array _ => false
  | .bitset _ => true
  | .variant possibilities => allArrayFree possibilities

def allArrayFree : List Layout → Bool
  | [] => true
  | l :: ls => arrayFree l && allArrayFree ls

end

mutual

theorem eq_bit_of_mem_pieces : ∀ (l : Layout) {v : Value}, l.arrayFree = true → ∀ p ∈ l.pieces v, p = .bit
  | .bitset _, _, _, _, hp => (List.mem_replicate.1 (by rwa [pieces] at hp)).2
  | .tuple ls, .tuple vs, hl, p, hp => eq_bit_of_mem_piecesEach ls hl p hp
  | .variant ls, .variant v, hl, p, hp => eq_bit_of_mem_piecesFirst ls hl p hp

theorem eq_bit_of_mem_piecesEach : ∀ (ls : List Layout) {vs : List Value}, allArrayFree ls = true →
    ∀ p ∈ piecesEach ls vs, p = .bit
  | l :: ls, v :: vs, hls, p, hp => by
    rw [allArrayFree, Bool.and_eq_true] at hls
    rcases List.mem_append.1 hp with hp | hp
    · exact eq_bit_of_mem_pieces l hls.1 p hp
    · exact eq_bit_of_mem_piecesEach ls hls.2 p hp

theorem eq_bit_of_mem_piecesFirst : ∀ (ls : List Layout) {v : Value}, allArrayFree ls = true →
    ∀ p ∈ piecesFirst ls v, p = .bit
  | l :: ls, v, hls, p, hp => by
    rw [allArrayFree, Bool.and_eq_true] at hls
    rw [piecesFirst] at hp
    split at hp
    · exact eq_bit_of_mem_pieces l hls.1 p hp
    · exact eq_bit_of_mem_piecesFirst ls hls.2 p hp

end

/-- Without arrays, the plain bits of a value are written. -/
theorem leaves_of_encode (l : Layout) {v : Value} {bits : Bits} (hl : l.arrayFree = true) (h : l.encode v = .ok bits) :
    v.containsClosure = false ∧ v.leaves = bits := by
  obtain ⟨hplain, hfills⟩ := fills_of_encode l h
  exact ⟨hplain, (hfills.eq_of_forall_bit (eq_bit_of_mem_pieces l hl)).2⟩

theorem pieces_eq_of_arrayFree {l m : Layout} (hl : l.arrayFree = true) (hm : m.arrayFree = true) {v : Value}
    {bits others : Bits} (hbits : l.encode v = .ok bits) (hothers : m.encode v = .ok others) :
    l.pieces v = m.pieces v := by
  have hleft := (fills_of_encode l hbits).2.eq_of_forall_bit (eq_bit_of_mem_pieces l hl)
  have hright := (fills_of_encode m hothers).2.eq_of_forall_bit (eq_bit_of_mem_pieces m hm)
  exact hleft.1.trans hright.1.symm

end BitStore.Layout
