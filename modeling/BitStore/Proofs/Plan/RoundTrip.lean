import BitStore.Proofs.Getter.Answer
import BitStore.Proofs.Schema.Bitset
import BitStore.Proofs.Storage.Records

/-! What a plan writes, its getters read back. Where the records of a dataset are laid
out as bitsets, writing it succeeds over whatever the storage held, and afterwards the
dataset and its items are the records as bits, an index past the last record is out of
range, and the schema decodes each record where it starts. A dataset that is no array
is a single record. -/

namespace BitStore

namespace Value

/-- The bits of a value, and none if it has a closure in it. -/
def row (v : Value) : Bits :=
  v.toBits.toOption.getD []

/-- The value as the plain tuple of its bits. -/
def flat (v : Value) : Value :=
  .ofBits v.row

end Value

/-! ### Records -/

/-- The values are rows of `width` bits, from which the schema reads them back. -/
def Schema.Records (s : Schema) (width : Nat) (vs : List Value) : Prop :=
  ∀ v ∈ vs, v.row.length = width ∧ s.Codes v v.row

namespace Schema.Records

variable {s : Schema} {width : Nat} {vs : List Value}

theorem of_accepts (h : s.layout = .ok (.bitset width)) (hvs : ∀ v ∈ vs, s.accepts v = true) :
    s.Records width vs := by
  intro v hv
  obtain ⟨bits, hlen, hcodes⟩ := (groups_of_layout s h).codes (hvs v hv)
  have hrow : v.row = bits := by
    rw [Value.row, hcodes.toBits]
    rfl
  rw [hrow]
  exact ⟨hlen, hcodes⟩

theorem encode (h : s.Records width vs) {v : Value} (hv : v ∈ vs) : (Layout.bitset width).encode v = .ok v.row := by
  obtain ⟨hlen, hcodes⟩ := h v hv
  rw [← hlen]
  exact hcodes.encode

theorem encodeRoot_array (h : s.Records width vs) : (Layout.array (.bitset width)).encodeRoot (.tuple vs) =
    .ok (Layout.countBits (vs.map Value.row).length ++ (vs.map Value.row).flatten) := by
  have hparts : vs.mapM (Layout.bitset width).encode = .ok (vs.map Value.row) := mapM_eq_ok_map fun v => h.encode
  rw [Layout.encodeRoot, Layout.encode, hparts, List.length_map]
  rfl

theorem encodeRoot_single {root : Value} (h : s.Records width [root]) : (Layout.bitset width).encodeRoot root =
    .ok (Layout.countBits ([root].map Value.row).length ++ ([root].map Value.row).flatten) := by
  have hroot : (Layout.bitset width).encode root = .ok root.row := h.encode List.mem_cons_self
  rw [Layout.encodeRoot, hroot]
  · simp [bind, Except.bind, pure, Except.pure]
  · exact nofun

theorem holds_overwrite (h : s.Records width vs) (hcount : vs.length < AddressSpace.size)
    (hstart : ∀ index, index < vs.length → AddressSpace.width + width * index < AddressSpace.size) (old : Storage) :
    (old.overwrite 0 (Layout.countBits (vs.map Value.row).length ++ (vs.map Value.row).flatten).toBytes).Holds width
      (vs.map Value.row) := by
  apply Storage.holds_overwrite
  · intro row hrow
    obtain ⟨v, hv, rfl⟩ := List.mem_map.1 hrow
    exact (h v hv).1
  · rwa [List.length_map]
  · rwa [List.length_map]

end Schema.Records

namespace Plan

/-- The getter answers so when it is run, and when the plan has it and is asked for it by its index. -/
structure Answers (plan : Plan) (store : Storage) (getter : Expr) (argument : Value) (answer : Outcome Value) :
    Prop where
  run : getter.run store plan.layout argument = answer
  get : ∀ index, plan.getters[index]? = some getter → plan.get store index argument = answer

theorem Answers.of_run {plan : Plan} {store : Storage} {getter : Expr} {argument : Value} {answer : Outcome Value}
    (h : getter.run store plan.layout argument = answer) : plan.Answers store getter argument answer where
  run := h
  get index hindex := by
    rw [Plan.get, hindex]
    exact h

/-- Under the plan, the storage answers as one that holds these records: in full, one by
one, no further than the last, and as bits from which the schema restores each. -/
structure ReadsBack (plan : Plan) (store : Storage) (record : Schema) (width : Nat) (vs : List Value) : Prop where
  rows : ∀ v ∈ vs, v.toBits = .ok v.row ∧ v.row.length = width
  whole : ∀ argument, plan.Answers store (Expr.argument.nth 0) argument (.found (.tuple (vs.map Value.flat)))
  item : ∀ argument index, (h : index < vs.length) →
    plan.Answers store ((Expr.argument.nth 0).nth index) argument (.found vs[index].flat)
  beyond : ∀ argument index, vs.length ≤ index → index < AddressSpace.size →
    plan.Answers store ((Expr.argument.nth 0).nth index) argument (.fault (.indexOutOfRange index vs.length))
  decoded : ∀ index, (h : index < vs.length) → ∃ address cursor after, Address.zero.element width index = .ok address ∧
    store.bitsAt address = some cursor ∧ record.decode.run cursor = .ok (some vs[index]) after

theorem ReadsBack.of_holds {plan : Plan} {store : Storage} {record : Schema} {width : Nat} {vs : List Value}
    (hroot : plan.layout.root = ⟨.zero, .bitset width⟩) (hvs : record.Records width vs)
    (h : store.Holds width (vs.map Value.row)) : plan.ReadsBack store record width vs where
  rows v hv := ⟨(hvs v hv).2.toBits, (hvs v hv).1⟩
  whole argument := .of_run <| by
    rw [Expr.run_dataset, hroot, h.materialize, List.map_map]
    rfl
  item argument index hi := .of_run <| by
    have hlt : index < AddressSpace.size := Nat.lt_trans (by simpa using hi) h.count_lt
    rw [Expr.run_item _ _ _ hlt, hroot, h.get_of_lt (by simpa using hi), List.getElem_map]
    rfl
  beyond argument index hle hlt := .of_run <| by
    rw [Expr.run_item _ _ _ hlt, hroot, h.get_of_le (by simpa using hle), List.length_map]
  decoded index hi := by
    have hrow : index < (vs.map Value.row).length := by simpa using hi
    obtain ⟨address, cursor, rest, haddress, hcursor, hbits⟩ := h.cursor hrow
    rw [List.getElem_map] at hbits
    obtain ⟨after, hgives, _⟩ := (BitCursor.yields_iff.2 hbits).split
    exact ⟨address, cursor, after, haddress, hcursor, (hvs vs[index] (List.getElem_mem hi)).2.read hgives⟩

theorem compile_of_layout {root : Schema} {layout : Layout} (h : root.layout = .ok layout) (getters : List Expr)
    (settings : Settings) : compile root getters [] settings = .ok ⟨layout, getters⟩ := by
  have hanalyze : getters.forM layout.analyze = .ok () := by
    induction getters with
    | nil => rfl
    | cons getter getters ih => exact ih
  rw [compile, h]
  cases settings.analyzeGetters with
  | true =>
    simp only [List.isEmpty_nil, if_true, hanalyze]
    rfl
  | false => rfl

section Write

variable (memory : Storage.Memory) (old : Storage)

theorem write_of_encode {plan : Plan} {root : Value} {bits : Bits} (h : plan.layout.encodeRoot root = .ok bits) :
    (plan.write root memory).run old = .ok () (old.overwrite 0 bits.toBytes) := by
  rw [write, h]
  exact Storage.writeAt_zero memory bits.toBytes old

variable {record : Schema} {width : Nat} (h : record.layout = .ok (.bitset width))
include h

/-- Writing an array of records makes the storage hold their bits. -/
theorem write_array_holds (getters : List Expr) (settings : Settings) {vs : List Value}
    (hvs : ∀ v ∈ vs, record.accepts v = true) (hcount : vs.length < AddressSpace.size)
    (hspace : AddressSpace.width + width * vs.length < AddressSpace.size) :
    ∃ plan new, compile (.array record) getters [] settings = .ok plan ∧ plan.getters = getters ∧
      plan.layout.root = ⟨.zero, .bitset width⟩ ∧ (plan.write (.tuple vs) memory).run old = .ok () new ∧
      new.Holds width (vs.map Value.row) := by
  have hrecords := Schema.Records.of_accepts h hvs
  have hlayout : (Schema.array record).layout = .ok (.array (.bitset width)) := by
    rw [Schema.layout, h]
    rfl
  have hstart (index : Nat) (hi : index < vs.length) : AddressSpace.width + width * index < AddressSpace.size := by
    have hmul : width * index ≤ width * vs.length := Nat.mul_le_mul_left width (Nat.le_of_lt hi)
    omega
  exact ⟨_, _, compile_of_layout hlayout getters settings, rfl, rfl,
    write_of_encode memory old hrecords.encodeRoot_array, hrecords.holds_overwrite hcount hstart old⟩

/-- Writing a dataset that is a single record makes the storage hold its bits. -/
theorem write_single_holds (getters : List Expr) (settings : Settings) {root : Value}
    (hroot : record.accepts root = true) :
    ∃ plan new, compile record getters [] settings = .ok plan ∧ plan.getters = getters ∧
      plan.layout.root = ⟨.zero, .bitset width⟩ ∧ (plan.write root memory).run old = .ok () new ∧
      new.Holds width ([root].map Value.row) := by
  have hrecords : record.Records width [root] := Schema.Records.of_accepts h (by simpa using hroot)
  -- The only record starts right after the count, so its width puts no bound on it.
  have hstart (index : Nat) (hi : index < [root].length) : AddressSpace.width + width * index < AddressSpace.size := by
    obtain rfl : index = 0 := Nat.lt_one_iff.1 hi
    rw [Nat.mul_zero]
    decide
  exact ⟨_, _, compile_of_layout h getters settings, rfl, rfl, write_of_encode memory old hrecords.encodeRoot_single,
    hrecords.holds_overwrite (show 1 < AddressSpace.size by decide) hstart old⟩

/-- Records of a schema that is laid out as a bitset are read back after they were
written, from an array of as many as the address space has room for, and from a
dataset that is a single record. -/
theorem write_reads_back (getters : List Expr) (settings : Settings) :
    (∀ vs : List Value, (∀ v ∈ vs, record.accepts v = true) → vs.length < AddressSpace.size →
      AddressSpace.width + width * vs.length < AddressSpace.size →
      ∃ plan new, compile (.array record) getters [] settings = .ok plan ∧ plan.getters = getters ∧
        (plan.write (.tuple vs) memory).run old = .ok () new ∧ plan.ReadsBack new record width vs) ∧
    (∀ root : Value, record.accepts root = true →
      ∃ plan new, compile record getters [] settings = .ok plan ∧ plan.getters = getters ∧
        (plan.write root memory).run old = .ok () new ∧ plan.ReadsBack new record width [root]) := by
  constructor
  · intro vs hvs hcount hspace
    obtain ⟨plan, new, hplan, hgetters, hroot, hwrite, hholds⟩ :=
      write_array_holds memory old h getters settings hvs hcount hspace
    exact ⟨plan, new, hplan, hgetters, hwrite, .of_holds hroot (.of_accepts h hvs) hholds⟩
  · intro root haccepts
    obtain ⟨plan, new, hplan, hgetters, hroot, hwrite, hholds⟩ :=
      write_single_holds memory old h getters settings haccepts
    exact ⟨plan, new, hplan, hgetters, hwrite, .of_holds hroot (.of_accepts h (by simpa using haccepts)) hholds⟩

end Write

/-- Records of three bits are read back from a storage that was all ones, by a getter of the plan too. -/
theorem write_reads_back_over_stale_bytes :
    ∃ plan new, compile (.array (.tuple [.bit, .unsigned 2])) [.argument, (Expr.argument.nth 0).nth 1] [] {} =
        .ok plan ∧
      (plan.write (.tuple [.tuple [.bit true, .unsigned 2 1], .tuple [.bit false, .unsigned 2 3]])).run
        ⟨[255, 255, 255, 255, 255, 255, 255, 255, 255, 255]⟩ = .ok () new ∧
      plan.get new 1 .unit = .found (.unsigned 3 3) ∧
      ((Expr.argument.nth 0).nth 1).run new plan.layout .unit = .found (.unsigned 3 3) ∧
      ((Expr.argument.nth 0).nth 2).run new plan.layout .unit = .fault (.indexOutOfRange 2 2) := by
  have hlayout : (Schema.tuple [.bit, .unsigned 2]).layout = .ok (.bitset 3) := by rfl
  have hfits : ∀ v ∈ [Value.tuple [.bit true, .unsigned 2 1], .tuple [.bit false, .unsigned 2 3]],
      (Schema.tuple [.bit, .unsigned 2]).accepts v = true := by
    intro v hv
    simp only [List.mem_cons, List.not_mem_nil, or_false] at hv
    rcases hv with rfl | rfl <;> rfl
  obtain ⟨plan, new, hplan, hgetters, hwrite, hback⟩ := (write_reads_back Storage.Memory.usual
    ⟨[255, 255, 255, 255, 255, 255, 255, 255, 255, 255]⟩ hlayout [.argument, (Expr.argument.nth 0).nth 1] {}).1 _ hfits
    (by decide) (by decide)
  have hsecond := hback.item .unit 1 (by decide)
  exact ⟨plan, new, hplan, hwrite, hsecond.get 1 (by rw [hgetters]; rfl), hsecond.run,
    (hback.beyond .unit 2 (by decide) (by decide)).run⟩

end Plan

end BitStore
