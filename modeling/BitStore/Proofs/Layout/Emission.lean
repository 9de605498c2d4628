import BitStore.Layout.Encode
import BitStore.Proofs.Value.Leaves

/-! Encoding into a sink. The bits of a value can be pushed as soon as they are known, the count of
an array before its first element; only what a possibility of a variant makes of the content
has to wait until it is known to take it. That pushes the bits that encoding the value whole
would give. Where the value does not fit, some bits have been pushed by then. Plain bits are
pushed in this way to begin with, up to the first closure. -/

namespace BitStore

section Emission

variable {σ : Type} [BitSink σ]

namespace Bits

def pushAll (bits : Bits) : EStateM Fault σ Unit :=
  modify (bits.foldl BitSink.push)

end Bits

namespace Layout

mutual

/-- Pushes the bits of a value, from left to right. -/
def emit : Layout → Value → EStateM Fault σ Unit
  | .unit, .unit => pure ()
  | .bitset width, v =>
    match encodeBitset width v with
    | .ok bits => bits.pushAll
    | .error e => throw e
  | .array element, .tuple values => do
    (countBits values.length).pushAll
    values.forM (emit element)
  | .tuple layouts, .tuple values =>
    if layouts.length = values.length then emitEach layouts values
    else throw (.layoutMismatch (.tuple layouts) (.tuple values))
  | .variant possibilities, .variant content =>
    match encodeFirst possibilities content with
    | some bits => bits.pushAll
    | none => throw (.layoutMismatch (.variant possibilities) (.variant content))
  | l, v => throw (.layoutMismatch l v)

def emitEach : List Layout → List Value → EStateM Fault σ Unit
  | l :: ls, v :: vs => do
    emit l v
    emitEach ls vs
  | _, _ => pure ()

end

/-- Pushes a whole dataset, under the count of its records. -/
def emitRoot (l : Layout) (root : Value) : EStateM Fault σ Unit :=
  match l with
  | .array _ => emit l root
  | _ => do
    (countBits 1).pushAll
    emit l root

end Layout

/-! ### What is pushed -/

/-- On every sink the encoded bits are pushed, or some bits are and then the fault comes up. -/
def Emits (writer : EStateM Fault σ Unit) : Except Fault Bits → Prop
  | .ok bits => ∀ sink, writer.run sink = .ok () (bits.foldl BitSink.push sink)
  | .error e => ∀ sink, ∃ pushed : Bits, writer.run sink = .error e (pushed.foldl BitSink.push sink)

namespace Emits

variable {first second : EStateM Fault σ Unit} {x y : Except Fault Bits}

theorem pushAll (bits : Bits) : Emits (σ := σ) bits.pushAll (.ok bits) :=
  fun _ => rfl

theorem nothing : Emits (σ := σ) (pure ()) (.ok []) :=
  pushAll []

theorem fault (e : Fault) : Emits (σ := σ) (throw e) (.error e) :=
  fun _ => ⟨[], rfl⟩

/-- One writer after the other pushes what both do, or stops where one of them stops. -/
theorem seq (hx : Emits first x) (hy : Emits second y) :
    Emits (do first; second) (do return (← x) ++ (← y)) := by
  cases x with
  | error e =>
    intro sink
    obtain ⟨pushed, hpushed⟩ := hx sink
    exact ⟨pushed, by rw [EStateM.run_bind, hpushed]⟩
  | ok bits =>
    have hrun (sink : σ) : EStateM.run (do first; second) sink = second.run (bits.foldl BitSink.push sink) := by
      rw [EStateM.run_bind, hx sink]
    cases y with
    | error e =>
      intro sink
      obtain ⟨pushed, hpushed⟩ := hy (bits.foldl BitSink.push sink)
      exact ⟨bits ++ pushed, by rw [hrun, hpushed, List.foldl_append]⟩
    | ok rest =>
      intro sink
      rw [hrun, hy, List.foldl_append]

theorem forM {f : Value → EStateM Fault σ Unit} {g : Value → Except Fault Bits} (h : ∀ v, Emits (f v) (g v))
    (vs : List Value) : Emits (vs.forM f) (do return (← vs.mapM g).flatten) := by
  induction vs with
  | nil => exact nothing
  | cons v vs ih =>
    have hcons := (h v).seq ih
    rw [List.mapM_cons]
    simpa using hcons

end Emits

namespace Layout

mutual

/-- Pushing the bits of a value one by one comes to the same as encoding it whole. -/
theorem emit_emits : ∀ (l : Layout) (v : Value), Emits (σ := σ) (l.emit v) (l.encode v)
  | .unit, .unit => .nothing
  | .bitset width, v => by
    rw [emit, encode]
    cases encodeBitset width v with
    | ok bits => exact .pushAll bits
    | error e => exact .fault e
  | .array element, .tuple vs => by
    have h := (Emits.pushAll (countBits vs.length)).seq (.forM (emit_emits element) vs)
    rw [emit, encode]
    cases hparts : vs.mapM (encode element) with
    | ok parts => rwa [hparts] at h
    | error e => rwa [hparts] at h
  | .tuple ls, .tuple vs => by
    rw [emit, encode]
    split
    next => exact emitEach_emits ls vs
    next => exact .fault _
  | .variant ls, .variant v => by
    rw [emit, encode]
    cases encodeFirst ls v with
    | some bits => exact .pushAll bits
    | none => exact .fault _
  | .unit, .bit _ | .unit, .tuple _ | .unit, .variant _ | .unit, .closure _ _
  | .array _, .unit | .array _, .bit _ | .array _, .variant _ | .array _, .closure _ _
  | .tuple _, .unit | .tuple _, .bit _ | .tuple _, .variant _ | .tuple _, .closure _ _
  | .variant _, .unit | .variant _, .bit _ | .variant _, .tuple _ | .variant _, .closure _ _ => .fault _

theorem emitEach_emits : ∀ (ls : List Layout) (vs : List Value), Emits (σ := σ) (emitEach ls vs) (encodeEach ls vs)
  | l :: ls, v :: vs => (emit_emits l v).seq (emitEach_emits ls vs)
  | [], _ => .nothing
  | _ :: _, [] => .nothing

end

theorem emitRoot_emits (l : Layout) (root : Value) : Emits (σ := σ) (l.emitRoot root) (l.encodeRoot root) := by
  cases l with
  | array element => exact emit_emits (.array element) root
  | unit | tuple | bitset | variant => exact (Emits.pushAll (countBits 1)).seq (emit_emits _ root)

end Layout

theorem Value.serialize_emits (v : Value) :
    Emits (σ := σ) (v.serialize.adaptExcept .value) (v.toBits.mapError .value) := by
  have hrun (sink : σ) : (v.serialize.adaptExcept Fault.value).run sink =
      if v.containsClosure then .error (.value .unserializable) (v.leaves.foldl BitSink.push sink)
      else .ok () (v.leaves.foldl BitSink.push sink) := by
    have hserialize := v.serialize_run sink
    rw [EStateM.run] at hserialize
    rw [EStateM.run, EStateM.adaptExcept, hserialize]
    cases v.containsClosure <;> rfl
  rw [toBits_eq]
  cases hv : v.containsClosure with
  | true => exact fun sink => ⟨v.leaves, by rw [hrun, hv]; rfl⟩
  | false => exact fun sink => by rw [hrun, hv]; rfl

end Emission

end BitStore
