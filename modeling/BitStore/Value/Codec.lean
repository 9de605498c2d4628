import BitStore.Bits.Packer
import BitStore.Bits.Source
import BitStore.Schema.Basic
import BitStore.Value.Basic
import BitStore.Value.CodecError

/-! Values as plain bits. A unit has no bits, a bit is itself, a tuple is its
elements end to end, a variant its content alone. So the reader has to know the
schema, and reads only what units, bits and tuples make up. Both directions keep
their place when they fail: a sink holds the bits written before the failure and
a source stands where reading stopped. -/

namespace BitStore

/-! ### Writing -/

namespace Value

section Serialize

variable {σ : Type} [BitSink σ]

mutual

/-- Appends the bits of a value to a sink. -/
def serialize : Value → EStateM CodecError σ Unit
  | .unit => pure ()
  | .bit b => modify (BitSink.push · b)
  | .tuple elements => serializeAll elements
  | .variant content => serialize content
  | .closure _ _ => throw .unserializable

def serializeAll : List Value → EStateM CodecError σ Unit
  | [] => pure ()
  | v :: vs => do
    serialize v
    serializeAll vs

end

/-- What the sink holds after writing, if nothing failed. -/
def serializeInto (start : σ) (v : Value) : Except CodecError σ :=
  match v.serialize.run start with
  | .ok _ sink => .ok sink
  | .error e _ => .error e

end Serialize

def toBits (v : Value) : Except CodecError Bits :=
  (v.serializeInto (#[] : Array Bool)).map Array.toList

/-- The bits packed into bytes, the last one filled up with zeros. -/
def toBytes (v : Value) : Except CodecError (List UInt8) :=
  (v.serializeInto (BitPacker.onto #[])).map fun packer => packer.finish.toList

end Value

/-! ### Reading -/

section Deserialize

variable {σ : Type} [BitSource σ]

/-- The next bit, or `none` once the source is dry. -/
def BitSource.read : EStateM CodecError σ (Option Bool) := do
  match BitSource.next? (← get) with
  | none => return none
  | some (b, rest) =>
    set rest
    return some b

namespace Schema

mutual

/-- Reads a value of the schema, or `none` if the bits run out first. -/
def decode : Schema → EStateM CodecError σ (Option Value)
  | .unit => return some .unit
  | .bit => return (← BitSource.read).map .bit
  | .tuple elements => return (← decodeAll elements).map .tuple
  | .variant _ => throw (.undecodable .variant)
  | .array _ => throw (.undecodable .array)
  | .function => throw (.undecodable .function)

def decodeAll : List Schema → EStateM CodecError σ (Option (List Value))
  | [] => return some []
  | s :: ss => do
    match ← decode s with
    | none => return none
    | some v => return (← decodeAll ss).map (v :: ·)

end

end Schema

end Deserialize

end BitStore
