import BitStore.Kind

/-! What can go wrong between values and bits. -/

namespace BitStore

inductive CodecError where
  /-- Closures have no bits. -/
  | unserializable
  /-- A tuple of this length is no number of at most `width` bits. -/
  | notAnInteger (length width : Nat)
  /-- Bits alone do not tell how to read this kind. -/
  | undecodable (kind : Kind)
  deriving DecidableEq

def CodecError.message : CodecError → String
  | .unserializable =>
    "A closure value cannot be serialized. Only unit, bit, tuple and variant values have a bit representation."
  | .notAnInteger length width =>
    "The tuple is not an unsigned integer: it holds " ++ toString length ++ " elements for a width of " ++
      toString width ++ " bits, or contains a non-bit element."
  | .undecodable kind =>
    "A `" ++ kind.name ++ "` value cannot be decoded from a plain bit stream without layout information."

end BitStore
