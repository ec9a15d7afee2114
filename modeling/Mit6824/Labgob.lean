import Mathlib.Logic.Encodable.Basic

/-!
Coded values (`labgob`): the bytes a value is stored or sent as.

What is used of the coder is that decoding undoes encoding and that no value has an empty code.
-/

namespace Mit6824.Labgob

abbrev Bytes := List UInt8

class Coded (α : Type) where
  encode : α → Bytes
  decode : Bytes → Option α
  decode_encode : ∀ x, decode (encode x) = some x
  encode_ne_nil : ∀ x, encode x ≠ []

export Coded (encode decode decode_encode encode_ne_nil)

attribute [simp] decode_encode encode_ne_nil

/-- A coder for values that can be numbered, one byte for each unit of the number. -/
instance (priority := low) ofEncodable {α : Type} [Encodable α] : Coded α where
  encode := fun x => List.replicate (Encodable.encode x + 1) 0
  decode := fun bs => Encodable.decode (bs.length - 1)
  decode_encode := fun x => by simp
  encode_ne_nil := fun x => by simp

end Mit6824.Labgob
