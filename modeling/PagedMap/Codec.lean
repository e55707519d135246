/-
# Codecs

A codec turns the items of one type into byte strings and back. A byte string
that begins with an encoded item may go on with anything: the codec finds the
item's length by itself. An ordered codec, as keys need it, also compares items,
may compare encoded items without decoding them, and may shorten the key that is
put between two neighbouring blocks.

Key definitions: `Codec`, `OrderedCodec`, `OrderedCodec.compareEncoded`.
-/
import PagedMap.Error

namespace PagedMap

/-- How the items of a type are written and read. -/
structure Codec (α : Type) where
  /-- The number of bytes of an item's encoding. -/
  size : α → Nat
  /-- The length of the encoding that the bytes begin with. -/
  sizeAt : Bytes → Except Error Nat
  /-- The encoding of an item. -/
  encode : α → Except Error Bytes
  /-- The item whose encoding the bytes begin with. -/
  decode : Bytes → Except Error α
  /-- The length that all encodings share, if it is promised that they do. -/
  fixedSize? : Option Nat := none

/-- How keys are written, read, ordered and separated. -/
structure OrderedCodec (α : Type) extends Codec α where
  /-- The order of keys. -/
  compare : α → α → Ordering
  /-- The order of the keys that two byte strings begin with, where it can be
  told without decoding them. -/
  compareBytes? : Bytes → Bytes → Option Ordering := fun _ _ => none
  /-- The encoding of a key above the first encoded key and not above the
  second. -/
  separate : Bytes → Bytes → Except Error Bytes := fun _ high => .ok high

/-- The order of the keys that two byte strings begin with. Keys are decoded
only where the bytes do not tell their order. -/
def OrderedCodec.compareEncoded {α : Type} (K : OrderedCodec α) (a b : Bytes) :
    Except Error Ordering :=
  match K.compareBytes? a b with
  | some o => .ok o
  | none => do
    let x ← K.decode a
    let y ← K.decode b
    return K.compare x y

end PagedMap
