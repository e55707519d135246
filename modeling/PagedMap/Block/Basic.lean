/-
# Blocks of sorted entries

A block holds entries in ascending order of their keys. An entry is an encoded
key followed by an encoded payload. The written form is the number of entries
and a pointer, two words, and then the entries one after the other; where one
entry ends is not written but found again by asking the codecs. In an index
block the pointer is the child after the last separator.

Key definitions: `Block`, `Block.ofBytes`, `Block.toBytes`, `Block.occupied`,
`Block.key`, `Block.payload`.
-/
import PagedMap.Codec.Word

namespace PagedMap

/-- A block of entries whose keys and payloads are written by the given codecs.
Between an insertion and a split it may hold more bytes than its capacity. -/
structure Block {κ π : Type} (K : OrderedCodec κ) (P : Codec π) where
  /-- The size of the block on disk, in bytes. -/
  capacity : Nat
  /-- The encoded entries. -/
  entries : List Bytes
  /-- The child after the last separator; no block in a leaf. -/
  last : BlockNumber
  deriving Repr, DecidableEq

/-- A block of keys and values. -/
abbrev Leaf {κ ν : Type} (K : OrderedCodec κ) (V : Codec ν) := Block K V

/-- A block of separators, each with the child to its left. -/
abbrev Index {κ : Type} (K : OrderedCodec κ) := Block K word32.toCodec

namespace Block

variable {κ π : Type} {K : OrderedCodec κ} {P : Codec π}

/-- The length of the two words before the entries. -/
def headerSize : Nat := 8

/-- A block without entries. -/
def empty (K : OrderedCodec κ) (P : Codec π) (capacity : Nat) : Block K P := ⟨capacity, [], noBlock⟩

/-- The number of entries. -/
def length (b : Block K P) : Nat := b.entries.length

/-- Whether the block has no entries. -/
def isEmpty (b : Block K P) : Bool := b.entries.isEmpty

/-- The number of bytes of entries. -/
def mass : List Bytes → Nat
  | [] => 0
  | e :: es => e.length + mass es

/-- The number of bytes of the entries. -/
def entryBytes (b : Block K P) : Nat := mass b.entries

/-- The number of bytes of the written form. -/
def occupied (b : Block K P) : Nat := headerSize + b.entryBytes

/-- The number of bytes left. -/
def freeSpace (b : Block K P) : Nat := b.capacity - b.occupied

/-- Whether the block is at most half full. -/
def isUnderflowed (b : Block K P) : Bool := b.occupied ≤ b.capacity / 2

/-- Whether the written form is longer than the block on disk. -/
def isOverflowed (b : Block K P) : Bool := b.capacity < b.occupied

/-- Whether an entry can be added. -/
def fits (b : Block K P) (entry : Bytes) : Bool := b.occupied + entry.length ≤ b.capacity

/-- An empty block of the same capacity. -/
def cleared (b : Block K P) : Block K P := empty K P b.capacity

/-- The written form. The store fills it up to the size of the block. -/
def toBytes (b : Block K P) : Bytes :=
  Bytes.ofNat 4 b.length ++ Bytes.ofWord b.last ++ b.entries.flatten

/-- Cuts `n` entries off the bytes at `offset`, of which the first is number
`index` of `count`. Gives the entries and the offset after them. -/
def readEntries (K : OrderedCodec κ) (P : Codec π) (count : Nat) :
    Nat → Nat → Nat → Bytes → Except Error (List Bytes × Nat)
  | 0, _, offset, _ => .ok ([], offset)
  | n + 1, index, offset, rest => do
    if rest.isEmpty then throw (.corruption (.blockEnds index count))
    let k ← K.sizeAt rest
    let p ← P.sizeAt (rest.drop k)
    let (entries, stop) ← readEntries K P count n (index + 1) (offset + (k + p)) (rest.drop (k + p))
    return (rest.take (k + p) :: entries, stop)

/-- Reads a block from bytes, which may go on after the written form. -/
def ofBytes (K : OrderedCodec κ) (P : Codec π) (bs : Bytes) (capacity : Nat) :
    Except Error (Block K P) := do
  if bs.length < headerSize then throw (.corruption .blockTooSmall)
  let count := (Bytes.toWord bs).toNat
  let last := Bytes.toWord (bs.drop 4)
  let (entries, stop) ← readEntries K P count count 0 headerSize (bs.drop headerSize)
  if capacity < stop ∨ bs.length < stop then throw (.corruption (.entriesSpan stop capacity))
  return ⟨capacity, entries, last⟩

/-- The length of the key that an entry begins with. -/
def keyLength (K : OrderedCodec κ) (entry : Bytes) : Except Error Nat :=
  match K.fixedSize? with
  | some n => .ok n
  | none => K.sizeAt entry

/-- The encoded key and the encoded payload of an entry. -/
def cutEntry (K : OrderedCodec κ) (entry : Bytes) : Except Error (Bytes × Bytes) := do
  let n ← keyLength K entry
  if n ≤ entry.length then return (entry.take n, entry.drop n) else throw .fault

/-- The encoded key of an entry. -/
def keyOf (K : OrderedCodec κ) (entry : Bytes) : Except Error Bytes :=
  (cutEntry K entry).map Prod.fst

/-- The encoded payload of an entry. -/
def payloadOf (K : OrderedCodec κ) (entry : Bytes) : Except Error Bytes :=
  (cutEntry K entry).map Prod.snd

/-- The key of an entry. -/
def readKey (K : OrderedCodec κ) (entry : Bytes) : Except Error κ := do
  let k ← keyOf K entry
  K.decode k

/-- The payload of an entry. -/
def readPayload (K : OrderedCodec κ) (P : Codec π) (entry : Bytes) : Except Error π := do
  let p ← payloadOf K entry
  P.decode p

/-- The key and the payload of an entry. -/
def readItem (K : OrderedCodec κ) (P : Codec π) (entry : Bytes) : Except Error (κ × π) := do
  let k ← readKey K entry
  let p ← readPayload K P entry
  return (k, p)

/-- The encoded entry at an index. -/
def entry (b : Block K P) (i : Nat) : Except Error Bytes :=
  match b.entries[i]? with
  | some e => .ok e
  | none => .error .fault

/-- The encoded key at an index. -/
def keyBytes (b : Block K P) (i : Nat) : Except Error Bytes := do
  let e ← b.entry i
  keyOf K e

/-- The encoded payload at an index. -/
def payloadBytes (b : Block K P) (i : Nat) : Except Error Bytes := do
  let e ← b.entry i
  payloadOf K e

/-- The key at an index. -/
def key (b : Block K P) (i : Nat) : Except Error κ := do
  let e ← b.entry i
  readKey K e

/-- The payload at an index. -/
def payload (b : Block K P) (i : Nat) : Except Error π := do
  let e ← b.entry i
  readPayload K P e

/-- The key and the payload at an index. -/
def item (b : Block K P) (i : Nat) : Except Error (κ × π) := do
  let e ← b.entry i
  readItem K P e

/-- All keys and payloads in order; what cannot be read is an error in its
place. -/
def items (b : Block K P) : List (Except Error (κ × π)) := b.entries.map (readItem K P)

/-- The smallest key. -/
def firstKey? (b : Block K P) : Except Error (Option κ) :=
  if b.isEmpty then .ok none else (b.key 0).map some

/-- The largest key. -/
def lastKey? (b : Block K P) : Except Error (Option κ) :=
  if b.isEmpty then .ok none else (b.key (b.length - 1)).map some

/-- The encoded keys in order. -/
def keys (b : Block K P) : Except Error (List Bytes) := b.entries.mapM (keyOf K)

/-- The entry of a key and a payload. -/
def encodeEntry (K : OrderedCodec κ) (P : Codec π) (key : κ) (payload : π) :
    Except Error Bytes := do
  let k ← K.encode key
  let p ← P.encode payload
  return k ++ p

end Block

end PagedMap
