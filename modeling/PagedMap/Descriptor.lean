/-
# The descriptor of a tree

The reserve of a store begins with the descriptor of its tree: the root's block
number, the depth of the index levels (-1 if the root is a leaf), the number of
entries, a word whose lowest bit says that the descriptor was written, and the
checksum of these sixteen bytes. All are words with the most significant byte
first. A reserve that was never written holds no descriptor.

Key definitions: `Descriptor`, `Descriptor.encode`, `Descriptor.decode`.
-/
import PagedMap.Checksum
import PagedMap.Error

namespace PagedMap

/-- Where a tree's root is, and how deep and large the tree is. -/
structure Descriptor where
  /-- The root: a leaf if `leafLevel` is -1, otherwise an index block. -/
  root : BlockNumber
  /-- The depth of the lowest index blocks; -1 if there are none. -/
  leafLevel : Int
  /-- The number of entries. Where a damaged store records fewer entries than it
  holds, removing them takes the number below zero. -/
  size : Int
  deriving Repr, DecidableEq

namespace Descriptor

/-- The descriptor of a tree that is a single empty leaf. -/
def empty (root : BlockNumber) : Descriptor := ⟨root, -1, 0⟩

/-- The number of entries as a word of 64 bits. -/
def length (d : Descriptor) : Nat :=
  if 0 ≤ d.size then d.size.toNat else (d.size + UInt64.size).toNat

/-- The number of index levels above the leaves. -/
def indexLevels (d : Descriptor) : Nat := (d.leafLevel + 1).toNat

/-- The word that marks a written descriptor. -/
def writtenMark : Nat := 1

/-- The bytes before the checksum. -/
def fields (d : Descriptor) : Bytes :=
  Bytes.ofWord d.root ++ Bytes.ofInt32 d.leafLevel ++ Bytes.ofNat 4 d.length ++
    Bytes.ofNat 4 writtenMark

/-- The written form. Root and size must fit into signed words. -/
def encode (d : Descriptor) : Except Error Bytes :=
  if maxInt32 < d.root.toNat then .error (.internal (.rootNumber d.root))
  else if maxInt32 < d.length then .error (.invalidState (.treeTooLarge d.length))
  else .ok (d.fields ++ Bytes.ofWord (Checksum.ofBytes d.fields))

/-- The descriptor at the beginning of a reserve, if one was written. -/
def decode (bs : Bytes) : Except Error (Option Descriptor) :=
  if bs.length < descriptorSize then .error (.corruption (.reserveTooShort bs.length))
  else
    let root := Bytes.toInt32 bs
    let leafLevel := Bytes.toInt32 (bs.drop 4)
    let size := Bytes.toInt32 (bs.drop 8)
    let mark := Bytes.toWord (bs.drop 12)
    let stored := Bytes.toWord (bs.drop 16)
    let computed := Checksum.ofBytes (bs.take 16)
    if mark &&& 1 = 0 then .ok none
    else if computed ≠ stored then .error (.checksumMismatch stored computed)
    else if root < 0 ∨ leafLevel < -1 ∨ size < 0 then
      .error (.corruption (.invalidDescriptor root leafLevel size))
    else .ok (some ⟨UInt32.ofNat root.toNat, leafLevel, size⟩)

end Descriptor

end PagedMap
