/-
# Where the sections of a file lie

After the header of a file come, each at a multiple of the block size: for a
split file the region's bitset and the region's blocks, then the bitset, the
reserve, and the blocks. A bitset has its length in front, a word of four
bytes. Offsets are words of 64 bits.

Key definitions: `Layout`, `Layout.ofHeader`, `Layout.initialLength`.
-/
import PagedMap.Bitset
import PagedMap.Header

namespace PagedMap

/-- The offsets of a file's sections. Those of the region are zero in a plain
file. -/
structure Layout where
  regionBitset : UInt64
  regionBlocks : UInt64
  bitset : UInt64
  reserve : UInt64
  blocks : UInt64
  deriving Repr, DecidableEq

namespace Layout

/-- The length of the word in front of a bitset. -/
def bitsetLengthSize : Nat := 4

/-- The least multiple of `unit` that is not below `offset`. -/
def alignUp (unit offset : UInt64) : UInt64 :=
  (if offset % unit = 0 then offset / unit else offset / unit + 1) * unit

/-- The length of a bitset with the word in front of it. -/
def bitsetSpan (blocks : Nat) : UInt64 :=
  UInt64.ofNat (bitsetLengthSize + Bitset.byteLength blocks)

/-- The sections of a file with the given header. A block size of zero divides
nothing. -/
def ofHeader (h : Header) : Except Error Layout :=
  if h.blockSize = 0 then .error .fault
  else
    let up := alignUp (UInt64.ofNat h.blockSize)
    let first := up (UInt64.ofNat h.encodedLength)
    let (regionBitset, regionBlocks, bitset) :=
      match h.region? with
      | some r =>
        let blocks := up (first + bitsetSpan r.maxBlocks)
        (first, blocks, up (blocks + UInt64.ofNat r.maxBlocks * UInt64.ofNat r.blockSize))
      | none => (0, 0, first)
    let reserve := up (bitset + bitsetSpan h.maxBlocks)
    let blocks := up (reserve + UInt64.ofNat h.reserveSize)
    .ok ⟨regionBitset, regionBlocks, bitset, reserve, blocks⟩

/-- The length of a file that has no blocks yet. -/
def initialLength (l : Layout) : UInt64 := l.blocks

end Layout

end PagedMap
