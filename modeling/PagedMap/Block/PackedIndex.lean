/-
# Index blocks in memory

In memory the child to the left of a separator is the last four bytes of the separator's entry,
and the child after the last separator is the block's pointer. Replacing a child overwrites these
bytes where they are. Separators are put in and taken out like any entries, and then the child
at one position is set right. When a block is cut in two, the separator between the halves is
taken out of the lower one, which keeps its child as the pointer.

Key definitions: `PackedIndex.child`, `PackedIndex.setChild`, `PackedIndex.insertSeparator`,
`PackedIndex.removeSeparator`, `PackedIndex.replaceSeparator`, `PackedIndex.promote`.
-/
import PagedMap.Block.Index
import PagedMap.Block.Packed

namespace PagedMap

/-- A block of separators in memory, each with the child to its left. -/
abbrev PackedIndex {κ : Type} (K : OrderedCodec κ) := Packed K word32.toCodec

namespace PackedIndex

variable {κ : Type} {K : OrderedCodec κ}

/-- The key at an index. -/
def key (p : PackedIndex K) (i : Nat) : Except Error κ := do
  let e ← p.entry i
  Block.readKey K e

/-- The child at a position. -/
def child (p : PackedIndex K) (i : Nat) : Except Error BlockNumber :=
  if i < p.length then do
    let e ← p.entry i
    Block.readPayload K word32.toCodec e
  else if i = p.length then .ok p.last
  else .error (.internal (.childRange i p.length))

/-- All children in order. -/
def children (p : PackedIndex K) : Except Error (List BlockNumber) :=
  (List.range (p.length + 1)).mapM (child p)

/-- Overwrites the bytes in front of an offset. -/
def overwrite (p : PackedIndex K) (stop : Nat) (word : Bytes) : PackedIndex K :=
  { p with data := p.data.take (stop - word.length) ++ word ++ p.data.drop stop }

/-- Replaces the child at a position. -/
def setChild (i : Nat) (block : BlockNumber) : Action (PackedIndex K) Unit := do
  let p ← get
  if i < p.length then set (overwrite p (p.start (i + 1)) (Bytes.ofWord block))
  else if i = p.length then set ({ p with last := block } : PackedIndex K)
  else throw (.internal .childPosition)

/-- Puts a separator between `left`, the child where the key belongs, and
`right`, which comes after it. -/
def insertSeparator (key : Bytes) (left right : BlockNumber) : Action (PackedIndex K) Nat := do
  let i ← Packed.insertOverfull (Index.separatorEntry key left)
  setChild (i + 1) right
  return i

/-- Takes out a separator and the child to its right, which is given. -/
def removeSeparator (i : Nat) : Action (PackedIndex K) BlockNumber := do
  let p ← get
  let left ← child p i
  let right ← child p (i + 1)
  let _ ← Packed.removeAt i
  setChild i left
  return right

/-- Replaces the key of a separator, whether or not the new one fits. -/
def replaceSeparator (i : Nat) (key : Bytes) : Action (PackedIndex K) Unit := do
  let p ← get
  let left ← child p i
  let _ ← Packed.removeAt i
  modify fun p => p.insertIdx i (Index.separatorEntry key left)

/-! ### Cutting a block in two -/

/-- The difference in bytes of the separators before and after a position. -/
def imbalance (p : PackedIndex K) (i : Nat) : Nat :=
  Block.gap (p.start i - Block.headerSize)
    (p.entryBytes - (p.start (i + 1) - Block.headerSize))

/-- The better of two positions; the first if they are equally good. -/
def moreBalanced (p : PackedIndex K) (i j : Nat) : Nat :=
  if imbalance p j < imbalance p i then j else i

/-- The separator that moves up when the block is split: not the first, not the last, and the
first of those that leave the halves most alike. -/
def promoted (p : PackedIndex K) : Nat :=
  (List.range' 2 (p.length - 3)).foldl (moreBalanced p) 1

/-- Keeps the separators below the promoted one, and gives its key and a block of those
above it. -/
def promote : Action (PackedIndex K) (Bytes × PackedIndex K) := do
  let p ← get
  if p.length < 3 then throw (.internal .promoteTooFew)
  let i := promoted p
  let (lower, upper) := p.splitOff (i + 1)
  let upper : PackedIndex K := { upper with last := p.last }
  set lower
  let e ← lower.entry i
  let left ← Block.readPayload K word32.toCodec e
  let key ← Block.keyOf K e
  let _ ← Packed.removeAt i
  let rest ← get
  let lower : PackedIndex K := { rest with last := left }
  set lower
  if lower.isOverflowed || upper.isOverflowed then throw (.internal .promoteTooLarge)
  return (key, upper)

end PackedIndex

end PagedMap
