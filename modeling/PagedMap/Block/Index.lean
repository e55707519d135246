/-
# Index blocks

An index block with `n` separators has `n + 1` children. The child to the left
of a separator is the payload of the separator's entry; the child after the
last separator is the block's pointer. Putting a separator in splits a child in
two, taking one out joins two children into the left one.

Key definitions: `Index.child`, `Index.setChild`, `Index.insertSeparator`,
`Index.removeSeparator`, `Index.replaceSeparator`, `Index.promote`.
-/
import PagedMap.Block.Search
import PagedMap.Block.Split

namespace PagedMap.Index

variable {κ : Type} {K : OrderedCodec κ}

/-- An index block without separators. -/
def empty (K : OrderedCodec κ) (capacity : Nat) : Index K := Block.empty K word32.toCodec capacity

/-- The entry of a separator with an encoded key and the child to its left. -/
def separatorEntry (key : Bytes) (left : BlockNumber) : Bytes := key ++ Bytes.ofWord left

/-- The child at a position. -/
def child (b : Index K) (i : Nat) : Except Error BlockNumber :=
  if i < b.length then b.payload i
  else if i = b.length then .ok b.last
  else .error (.internal (.childRange i b.length))

/-- All children in order. -/
def children (b : Index K) : Except Error (List BlockNumber) := do
  let before ← b.entries.mapM (Block.readPayload K word32.toCodec)
  return before ++ [b.last]

/-- Overwrites the end of the entries, given with the last first. A word that is
longer than the last entry goes on into those before it. -/
def overwriteEnd (word : Bytes) : List Bytes → List Bytes
  | [] => []
  | e :: entries =>
    if word.length ≤ e.length then (e.take (e.length - word.length) ++ word) :: entries
    else
      word.drop (word.length - e.length) ::
        overwriteEnd (word.take (word.length - e.length)) entries

/-- Replaces the child at a position. -/
def setChild (b : Index K) (i : Nat) (block : BlockNumber) : Except Error (Index K) :=
  if i < b.length then
    let before := overwriteEnd (Bytes.ofWord block) (b.entries.take (i + 1)).reverse
    .ok { b with entries := before.reverse ++ b.entries.drop (i + 1) }
  else if i = b.length then .ok { b with last := block }
  else .error (.internal .childPosition)

/-- Puts a separator between `left`, the child where the key belongs, and
`right`, which comes after it. -/
def insertSeparator (b : Index K) (key : Bytes) (left right : BlockNumber) :
    Except Error (Nat × Index K) := do
  let (i, b) ← Block.insertOverfull b (separatorEntry key left)
  let b ← setChild b (i + 1) right
  return (i, b)

/-- Takes out a separator and the child to its right, which is given. -/
def removeSeparator (b : Index K) (i : Nat) : Except Error (BlockNumber × Index K) := do
  let left ← child b i
  let right ← child b (i + 1)
  let (_, b) ← Block.removeAt b i
  let b ← setChild b i left
  return (right, b)

/-- Replaces the key of a separator, whether or not the new one fits. -/
def replaceSeparator (b : Index K) (i : Nat) (key : Bytes) : Except Error (Index K) := do
  let left ← child b i
  let (_, b) ← Block.removeAt b i
  return Block.insertIdx b i (separatorEntry key left)

/-- The number of bytes of the separators before a position. -/
def bytesBefore (b : Index K) (i : Nat) : Nat := Block.mass (b.entries.take i)

/-- The difference in bytes of the separators before and after a position. -/
def imbalance (b : Index K) (i : Nat) : Nat :=
  Block.gap (bytesBefore b i) (b.entryBytes - bytesBefore b (i + 1))

/-- The better of two positions; the first if they are equally good. -/
def moreBalanced (b : Index K) (i j : Nat) : Nat :=
  if imbalance b j < imbalance b i then j else i

/-- The separator that moves up when the block is split: not the first, not the
last, and the first of those that leave the halves most alike. -/
def promoted (b : Index K) : Nat :=
  (List.range' 2 (b.length - 3)).foldl (moreBalanced b) 1

/-- Keeps the separators below the promoted one, and gives its key and a block
of those above it. A block whose halves do not both fit is cut all the same. -/
def promote : Action (Index K) (Bytes × Index K) := do
  let b ← get
  if b.length < 3 then throw (.internal .promoteTooFew)
  let i := promoted b
  let (lower, upper) := b.splitAt (i + 1)
  let upper : Index K := { upper with last := b.last }
  set lower
  let left ← Block.payload lower i
  let key ← Block.keyBytes lower i
  let (_, lower) ← Block.removeAt lower i
  let lower : Index K := { lower with last := left }
  set lower
  if lower.isOverflowed || upper.isOverflowed then throw (.internal .promoteTooLarge)
  return (key, upper)

end PagedMap.Index
