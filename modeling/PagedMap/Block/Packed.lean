/-
# Blocks in memory

In memory a block is one byte string: eight bytes for the words of its written form, and then
the entries one after the other. A table beside it has where each entry begins; it ends where
the next one begins, or where the bytes end. Putting an entry in opens a gap in the bytes and
moves the beginnings behind it by its length, taking one out closes the gap; an operation on the
entries that fails leaves the block as it was. A block is cut in two where an entry begins; if
the halves do not both fit it has been cut all the same.

Key definitions: `Packed`, `Packed.slice`, `Packed.unpack`, `Packed.ofBytes`,
`Packed.insertIdx`, `Packed.insert`, `Packed.removeAt`, `Packed.delete`, `Packed.merge`,
`Packed.splitOff`, `Packed.split`.
-/
import PagedMap.Block.Search
import PagedMap.Block.Split

namespace PagedMap

/-- A block as the bytes of its entries and a table of where these begin. -/
structure Packed {κ π : Type} (K : OrderedCodec κ) (P : Codec π) where
  /-- The size of the block on disk, in bytes. -/
  capacity : Nat
  /-- Room for the two words before the entries, and the entries. -/
  data : Bytes
  /-- Where each entry begins in the data. -/
  starts : List Nat
  /-- The child after the last separator; no block in a leaf. -/
  last : BlockNumber
  deriving Repr, DecidableEq

namespace Packed

open Block (headerSize)

variable {κ π : Type} {K : OrderedCodec κ} {P : Codec π}

/-- A block without entries. -/
def empty (K : OrderedCodec κ) (P : Codec π) (capacity : Nat) : Packed K P :=
  ⟨capacity, List.replicate headerSize 0, [], noBlock⟩

/-- The number of entries. -/
def length (p : Packed K P) : Nat := p.starts.length

/-- The number of bytes in use. -/
def occupied (p : Packed K P) : Nat := p.data.length

/-- The number of bytes left. -/
def freeSpace (p : Packed K P) : Nat := p.capacity - p.occupied

/-- The number of bytes of the entries. -/
def entryBytes (p : Packed K P) : Nat := p.occupied - headerSize

/-- Whether the written form is longer than the block on disk. -/
def isOverflowed (p : Packed K P) : Bool := p.capacity < p.occupied

/-- Whether an entry can be added. -/
def fits (p : Packed K P) (entry : Bytes) : Bool := p.occupied + entry.length ≤ p.capacity

/-- Where the entry at an index begins; the end of the data if there is none. -/
def start (p : Packed K P) (i : Nat) : Nat := p.starts.getD i p.data.length

/-- The bytes from where the entry at an index begins to where the next one does. -/
def slice (p : Packed K P) (i : Nat) : Bytes := (p.data.take (p.start (i + 1))).drop (p.start i)

/-- The encoded entry at an index. -/
def entry (p : Packed K P) (i : Nat) : Except Error Bytes :=
  if i < p.length then .ok (p.slice i) else .error .fault

/-- The entries that the table tells apart. -/
def unpack (p : Packed K P) : Block K P :=
  ⟨p.capacity, (List.range p.length).map p.slice, p.last⟩

/-! ### The written form -/

/-- The written form. -/
def toBytes (p : Packed K P) : Bytes :=
  Bytes.ofNat 4 p.length ++ Bytes.ofWord p.last ++ p.data.drop headerSize

/-- Finds out where `n` entries begin, of which the first is number `index` of `count` and
begins at `offset`. Gives the offset after them, too. -/
def readStarts (K : OrderedCodec κ) (P : Codec π) (bs : Bytes) (count : Nat) :
    Nat → Nat → Nat → Except Error (List Nat × Nat)
  | 0, _, offset => .ok ([], offset)
  | n + 1, index, offset => do
    let rest := bs.drop offset
    if rest.isEmpty then throw (.corruption (.blockEnds index count))
    let k ← K.sizeAt rest
    let p ← P.sizeAt (rest.drop k)
    let (starts, stop) ← readStarts K P bs count n (index + 1) (offset + (k + p))
    return (offset :: starts, stop)

/-- Reads a block from bytes, which may go on after the written form. The entries are found
first; whether they lie within the bytes is looked at in the end. -/
def ofBytes (K : OrderedCodec κ) (P : Codec π) (bs : Bytes) (capacity : Nat) :
    Except Error (Packed K P) := do
  if bs.length < headerSize then throw (.corruption .blockTooSmall)
  let count := (Bytes.toWord bs).toNat
  let last := Bytes.toWord (bs.drop 4)
  let (starts, stop) ← readStarts K P bs count count 0 headerSize
  if capacity < stop ∨ bs.length < stop then throw (.corruption (.entriesSpan stop capacity))
  return ⟨capacity, bs.take stop, starts, last⟩

/-! ### Changing the entries -/

/-- Opens a gap where the entry at an index begins and puts an entry into it. -/
def insertIdx (p : Packed K P) (i : Nat) (entry : Bytes) : Packed K P :=
  { p with
    data := p.data.take (p.start i) ++ entry ++ p.data.drop (p.start i)
    starts := p.starts.take i ++ p.start i :: (p.starts.drop i).map (· + entry.length) }

/-- Closes the gap from where the entry at an index begins to where the next one does. -/
def eraseIdx (p : Packed K P) (i : Nat) : Packed K P :=
  { p with
    data := p.data.take (p.start i) ++ p.data.drop (p.start (i + 1))
    starts := p.starts.take i ++
      (p.starts.drop (i + 1)).map (· - (p.start (i + 1) - p.start i)) }

/-- The bytes of two blocks one after the other, with the pointer of the second. -/
def append (p other : Packed K P) : Packed K P :=
  { p with
    data := p.data ++ other.data.drop headerSize
    starts := p.starts ++ other.starts.map (· - headerSize + p.data.length)
    last := other.last }

/-- Searches for a key. -/
def search (p : Packed K P) (key : κ) : Except Error Place := p.unpack.search key

/-- Puts an entry in by its key, whether or not it fits. -/
def insertOverfull (entry : Bytes) : Action (Packed K P) Nat := do
  let p ← get
  let (k, _) ← Block.cutEntry K entry
  match ← p.unpack.searchBytes k with
  | .found _ => throw (.invalidArgument .duplicateKey)
  | .absent i =>
    set (p.insertIdx i entry)
    return i

/-- Puts an entry in by its key, if it fits. -/
def insert (entry : Bytes) : Action (Packed K P) Nat := do
  let p ← get
  if p.fits entry then insertOverfull entry
  else throw (.invalidState (.entryDoesNotFit entry.length p.freeSpace))

/-- Takes the entry at an index out. -/
def removeAt (i : Nat) : Action (Packed K P) Bytes := do
  let p ← get
  let e ← p.entry i
  set (p.eraseIdx i)
  return e

/-- Takes the entry of a key out, if there is one. -/
def delete (key : κ) : Action (Packed K P) (Option Bytes) := do
  let p ← get
  match ← p.search key with
  | .found i =>
    let e ← removeAt i
    return some e
  | .absent _ => return none

/-- Whether the entries of another block and `extra` bytes can be added. -/
def canMerge (p other : Packed K P) (extra : Nat) : Bool :=
  p.occupied + (other.occupied - headerSize) + extra ≤ p.capacity

/-- Adds the entries of another block, whose keys must be larger, and takes over its
pointer. -/
def merge (other : Packed K P) : Action (Packed K P) Unit := do
  let p ← get
  if p.canMerge other 0 then set (p.append other)
  else throw (.invalidState .mergeDoesNotFit)

/-! ### Cutting a block in two -/

/-- Considers the cuts where these entries begin, of which the first has index `i`, until half
of the bytes are below. `best` is the best cut so far and `bestGap` twice its distance from the
middle. -/
def cutFrom (total : Nat) : List Nat → Nat → Nat → Nat → Nat
  | [], _, best, _ => best
  | start :: starts, i, best, bestGap =>
    let below := start - headerSize
    let here := Block.gap (2 * below) total
    let better := here ≤ bestGap
    let best := if better then i else best
    let bestGap := if better then here else bestGap
    if total ≤ 2 * below then best else cutFrom total starts (i + 1) best bestGap

/-- The index of the first entry of the upper half. -/
def cut (p : Packed K P) : Nat :=
  cutFrom p.entryBytes p.starts.tail 1 1 (Block.gap (2 * (p.start 1 - headerSize)) p.entryBytes)

/-- Cuts the bytes where the entry at an index begins. The entries from it on move to the front
of a block of their own. -/
def splitOff (p : Packed K P) (i : Nat) : Packed K P × Packed K P :=
  let upper : Packed K P := empty K P p.capacity
  ({ p with data := p.data.take (p.start i), starts := p.starts.take i },
    { upper with
      data := upper.data ++ p.data.drop (p.start i)
      starts := (p.starts.drop i).map (· - p.start i + headerSize) })

/-- Keeps the lower half and gives the upper. -/
def split : Action (Packed K P) (Packed K P) := do
  let p ← get
  if p.length < 2 then throw (.internal .splitTooFew)
  let (lower, upper) := p.splitOff p.cut
  set lower
  if lower.isOverflowed || upper.isOverflowed then throw (.internal .splitTooLarge)
  return upper

end Packed

end PagedMap
