/-
# Searching a block and changing its entries

A binary search tells at which index a key stands, or else at which it would be
put. Entries are put in by their keys and taken out by index or key. An
operation that fails leaves the block as it was.

Key definitions: `Place`, `Block.search`, `Block.insert`, `Block.removeAt`,
`Block.delete`, `Block.append`, `Block.merge`.
-/
import PagedMap.Block.Basic

namespace PagedMap

/-- Where a key is in a block, or where it would be put. -/
inductive Place where
  | found (index : Nat)
  | absent (index : Nat)
  deriving Repr, DecidableEq

namespace Place

/-- Whether the key is in the block. -/
def isFound : Place → Bool
  | found _ => true
  | absent _ => false

/-- The number of smaller keys. -/
def index : Place → Nat
  | found i => i
  | absent i => i

/-- The number of keys that are not larger. In an index block this is the child
under which the key belongs: a key equal to a separator stands to its right. -/
def child : Place → Nat
  | found i => i + 1
  | absent i => i

end Place

namespace Block

variable {κ π : Type} {K : OrderedCodec κ} {P : Codec π}

/-- Searches for an encoded key between the indices `lo` and `hi`, in no more
than `fuel` steps. -/
def searchBetween (b : Block K P) (probe : Bytes) : Nat → Nat → Nat → Except Error Place
  | 0, lo, _ => .ok (.absent lo)
  | fuel + 1, lo, hi =>
    if lo < hi then do
      let mid := lo + (hi - lo) / 2
      let k ← b.keyBytes mid
      match ← K.compareEncoded k probe with
      | .lt => searchBetween b probe fuel (mid + 1) hi
      | .gt => searchBetween b probe fuel lo mid
      | .eq => return .found mid
    else .ok (.absent lo)

/-- Searches for an encoded key. -/
def searchBytes (b : Block K P) (probe : Bytes) : Except Error Place :=
  b.searchBetween probe b.length 0 b.length

/-- Searches for a key. -/
def search (b : Block K P) (key : κ) : Except Error Place := do
  let probe ← K.encode key
  b.searchBytes probe

/-- Puts an entry at an index. -/
def insertIdx (b : Block K P) (i : Nat) (entry : Bytes) : Block K P :=
  { b with entries := b.entries.insertIdx i entry }

/-- Puts an entry in by its key, whether or not it fits. -/
def insertOverfull (b : Block K P) (entry : Bytes) : Except Error (Nat × Block K P) := do
  let (k, _) ← cutEntry K entry
  match ← b.searchBytes k with
  | .found _ => throw (.invalidArgument .duplicateKey)
  | .absent i => return (i, b.insertIdx i entry)

/-- Puts an entry in by its key, if it fits. -/
def insert (b : Block K P) (entry : Bytes) : Except Error (Nat × Block K P) :=
  if b.fits entry then b.insertOverfull entry
  else .error (.invalidState (.entryDoesNotFit entry.length b.freeSpace))

/-- Puts an entry, whose key must be above all others, after the last. -/
def append (b : Block K P) (entry : Bytes) : Except Error (Block K P) :=
  if b.fits entry then .ok { b with entries := b.entries ++ [entry] }
  else .error (.invalidState .lastEntryDoesNotFit)

/-- Takes the entry at an index out. -/
def removeAt (b : Block K P) (i : Nat) : Except Error (Bytes × Block K P) := do
  let e ← b.entry i
  return (e, { b with entries := b.entries.eraseIdx i })

/-- Takes the entry of a key out, if there is one. -/
def delete (b : Block K P) (key : κ) : Except Error (Option Bytes × Block K P) := do
  match ← b.search key with
  | .found i =>
    let (e, b) ← b.removeAt i
    return (some e, b)
  | .absent _ => return (none, b)

/-- Whether the entries of another block and `extra` bytes can be added. -/
def canMerge (b other : Block K P) (extra : Nat) : Bool :=
  b.occupied + other.entryBytes + extra ≤ b.capacity

/-- Adds the entries of another block, whose keys must be larger, and takes over
its pointer. -/
def merge (b other : Block K P) : Except Error (Block K P) :=
  if b.canMerge other 0 then
    .ok { b with entries := b.entries ++ other.entries, last := other.last }
  else .error (.invalidState .mergeDoesNotFit)

end Block

end PagedMap
