/-
# Cursors

A cursor walks over the entries of one block that lie within two bounds, in
ascending or descending order, and may take out the entry it has just visited.
It knows whether the bound at the far end cut the block short; then no block
further on holds keys within the bounds.

Key definitions: `Bound`, `Cursor`, `Block.cursor`, `Cursor.next`,
`Cursor.removeCurrent`.
-/
import PagedMap.Block.Search

namespace PagedMap

/-- One end of a range of keys. -/
inductive Bound (κ : Type) where
  | unbounded
  | included (key : κ)
  | excluded (key : κ)
  deriving Repr, DecidableEq

/-- The key at which a range ends. -/
def Bound.key? {κ : Type} : Bound κ → Option κ
  | unbounded => none
  | included key => some key
  | excluded key => some key

/-- A walk over the entries from `start` to below `stop`. -/
structure Cursor where
  start : Nat
  stop : Nat
  descending : Bool
  /-- The entry visited last, if it is still there. -/
  current? : Option Nat
  /-- Whether the far bound lies inside the block. -/
  isCut : Bool
  deriving Repr, DecidableEq

namespace Cursor

/-- A walk over the entries from `start` to below `stop` in a block of `length`. -/
def ofRange (start stop length : Nat) (descending : Bool) : Cursor :=
  ⟨start, stop, descending, none, if descending then decide (0 < start) else decide (stop < length)⟩

/-- The number of entries still to visit, as a 64-bit word. It wraps for a walk
that was made to stop before its start. -/
def remaining (c : Cursor) : UInt64 := UInt64.ofNat c.stop - UInt64.ofNat c.start

/-- Visits the next entry. -/
def next (c : Cursor) : Option Nat × Cursor :=
  if c.start < c.stop then
    if c.descending then
      (some (c.stop - 1), { c with stop := c.stop - 1, current? := some (c.stop - 1) })
    else (some c.start, { c with start := c.start + 1, current? := some c.start })
  else (none, { c with current? := none })

/-- Visits `n` entries at most; gives them in order. -/
def visit : Nat → Cursor → List Nat × Cursor
  | 0, c => ([], c)
  | n + 1, c =>
    match c.next with
    | (none, c) => ([], c)
    | (some i, c) =>
      let (visited, c) := visit n c
      (i :: visited, c)

/-- Visits all that remain, and the end. -/
def visitAll (c : Cursor) : List Nat × Cursor := visit (c.stop - c.start + 1) c

/-- Takes the entry visited last out of its block. -/
def removeCurrent {κ π : Type} {K : OrderedCodec κ} {P : Codec π} :
    Action (Cursor × Block K P) Bytes := do
  let (c, b) ← get
  set ({ c with current? := none }, b)
  match c.current? with
  | none => throw (.invalidState .noCurrentEntry)
  | some i =>
    if i < b.length then
      let (e, b) ← b.removeAt i
      let shift := if c.descending then 0 else 1
      let c := { c with current? := none, start := c.start - shift, stop := c.stop - shift }
      set (c, b)
      return e
    else throw (.invalidState .noCurrentEntry)

end Cursor

namespace Block

variable {κ π : Type} {K : OrderedCodec κ} {P : Codec π}

/-- The index of the first entry that a lower bound admits. -/
def lowerIndex (b : Block K P) : Bound κ → Except Error Nat
  | .unbounded => .ok 0
  | .included key => (b.search key).map Place.index
  | .excluded key => (b.search key).map Place.child

/-- The index after the last entry that an upper bound admits. -/
def upperIndex (b : Block K P) : Bound κ → Except Error Nat
  | .unbounded => .ok b.length
  | .included key => (b.search key).map Place.child
  | .excluded key => (b.search key).map Place.index

/-- A cursor over the entries within bounds. -/
def cursor (b : Block K P) (lower upper : Bound κ) (descending : Bool) : Except Error Cursor := do
  let start ← b.lowerIndex lower
  let stop ← b.upperIndex upper
  return .ofRange start (max stop start) b.length descending

end Block

end PagedMap
