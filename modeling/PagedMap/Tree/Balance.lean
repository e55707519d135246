/-
# Moving entries between neighbours

Two neighbouring leaves are evened out by moving entries over, one by one, as
long as each move narrows the gap in bytes. Two neighbouring index blocks are
evened out by rotating separators through the one between them in their parent:
it comes down on one side, and the separator next to the gap goes up.

Key definitions: `Block.shiftOne?`, `Block.shift`, `Index.rotateOne?`,
`Index.rotate`.
-/
import PagedMap.Block.Index

namespace PagedMap

namespace Block

variable {κ π : Type} {K : OrderedCodec κ} {P : Codec π}

/-- Moves one entry from the fuller of two neighbours to the other, if that
narrows the gap and the entry fits. -/
def shiftOne? (lower upper : Block K P) : Option (Block K P × Block K P) :=
  if lower.occupied < upper.occupied then
    match upper.entries with
    | [] => none
    | e :: rest =>
      if e.length < upper.occupied - lower.occupied && lower.fits e then
        some ({ lower with entries := lower.entries ++ [e] }, { upper with entries := rest })
      else none
  else if upper.occupied < lower.occupied then
    match lower.entries.getLast? with
    | none => none
    | some e =>
      if e.length < lower.occupied - upper.occupied && upper.fits e then
        some ({ lower with entries := lower.entries.dropLast },
          { upper with entries := e :: upper.entries })
      else none
  else none

/-- Two neighbours and the number of entries that were moved between them. -/
structure Shifted (K : OrderedCodec κ) (P : Codec π) where
  lower : Block K P
  upper : Block K P
  moved : Nat

/-- Moves entries, `fuel` at most. -/
def shiftWithin (moved : Nat) : Nat → Block K P → Block K P → Shifted K P
  | 0, lower, upper => ⟨lower, upper, moved⟩
  | fuel + 1, lower, upper =>
    match shiftOne? lower upper with
    | none => ⟨lower, upper, moved⟩
    | some (lower, upper) => shiftWithin (moved + 1) fuel lower upper

/-- Moves entries as long as each move narrows the gap. No more can move than
there are. -/
def shift (lower upper : Block K P) : Shifted K P :=
  shiftWithin 0 (lower.length + upper.length) lower upper

end Block

namespace Index

variable {κ : Type} {K : OrderedCodec κ}

/-- Two neighbours, the key of the separator between them, and the number of
rotations. -/
structure Rotated (K : OrderedCodec κ) where
  lower : Index K
  upper : Index K
  key : Bytes
  moved : Nat

/-- Rotates one separator from the fuller of two neighbours to the other, if
what comes down narrows the gap and fits. -/
def rotateOne? (r : Rotated K) : Except Error (Option (Rotated K)) :=
  let incoming := r.key.length + 4
  let down := separatorEntry r.key r.lower.last
  if r.lower.occupied < r.upper.occupied && !r.upper.isEmpty then
    if r.upper.occupied - r.lower.occupied ≤ incoming ||
        r.lower.capacity < r.lower.occupied + incoming then .ok none
    else do
      let first ← child r.upper 0
      let key ← r.upper.keyBytes 0
      let (_, upper) ← r.upper.removeAt 0
      let lower := { r.lower.insertIdx r.lower.length down with last := first }
      return some ⟨lower, upper, key, r.moved + 1⟩
  else if r.upper.occupied < r.lower.occupied && !r.lower.isEmpty then
    if r.lower.occupied - r.upper.occupied ≤ incoming ||
        r.upper.capacity < r.upper.occupied + incoming then .ok none
    else do
      let i := r.lower.length - 1
      let last ← child r.lower i
      let key ← r.lower.keyBytes i
      let (_, lower) ← r.lower.removeAt i
      return some ⟨{ lower with last }, r.upper.insertIdx 0 down, key, r.moved + 1⟩
  else .ok none

/-- Rotates separators, `limit` times at most. -/
def rotateWithin : Nat → Rotated K → Except Error (Rotated K)
  | 0, r => .ok r
  | limit + 1, r => do
    match ← rotateOne? r with
    | none => return r
    | some r => rotateWithin limit r

/-- Rotates separators between two neighbours, as often as they have separators
at most. -/
def rotate (lower upper : Index K) (key : Bytes) : Except Error (Rotated K) :=
  rotateWithin (lower.length + upper.length) ⟨lower, upper, key, 0⟩

end Index

end PagedMap
