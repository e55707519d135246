/-
# Which blocks are allocated

Bit `i` of a bitset is bit `i % 8` of byte `i / 8`; it is set if block `i` is
allocated. The bytes after the last one that was ever touched are zero and are
not kept. `hint` is a place below which no bit is clear; the search for a clear
bit starts at its byte.

Key definitions: `Bitset`, `Bitset.get`, `Bitset.set`, `Bitset.clear`,
`Bitset.members`, `Bitset.firstClear?`, `Bitset.ofBytes`, `Bitset.toBytes`.
-/
import PagedMap.Error

namespace PagedMap

/-- One bit for each of `max` blocks. -/
structure Bitset where
  /-- The first bytes; those that follow are zero. -/
  bytes : Bytes
  /-- The number of blocks. -/
  max : Nat
  /-- The number of set bits. -/
  count : Nat
  /-- No bit below it is clear. -/
  hint : Nat
  deriving Repr, DecidableEq

namespace Bitset

/-- The number of bytes for `max` bits. -/
def byteLength (max : Nat) : Nat := (max + 7) / 8

/-- The byte in which bit `k` alone is set. -/
def mask (k : Nat) : UInt8 := 1 <<< UInt8.ofNat k

/-- Whether bit `k` of a byte is set. -/
def testBit (b : UInt8) (k : Nat) : Bool := b &&& mask k != 0

/-- The bits of a byte that are set. -/
def ones (b : UInt8) : Nat := (List.range 8).countP (testBit b)

/-- The lowest clear bit of a byte. -/
def lowestClear (b : UInt8) : Nat := ((List.range 8).takeWhile (testBit b)).length

/-- No bit is set. -/
def empty (max : Nat) : Bitset := ⟨[], max, 0, 0⟩

/-- A byte of the bitset. -/
def byte (s : Bitset) (index : Nat) : UInt8 := s.bytes.getD index 0

/-- Whether bit `i` is set. -/
def get (s : Bitset) (i : Nat) : Bool := testBit (s.byte (i / 8)) (i % 8)

/-- The set bits in ascending order. -/
def members (s : Bitset) : List Nat := (List.range (s.bytes.length * 8)).filter s.get

/-- All bytes. -/
def toBytes (s : Bitset) : Bytes := s.bytes.fit (byteLength s.max)

/-- Replaces a byte. -/
def setByte (s : Bitset) (index : Nat) (b : UInt8) : Bytes :=
  if index < s.bytes.length then s.bytes.set index b
  else s.bytes ++ List.replicate (index - s.bytes.length) 0 ++ [b]

/-- Sets bit `i`. -/
def set (s : Bitset) (i : Nat) : Bitset :=
  let hint := if s.hint = i then i + 1 else s.hint
  if s.get i then { s with hint }
  else
    { s with
      bytes := s.setByte (i / 8) (s.byte (i / 8) ||| mask (i % 8))
      count := s.count + 1
      hint }

/-- Clears bit `i`. -/
def clear (s : Bitset) (i : Nat) : Bitset :=
  let hint := min s.hint i
  if s.get i then
    { s with
      bytes := s.setByte (i / 8) (s.byte (i / 8) &&& ~~~ mask (i % 8))
      count := s.count - 1
      hint }
  else { s with hint }

/-- The lowest clear bit. -/
def firstClear? (s : Bitset) : Option Nat :=
  let start := s.hint / 8
  let index := start + ((s.bytes.drop start).takeWhile (· = 0xFF)).length
  let i := index * 8 + lowestClear (s.byte index)
  if i < s.max then some i else none

/-- The byte that holds bit `i`. -/
def byteIndex (s : Bitset) (i : Nat) : Except Error Nat :=
  if i / 8 < byteLength s.max then .ok (i / 8) else .error .fault

/-- The byte at an index. -/
def byteAt (s : Bitset) (index : Nat) : Except Error UInt8 :=
  if index < byteLength s.max then .ok (s.byte index) else .error .fault

/-- The bitset of stored bytes. -/
def ofBytes (bs : Bytes) (max : Nat) : Except Error Bitset :=
  let s : Bitset := ⟨bs, max, bs.foldr (fun b n => ones b + n) 0, 0⟩
  if bs.length ≠ byteLength max then
    .error (.corruption (.bitsetLength (byteLength max) max bs.length))
  else if (List.range' max (bs.length * 8 - max)).any s.get then
    .error (.corruption .bitsetTail)
  else .ok s

end Bitset

end PagedMap
