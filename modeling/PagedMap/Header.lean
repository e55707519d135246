/-
# The header of a file

A file begins with four letters that tell a plain file from a split one, the
version of the format, and the dimensions of the store, each a signed word with
the most significant byte first. A split file has two dimensions more.

Key definitions: `Header`, `Header.plain`, `Header.split`, `Header.encode`,
`Header.decode`, `Header.requireShape`.
-/
import PagedMap.Options

namespace PagedMap

/-- The shape of the region of a split file. -/
structure Region where
  blockSize : Nat
  maxBlocks : Nat
  deriving Repr, DecidableEq

/-- What a file's first bytes say of it. -/
structure Header where
  version : Int
  blockSize : Nat
  maxBlocks : Nat
  reserveSize : Nat
  region? : Option Region
  deriving Repr, DecidableEq

namespace Header

/-- The version of the format. -/
def formatVersion : Int := 1

/-- The letters at the beginning of a plain or split file. -/
def magic (split : Bool) : Bytes :=
  [0x42, 0x54, 0x52, if split then 0x53 else 0x46]

/-- The length of a plain or split file's header. -/
def size (split : Bool) : Nat := if split then 28 else 20

/-- Refuses a dimension that is not a signed word. -/
def requireInt32 (field : Dimension) (n : Nat) : Except Error Unit :=
  if n ≤ maxInt32 then .ok () else .error (.invalidArgument (.notInt32 field))

/-- The header of a plain file of the given options. -/
def plain (o : Options) : Except Error Header := do
  requireInt32 .blockSize o.blockSize
  requireInt32 .reserveSize o.reserveSize
  return ⟨formatVersion, o.blockSize, o.maxBlocks, o.reserveSize, none⟩

/-- The header of a split file of the given options. -/
def split (o : Options) : Except Error Header := do
  requireInt32 .regionBlockSize o.regionBlockSize
  let h ← plain o
  return { h with region? := some ⟨o.regionBlockSize, o.regionMaxBlocks⟩ }

/-- The length of the written header. -/
def encodedLength (h : Header) : Nat := size h.region?.isSome

/-- The written header. -/
def encode (h : Header) : Bytes :=
  magic h.region?.isSome ++ Bytes.ofInt32 h.version ++ Bytes.ofNat 4 h.blockSize ++
    Bytes.ofNat 4 h.maxBlocks ++ Bytes.ofNat 4 h.reserveSize ++
    match h.region? with
    | some r => Bytes.ofNat 4 r.blockSize ++ Bytes.ofNat 4 r.maxBlocks
    | none => []

/-- The dimension at an offset; it must be positive. -/
def readDimension (bs : Bytes) (offset : Nat) (field : Dimension) : Except Error Nat :=
  let i := Bytes.toInt32 (bs.drop offset)
  if i ≤ 0 then .error (.formatMismatch (.notPositive field i)) else .ok i.toNat

/-- The header that the bytes begin with, expected of a plain or split file. -/
def decode (bs : Bytes) (split : Bool) : Except Error Header := do
  if bs.length < size split then
    throw (.formatMismatch (.headerTooShort (size split) bs.length))
  if bs.take 4 ≠ magic split then
    throw (.formatMismatch (.invalidMagic (magic split) (bs.take 4)))
  let version := Bytes.toInt32 (bs.drop 4)
  if version ≠ formatVersion then
    throw (.formatMismatch (.unsupportedVersion version formatVersion))
  let blockSize ← readDimension bs 8 .blockSize
  let maxBlocks ← readDimension bs 12 .maxBlocks
  let reserveSize ← readDimension bs 16 .reserveSize
  if split then
    let regionBlockSize ← readDimension bs 20 .regionBlockSize
    let regionMaxBlocks ← readDimension bs 24 .regionMaxBlocks
    return ⟨version, blockSize, maxBlocks, reserveSize, some ⟨regionBlockSize, regionMaxBlocks⟩⟩
  else
    return ⟨version, blockSize, maxBlocks, reserveSize, none⟩

/-- Refuses two values of a dimension that differ. -/
def requireSame (field : Dimension) (found wanted : Nat) : Except Error Unit :=
  if found = wanted then .ok () else .error (.formatMismatch (.differs field found wanted))

/-- Refuses a file whose header differs from the one wanted. The region is
compared where both have one. -/
def requireShape (found wanted : Header) : Except Error Unit := do
  requireSame .blockSize found.blockSize wanted.blockSize
  requireSame .maxBlocks found.maxBlocks wanted.maxBlocks
  requireSame .reserveSize found.reserveSize wanted.reserveSize
  match found.region?, wanted.region? with
  | some f, some w =>
    requireSame .regionBlockSize f.blockSize w.blockSize
    requireSame .regionMaxBlocks f.maxBlocks w.maxBlocks
  | _, _ => return ()

end Header

end PagedMap
