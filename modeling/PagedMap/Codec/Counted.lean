/-
# Byte strings and texts of any length

The item's bytes follow their number, which is a 32-bit word. Keys are ordered
by their bytes; for texts that is the order by code points. Between two blocks
it is enough to put the shortest beginning of the upper key that is above the
lower key: one byte more than the two have in common, and for texts as many
more as complete a character.

Key definitions: `Counted.payload`, `Counted.encode`, `byteString`, `text`.
-/
import PagedMap.Codec

namespace PagedMap

namespace Counted

/-- The length of the number in front. -/
def countSize : Nat := 4

/-- The bytes that follow their number. -/
def payload (bs : Bytes) : Except Error Bytes :=
  match bs.window? countSize with
  | none => .error (.corruption .lengthTruncated)
  | some count =>
    let rest := bs.drop countSize
    match Bytes.window? count.toNat rest with
    | some body => .ok body
    | none => .error (.corruption (.payloadTruncated count.toNat rest.length))

/-- The length of the number and the bytes together. -/
def sizeAt (bs : Bytes) : Except Error Nat :=
  (payload bs).map fun body => countSize + body.length

/-- The number of the bytes, and the bytes. -/
def encode (body : Bytes) : Except Error Bytes :=
  if body.length < UInt32.size then .ok (Bytes.ofNat countSize body.length ++ body)
  else .error (.invalidArgument .payloadTooLong)

/-- The order of the bytes that follow their numbers. -/
def compareBytes? (a b : Bytes) : Option Ordering :=
  match payload a, payload b with
  | .ok x, .ok y => some (compare x y)
  | _, _ => none

/-- The length of the shortest beginning of `high` that is above `low`. It is
the whole of `high` if no beginning is. -/
def separatorLength (low high : Bytes) : Nat :=
  min (Bytes.common low high + 1) high.length

/-- The text that the bytes are. -/
def readText (bs : Bytes) : Except Error String :=
  match Text.ofUtf8 bs with
  | .ok s => .ok s
  | .error fault => .error (.corruption (.invalidText fault))

/-- Whether a byte cannot be the first of a character. -/
def isInner (b : UInt8) : Bool := 0x80 ≤ b && b < 0xC0

/-- The first `n` bytes, and those after them that complete a character. -/
def wholeCharacters (n : Nat) (bs : Bytes) : Bytes :=
  bs.take n ++ (bs.drop n).takeWhile isInner

end Counted

/-- Byte strings. -/
def byteString : OrderedCodec Bytes where
  size x := Counted.countSize + x.length
  sizeAt := Counted.sizeAt
  encode := Counted.encode
  decode := Counted.payload
  compare x y := Ord.compare x y
  compareBytes? := Counted.compareBytes?
  separate low high := do
    let low ← Counted.payload low
    let high ← Counted.payload high
    Counted.encode (high.take (Counted.separatorLength low high))

/-- Texts, written in UTF-8. -/
def text : OrderedCodec String where
  size x := Counted.countSize + x.utf8ByteSize
  sizeAt := Counted.sizeAt
  encode x := Counted.encode (Text.toUtf8 x)
  decode bs := do
    let body ← Counted.payload bs
    Counted.readText body
  compare x y := Ord.compare (x.toList.map Char.toNat) (y.toList.map Char.toNat)
  compareBytes? := Counted.compareBytes?
  separate low high := do
    let high ← Counted.payload high
    let _ ← Counted.readText high
    let low ← Counted.payload low
    Counted.encode (Counted.wholeCharacters (Counted.separatorLength low high) high)

end PagedMap
