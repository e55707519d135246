/-
# Integers of fixed width

An integer is written as its rank among the integers of its type, in base 256
with the most significant digit first. The rank of an unsigned integer is the
integer; that of a signed one is its distance from the least. So the order of
encoded integers, byte by byte, is the order of the integers.

`littleWord` writes the digits the other way round. Its encoded items are not
in order and it makes no promise of their size; it shows what a codec does that
states nothing beyond the necessary.

Key definitions: `WordType`, `WordType.codec`, `word32`, `word64`, `int32`,
`int64`, `littleWord`.
-/
import PagedMap.Codec

namespace PagedMap

/-- A type of integers of `width` bytes, told by the rank of each. -/
structure WordType (α : Type) where
  /-- The name that errors mention. -/
  name : String
  /-- The number of bytes of an integer. -/
  width : Nat
  /-- The integer itself, for comparison. -/
  value : α → Int
  /-- How many integers of the type are less. -/
  rank : α → Nat
  /-- The integer with so many below it. -/
  ofRank : Nat → α

namespace WordType

variable {α : Type} (T : WordType α)

/-- The bytes of the integer that a byte string begins with. -/
def digits (bs : Bytes) : Except Error Bytes :=
  match bs.window? T.width with
  | some ds => .ok ds
  | none => .error (.corruption (.wordTruncated T.name T.width bs.length))

/-- The codec of the type's integers. -/
def codec : OrderedCodec α where
  size _ := T.width
  sizeAt bs := (T.digits bs).map List.length
  encode x := .ok (.ofNat T.width (T.rank x))
  decode bs := (T.digits bs).map fun ds => T.ofRank ds.toNat
  fixedSize? := some T.width
  compare x y := Ord.compare (T.value x) (T.value y)
  compareBytes? a b := do
    let x ← a.window? T.width
    let y ← b.window? T.width
    return Ord.compare x y

end WordType

/-- Unsigned integers of 32 bits. They are also the child pointers of index
blocks. -/
def word32 : OrderedCodec UInt32 :=
  WordType.codec ⟨"U32Codec", 4, fun x => x.toNat, UInt32.toNat, UInt32.ofNat⟩

/-- Unsigned integers of 64 bits. -/
def word64 : OrderedCodec UInt64 :=
  WordType.codec ⟨"U64Codec", 8, fun x => x.toNat, UInt64.toNat, UInt64.ofNat⟩

/-- Signed integers of 32 bits. -/
def int32 : OrderedCodec Int32 :=
  WordType.codec ⟨"I32Codec", 4, Int32.toInt, fun x => (x.toInt - Int32.minValue.toInt).toNat,
    fun n => Int32.ofInt (n + Int32.minValue.toInt)⟩

/-- Signed integers of 64 bits. -/
def int64 : OrderedCodec Int64 :=
  WordType.codec ⟨"I64Codec", 8, Int64.toInt, fun x => (x.toInt - Int64.minValue.toInt).toNat,
    fun n => Int64.ofInt (n + Int64.minValue.toInt)⟩

/-- Unsigned integers of 32 bits with the least significant byte first. Reading
takes the digits as `word32` does and turns them round. -/
def littleWord : OrderedCodec UInt32 where
  size _ := 4
  sizeAt _ := .ok 4
  encode x := .ok (.ofNatLE 4 x.toNat)
  decode bs := do
    let x ← word32.decode bs
    return UInt32.ofNat (Bytes.ofNat 4 x.toNat).toNatLE
  compare x y := Ord.compare x.toNat y.toNat

end PagedMap
