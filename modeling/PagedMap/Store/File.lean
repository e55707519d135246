/-
# Stores in files

A store in a file keeps everything in the file but the bitsets, of which it has
copies: a changed bit goes into the file at once, together with the seven bits
beside it. A plain file has one pool for both kinds of blocks. A split file has
its index blocks in a mapped region, which is there from the beginning; the
other blocks come to exist when they are written.

Key definitions: `FilePool`, `FileStore`, `FileStore.create`, `FileStore.load`.
-/
import PagedMap.File
import PagedMap.Layout
import PagedMap.Store.Basic

namespace PagedMap

/-- Where the blocks of one pool lie in a file, and which are allocated. -/
structure FilePool where
  blockSize : Nat
  bits : Bitset
  /-- The offset of the bitset, its length in front. -/
  bitsetOffset : Nat
  /-- The offset of the first block. -/
  blocksOffset : Nat
  deriving Repr, DecidableEq

namespace FilePool

/-- The offset of a block. -/
def offset (p : FilePool) (n : Nat) : Nat := p.blocksOffset + n * p.blockSize

/-- Refuses a block that is not allocated. -/
def check (p : FilePool) (pool : Pool) (n : BlockNumber) : Except Error Unit :=
  if p.bits.get n.toNat then .ok () else .error (.notAllocated pool n)

/-- Writes the bitset with its length in front. -/
def writeBitset (p : FilePool) (f : File) : File :=
  let bs := p.bits.toBytes
  f.write p.bitsetOffset (Bytes.ofNat Layout.bitsetLengthSize bs.length ++ bs)

/-- Writes the byte of the bitset that holds a block's bit. -/
def writeBit (p : FilePool) (n : Nat) (f : File) : File :=
  f.write (p.bitsetOffset + Layout.bitsetLengthSize + n / 8) [p.bits.byte (n / 8)]

/-- Reads the bitset. -/
def readBitset (f : File) (bitsetOffset maxBlocks : Nat) : Except Error Bitset := do
  let front ← f.read bitsetOffset Layout.bitsetLengthSize
  let length := Bytes.toInt32 front
  if length ≠ Bitset.byteLength maxBlocks then
    throw (.formatMismatch (.bitsetLength length maxBlocks))
  let bs ← f.read (bitsetOffset + Layout.bitsetLengthSize) (Bitset.byteLength maxBlocks)
  Bitset.ofBytes bs maxBlocks

end FilePool

/-- A store in a file. -/
structure FileStore where
  path : String
  header : Header
  layout : Layout
  /-- The content of the file. -/
  file : File
  /-- The pool of the leaves, and of the index blocks if they have no region. -/
  main : FilePool
  /-- The pool of the index blocks in a split file. -/
  region? : Option FilePool

namespace FileStore

/-- The main pool of a file. -/
def mainPool (h : Header) (l : Layout) (bits : Bitset) : FilePool :=
  ⟨h.blockSize, bits, l.bitset.toNat, l.blocks.toNat⟩

/-- The pool of a region. -/
def regionPool (r : Region) (l : Layout) (bits : Bitset) : FilePool :=
  ⟨r.blockSize, bits, l.regionBitset.toNat, l.regionBlocks.toNat⟩

/-- Makes a store in a file without content. -/
def create (path : String) (h : Header) (f : File) : Except Error FileStore := do
  let l ← Layout.ofHeader h
  let main := mainPool h l (.empty h.maxBlocks)
  let region? := h.region?.map fun r => regionPool r l (.empty r.maxBlocks)
  let f := f.write 0 h.encode
  let f := match region? with
    | some region => region.writeBitset f
    | none => f
  let f := main.writeBitset f
  let f := f.write l.reserve.toNat (List.replicate h.reserveSize 0)
  return ⟨path, h, l, f.extend l.initialLength.toNat, main, region?⟩

/-- Opens the store that is in a file. The header must be the one wanted. -/
def load (path : String) (wanted : Header) (f : File) : Except Error FileStore := do
  let isSplit := wanted.region?.isSome
  let l ← Layout.ofHeader wanted
  if isSplit then
    if f.size < l.initialLength.toNat then throw (.formatMismatch .noSections)
  else if f.size < Header.size false then throw (.formatMismatch .noHeader)
  let front ← f.read 0 (Header.size isSplit)
  let found ← Header.decode front isSplit
  found.requireShape wanted
  let region? ← match wanted.region? with
    | some r => do
      let bits ← FilePool.readBitset f l.regionBitset.toNat r.maxBlocks
      pure (some (regionPool r l bits))
    | none => pure none
  let bits ← FilePool.readBitset f l.bitset.toNat wanted.maxBlocks
  return ⟨path, wanted, l, f, mainPool wanted l bits, region?⟩

/-- The pool that serves a kind of blocks. -/
def pool (s : FileStore) : Pool → FilePool
  | .leaf => s.main
  | .index => s.region?.getD s.main

/-- Whether a kind of blocks lies in the mapped region. -/
def isMapped (s : FileStore) (kind : Pool) : Bool := kind = .index && s.region?.isSome

/-- Replaces the pool that serves a kind of blocks. -/
def setPool (s : FileStore) (kind : Pool) (p : FilePool) : FileStore :=
  if s.isMapped kind then { s with region? := some p } else { s with main := p }

/-- Writes the bytes of a block. -/
def putBlock (s : FileStore) (kind : Pool) (n : Nat) (data : Bytes) : FileStore :=
  let p := s.pool kind
  let bs := data.fit p.blockSize
  if s.isMapped kind then { s with file := s.file.writeMapped (p.offset n) bs }
  else { s with file := s.file.write (p.offset n) bs }

/-- Sets or clears the bit of a block, here and in the file. -/
def putBits (s : FileStore) (kind : Pool) (n : Nat) (bits : Bitset) : FileStore :=
  let p : FilePool := { s.pool kind with bits }
  let s := s.setPool kind p
  { s with file := p.writeBit n s.file }

/-- Allocates and writes the lowest free block. -/
def allocate (kind : Pool) (data : Bytes) : Action FileStore BlockNumber := do
  let s ← get
  let p := s.pool kind
  match p.bits.firstClear? with
  | none => throw (.outOfSpace kind p.bits.max)
  | some n =>
    set ((s.putBlock kind n data).putBits kind n (p.bits.set n))
    return UInt32.ofNat n

/-- The bytes of an allocated block. -/
def read (s : FileStore) (kind : Pool) (n : BlockNumber) : Except Error Bytes := do
  let p := s.pool kind
  p.check kind n
  if s.isMapped kind then return s.file.readMapped (p.offset n.toNat) p.blockSize
  else s.file.read (p.offset n.toNat) p.blockSize

/-- Writes an allocated block. -/
def write (kind : Pool) (n : BlockNumber) (data : Bytes) : Action FileStore Unit := do
  let s ← get
  (s.pool kind).check kind n
  set (s.putBlock kind n.toNat data)

/-- Frees an allocated block. -/
def free (kind : Pool) (n : BlockNumber) : Action FileStore Unit := do
  let s ← get
  let p := s.pool kind
  p.check kind n
  set (s.putBits kind n.toNat (p.bits.clear n.toNat))

/-- The bytes of the reserve. -/
def reserve (s : FileStore) : Except Error Bytes :=
  s.file.read s.layout.reserve.toNat s.header.reserveSize

/-- Writes the beginning of the reserve. -/
def setReserve (data : Bytes) : Action FileStore Unit := do
  let s ← get
  requireReserve data s.header.reserveSize
  set { s with file := s.file.write s.layout.reserve.toNat data }

instance : Store FileStore where
  blockSize s kind := (s.pool kind).blockSize
  maxBlocks s kind := (s.pool kind).bits.max
  allocate := allocate
  read := read
  write := write
  free := free
  isAllocated s kind n := (s.pool kind).bits.get n.toNat
  allocatedCount s kind := (s.pool kind).bits.count
  reserveSize s := s.header.reserveSize
  reserve := reserve
  setReserve := setReserve
  sync := pure ()

end FileStore

end PagedMap
