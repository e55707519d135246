/-
# Options

The options say how a file is opened and which shape a store has. The shape is
written into a file when it is made and must be the same when it is opened
again.

Key definitions: `Options`, `Options.validate`.
-/
import PagedMap.Error

namespace PagedMap

/-- How a store is opened, and its shape. A region is the part of a split store
that holds the index blocks. -/
structure Options where
  /-- Whether a missing file is made. -/
  createIfMissing : Bool := true
  /-- Whether a file that exists is refused. -/
  errorIfExists : Bool := false
  /-- The size of a block, in bytes. -/
  blockSize : Nat := 4096
  /-- The number of blocks. -/
  maxBlocks : Nat := 65536
  /-- The size of a block of the region, in bytes. -/
  regionBlockSize : Nat := 1024
  /-- The number of blocks of the region. -/
  regionMaxBlocks : Nat := 16384
  /-- The size of the reserve, in bytes. -/
  reserveSize : Nat := 64
  /-- Whether saving waits until the file is on durable storage. -/
  syncOnSave : Bool := true
  deriving Repr, DecidableEq

namespace Options

/-- Refuses a shape that no store can have. Of several reasons the first is
given, in the order of the fields below. -/
def validate (o : Options) : Except Error Unit :=
  if o.blockSize < minBlockSize ∨ maxInt32 < o.blockSize then
    .error (.invalidArgument (.blockSizeRange .blockSize))
  else if o.regionBlockSize < minBlockSize ∨ maxInt32 < o.regionBlockSize then
    .error (.invalidArgument (.blockSizeRange .regionBlockSize))
  else if o.maxBlocks = 0 ∨ maxInt32 < o.maxBlocks then
    .error (.invalidArgument (.blockCountRange .maxBlocks))
  else if o.regionMaxBlocks = 0 ∨ maxInt32 < o.regionMaxBlocks then
    .error (.invalidArgument (.blockCountRange .regionMaxBlocks))
  else if o.reserveSize < descriptorSize ∨ maxInt32 < o.reserveSize then
    .error (.invalidArgument .reserveSizeRange)
  else .ok ()

end Options

end PagedMap
