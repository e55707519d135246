/-
# Why an operation fails

An error records its cause; the wording of every cause is in `Error.message`.
A key that is absent is never an error. `Error.fault` is the one cause without
a wording: a position outside a block, or a size of zero where one divides by
it, asked for by a caller who must not.

Key definitions: `Pool`, `BlockNumber`, `Error`, `Error.message`.
-/
import PagedMap.Text.Quoted
import PagedMap.Text.Utf8

namespace PagedMap

/-- The two kinds of blocks: leaves, and the index blocks above them. -/
inductive Pool where
  | leaf
  | index
  deriving Repr, DecidableEq

/-- The word for a kind of blocks. -/
def Pool.name : Pool → String
  | .leaf => "leaf"
  | .index => "index"

/-- The number of a block among the blocks of its pool. -/
abbrev BlockNumber := UInt32

/-- The number that stands for no block. -/
def noBlock : BlockNumber := 0xFFFFFFFF

/-- The sizes and counts that fix the shape of a store. -/
inductive Dimension where
  | blockSize
  | maxBlocks
  | reserveSize
  | regionBlockSize
  | regionMaxBlocks
  deriving Repr, DecidableEq

/-- The name under which a dimension is stored and reported. -/
def Dimension.name : Dimension → String
  | .blockSize => "block_size"
  | .maxBlocks => "max_blocks"
  | .reserveSize => "reserve_size"
  | .regionBlockSize => "region_block_size"
  | .regionMaxBlocks => "region_max_blocks"

/-- The smallest size of a block. -/
def minBlockSize : Nat := 32

/-- The length of a written descriptor, and so the smallest size of a reserve. -/
def descriptorSize : Nat := 20

/-- The largest number a signed 32-bit field holds. -/
def maxInt32 : Nat := 2147483647

/-- What the file system reports. -/
inductive IoError where
  /-- There is no file of the name. -/
  | notFound
  /-- A path leads to a directory, not to a file. -/
  | isDirectory
  /-- A read reaches past the end of the file. -/
  | unexpectedEof
  /-- A text file is not UTF-8. -/
  | invalidData
  deriving Repr, DecidableEq

/-- Why a file is not one that can be opened as asked. -/
inductive FormatMismatch where
  | headerTooShort (expected found : Nat)
  | invalidMagic (expected found : Bytes)
  | unsupportedVersion (found expected : Int)
  | notPositive (field : Dimension) (found : Int)
  | differs (field : Dimension) (found wanted : Nat)
  | bitsetLength (found : Int) (blocks : Nat)
  | noHeader
  | noSections
  deriving Repr, DecidableEq

/-- What is wrong with stored bytes. -/
inductive Corruption where
  | blockTooSmall
  | blockEnds (entry count : Nat)
  | entriesSpan (bytes capacity : Nat)
  | wordTruncated (codec : String) (need found : Nat)
  | lengthTruncated
  | payloadTruncated (need found : Nat)
  | recordTruncated
  | invalidText (fault : Text.Fault)
  | bitsetLength (expected blocks found : Nat)
  | bitsetTail
  | reserveTooShort (found : Nat)
  | invalidDescriptor (root leafLevel size : Int)
  | rootNotAllocated (block : BlockNumber)
  | leafNotListed (block : BlockNumber)
  | childNotAllocated (pool : Pool) (block : BlockNumber)
  | keysOutOfOrder (block : BlockNumber)
  | keyBelowSeparator (block : BlockNumber)
  | keyNotBelowSeparator (block : BlockNumber)
  | entryCount (found recorded : Nat)
  deriving Repr, DecidableEq

/-- What is wrong with an argument. -/
inductive InvalidArgument where
  | blockSizeRange (field : Dimension)
  | blockCountRange (field : Dimension)
  | reserveSizeRange
  | notInt32 (field : Dimension)
  | reserveData (length size : Nat)
  | reserveTooSmall (size : Nat)
  | entryTooLong (length limit : Nat)
  | keyTooLong (length limit : Nat)
  | payloadTooLong
  | recordTooLong
  | duplicateKey
  | notAscending (entry : Nat)
  deriving Repr, DecidableEq

/-- Why a block or a tree is not in a state for the operation. -/
inductive InvalidState where
  | entryDoesNotFit (length free : Nat)
  | lastEntryDoesNotFit
  | mergeDoesNotFit
  | noCurrentEntry
  | treeTooLarge (size : Nat)
  | treeNotEmpty (size : Nat)
  deriving Repr, DecidableEq

/-- Steps that a well-kept tree never takes. -/
inductive Internal where
  | splitTooFew
  | splitTooLarge
  | promoteTooFew
  | promoteTooLarge
  | childRange (position separators : Nat)
  | childPosition
  | rootNumber (root : BlockNumber)
  | rootDemand
  deriving Repr, DecidableEq

/-- Why an operation fails. -/
inductive Error where
  | io (error : IoError)
  | outOfSpace (pool : Pool) (maxBlocks : Nat)
  | notAllocated (pool : Pool) (block : BlockNumber)
  | formatMismatch (cause : FormatMismatch)
  | corruption (cause : Corruption)
  | checksumMismatch (expected found : UInt32)
  | invalidArgument (cause : InvalidArgument)
  | invalidState (cause : InvalidState)
  | serialization
  | notFound (path : String)
  | alreadyExists (path : String)
  | internal (cause : Internal)
  | fault
  deriving Repr, DecidableEq

def FormatMismatch.message : FormatMismatch → String
  | .headerTooShort expected found =>
    s!"Header too short: expected {expected} bytes, got {found}"
  | .invalidMagic expected found =>
    let want := Text.quoted (Text.lossy expected)
    let got := Text.quoted (Text.lossy found)
    s!"Invalid magic: expected {want}, got {got}"
  | .unsupportedVersion found expected => s!"Unsupported version {found}, expected {expected}"
  | .notPositive field found => s!"{field.name} must be positive, got {found}"
  | .differs field found wanted =>
    s!"{field.name} is {found} in the file but {wanted} was requested"
  | .bitsetLength found blocks => s!"Bitset length {found} does not match {blocks} blocks"
  | .noHeader => "File is too short to hold a header"
  | .noSections => "File is too short for a split block file"

def Corruption.message : Corruption → String
  | .blockTooSmall => "Block too small"
  | .blockEnds entry count => s!"Block ends before entry {entry} of {count}"
  | .entriesSpan bytes capacity => s!"Block entries span {bytes} bytes, capacity is {capacity}"
  | .wordTruncated codec need found => s!"{codec}: need {need} bytes, have {found}"
  | .lengthTruncated => "length prefix truncated"
  | .payloadTruncated need found => s!"payload truncated: need {need} bytes, have {found}"
  | .recordTruncated => "bincode payload truncated"
  | .invalidText fault => s!"invalid UTF-8 key: {fault.message}"
  | .bitsetLength expected blocks found =>
    s!"Bitset length mismatch: expected {expected} bytes for {blocks} blocks, got {found}"
  | .bitsetTail => "Bitset has bits set beyond the block count"
  | .reserveTooShort found => s!"Reserve area too small for descriptor: {found} bytes"
  | .invalidDescriptor root leafLevel size =>
    s!"Invalid descriptor: root={root}, leaf_level={leafLevel}, size={size}"
  | .rootNotAllocated block => s!"Root block {block} is not allocated"
  | .leafNotListed block => s!"Leaf {block} is missing from the leaf list"
  | .childNotAllocated pool block => s!"{pool.name} block {block} is referenced but not allocated"
  | .keysOutOfOrder block => s!"Keys out of order in block {block}"
  | .keyBelowSeparator block => s!"Block {block} has a key below its separator"
  | .keyNotBelowSeparator block => s!"Block {block} has a key at or above its separator"
  | .entryCount found recorded => s!"Leaves hold {found} entries, descriptor records {recorded}"

def InvalidArgument.message : InvalidArgument → String
  | .blockSizeRange field => s!"{field.name} must be between {minBlockSize} and {maxInt32}"
  | .blockCountRange field => s!"{field.name} must be between 1 and i32::MAX"
  | .reserveSizeRange => s!"reserve_size must be at least {descriptorSize} bytes"
  | .notInt32 field => s!"{field.name} does not fit in i32"
  | .reserveData length size => s!"reserve data is {length} bytes, reserve area holds {size}"
  | .reserveTooSmall size =>
    s!"reserve area must hold at least {descriptorSize} bytes, store has {size}"
  | .entryTooLong length limit => s!"entry of {length} bytes exceeds the {limit} byte limit"
  | .keyTooLong length limit => s!"key of {length} bytes exceeds the {limit} byte limit"
  | .payloadTooLong => "payload longer than u32::MAX bytes"
  | .recordTooLong => "serialized value longer than u32::MAX"
  | .duplicateKey => "duplicate key in block"
  | .notAscending entry => s!"bulk load input is not strictly ascending at entry {entry}"

def InvalidState.message : InvalidState → String
  | .entryDoesNotFit length free => s!"entry of {length} bytes does not fit, {free} bytes free"
  | .lastEntryDoesNotFit => "entry does not fit in block"
  | .mergeDoesNotFit => "blocks are too large to merge"
  | .noCurrentEntry => "cursor has no current entry"
  | .treeTooLarge size => s!"tree size {size} exceeds i32::MAX"
  | .treeNotEmpty size => s!"bulk load requires an empty tree, tree has {size} entries"

def Internal.message : Internal → String
  | .splitTooFew => "cannot split a block with fewer than 2 entries"
  | .splitTooLarge => "split halves exceed block capacity"
  | .promoteTooFew => "cannot split an index block with fewer than 3 separators"
  | .promoteTooLarge => "index split halves exceed block capacity"
  | .childRange position separators =>
    s!"child position {position} out of range for {separators} separators"
  | .childPosition => "child position out of range"
  | .rootNumber root => s!"root block {root} does not fit in i32"
  | .rootDemand => "root requires a change of a parent that it does not have"

/-- A number in hexadecimal, marked as such. -/
def hexadecimal (n : Nat) : String :=
  "0x" ++ String.ofList (Nat.toDigits 16 n)

/-- The wording of an error. -/
def Error.message : Error → String
  | .io .notFound => "IO error: no such file"
  | .io .isDirectory => "IO error: a directory"
  | .io .unexpectedEof => "IO error: end of file"
  | .io .invalidData => "IO error: not UTF-8"
  | .outOfSpace pool maxBlocks =>
    s!"Out of space: all {maxBlocks} blocks of the {pool.name} pool are allocated"
  | .notAllocated pool block => s!"Block {block} of the {pool.name} pool is not allocated"
  | .formatMismatch cause => "Format mismatch: " ++ cause.message
  | .corruption cause => "Data corruption: " ++ cause.message
  | .checksumMismatch expected found =>
    let want := hexadecimal expected.toNat
    let got := hexadecimal found.toNat
    s!"Checksum mismatch: expected {want}, got {got}"
  | .invalidArgument cause => "Invalid argument: " ++ cause.message
  | .invalidState cause => "Invalid state: " ++ cause.message
  | .serialization => "Serialization error"
  | .notFound path => "Not found: " ++ path
  | .alreadyExists path => "Already exists: " ++ path
  | .internal cause => "Internal error: " ++ cause.message
  | .fault => "Position or size out of range"

/-- A computation that changes a state of type `σ` and may fail. What it had
changed before it failed stays changed. -/
abbrev Action (σ α : Type) := ExceptT Error (StateM σ) α

end PagedMap
