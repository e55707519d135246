/-
# Stores of any kind

A device is a store in memory or in one of the files of a directory. A store in
a file works on the content that the directory has for the file at the time of
the operation, so that two stores in one file, and whoever writes into the
file, see each other's changes.

Key definitions: `Device`, `Device.openAs`, `Device.attach`.
-/
import PagedMap.Disk
import PagedMap.Store.File
import PagedMap.Store.Memory

namespace PagedMap

/-- The kinds of stores that can be opened. -/
inductive DeviceKind where
  | memory
  | memorySplit
  | file
  | fileSplit
  deriving Repr, DecidableEq

/-- A store of any kind. -/
inductive Device where
  | memory (store : MemoryStore)
  | file (id : FileId) (store : FileStore)

namespace Device

/-- Does something with a store in memory or in a file, whichever it is. -/
def dispatch {α : Type} (onMemory : Action MemoryStore α) (onFile : Action FileStore α) :
    Action Device α := fun s =>
  match s with
  | .memory store =>
    let (r, store) := onMemory store
    (r, .memory store)
  | .file id store =>
    let (r, store) := onFile store
    (r, .file id store)

instance : Store Device where
  blockSize
    | .memory s => Store.blockSize s
    | .file _ s => Store.blockSize s
  maxBlocks
    | .memory s => Store.maxBlocks s
    | .file _ s => Store.maxBlocks s
  allocate kind data := dispatch (Store.allocate kind data) (Store.allocate kind data)
  read
    | .memory s => Store.read s
    | .file _ s => Store.read s
  write kind n data := dispatch (Store.write kind n data) (Store.write kind n data)
  free kind n := dispatch (Store.free kind n) (Store.free kind n)
  isAllocated
    | .memory s => Store.isAllocated s
    | .file _ s => Store.isAllocated s
  allocatedCount
    | .memory s => Store.allocatedCount s
    | .file _ s => Store.allocatedCount s
  reserveSize
    | .memory s => Store.reserveSize s
    | .file _ s => Store.reserveSize s
  reserve
    | .memory s => Store.reserve s
    | .file _ s => Store.reserve s
  setReserve data := dispatch (Store.setReserve data) (Store.setReserve data)
  sync := dispatch Store.sync Store.sync

/-- Which blocks of a pool are allocated. -/
def bits (kind : Pool) : Device → Bitset
  | .memory s => (s.pool kind).bits
  | .file _ s => (s.pool kind).bits

/-- The path of the file, if the store is in one. -/
def path? : Device → Option String
  | .memory _ => none
  | .file _ s => some s.path

/-- Opens the store in a file. A file without content is made into a store. -/
def openFile (isSplit : Bool) (path : String) (o : Options) : Action Disk Device := do
  o.validate
  let wanted ← if isSplit then Header.split o else Header.plain o
  let id ← Disk.openBacking o path
  let d ← get
  let f := d.content id
  let s ← if f.size = 0 then FileStore.create path wanted f else FileStore.load path wanted f
  set (d.setContent id s.file)
  return .file id { s with file := .empty }

/-- Opens a store. Those in memory need no path. -/
def openAs (kind : DeviceKind) (path : String) (o : Options) : Action Disk Device :=
  match kind with
  | .memory => do
    let s ← MemoryStore.shared o
    return .memory s
  | .memorySplit => do
    let s ← MemoryStore.split o
    return .memory s
  | .file => openFile false path o
  | .fileSplit => openFile true path o

/-- The device with the content that the directory has for its file. -/
def attach (d : Disk) : Device → Device
  | .memory s => .memory s
  | .file id s => .file id { s with file := d.content id }

/-- The device without the content of its file, and the directory with it. -/
def detach (d : Disk) : Device → Device × Disk
  | .memory s => (.memory s, d)
  | .file id s => (.file id { s with file := .empty }, d.setContent id s.file)

end Device

end PagedMap
