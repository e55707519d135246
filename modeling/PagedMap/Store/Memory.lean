/-
# Stores in memory

A store in memory keeps the blocks that were ever written in a map. It has one
pool for both kinds of blocks, or a second pool for the index blocks.

Key definitions: `MemoryPool`, `MemoryStore`, `MemoryStore.shared`,
`MemoryStore.split`.
-/
import PagedMap.Bitset
import PagedMap.Options
import PagedMap.Store.Basic
import Std.Data.TreeMap

namespace PagedMap

/-- The blocks of one pool. Freed blocks keep their bytes. -/
structure MemoryPool where
  blockSize : Nat
  bits : Bitset
  blocks : Std.TreeMap Nat Bytes

namespace MemoryPool

/-- A pool without allocated blocks. -/
def empty (blockSize maxBlocks : Nat) : MemoryPool := ⟨blockSize, .empty maxBlocks, ∅⟩

/-- Refuses a block that is not allocated. -/
def check (p : MemoryPool) (pool : Pool) (n : BlockNumber) : Except Error Unit :=
  if p.bits.get n.toNat then .ok () else .error (.notAllocated pool n)

/-- Puts bytes into a block. -/
def put (p : MemoryPool) (n : Nat) (data : Bytes) : MemoryPool :=
  { p with blocks := p.blocks.insert n (data.fit p.blockSize) }

/-- Allocates and writes the lowest free block. -/
def allocate (pool : Pool) (data : Bytes) : Action MemoryPool BlockNumber := do
  let p ← get
  match p.bits.firstClear? with
  | none => throw (.outOfSpace pool p.bits.max)
  | some n =>
    set (({ p with bits := p.bits.set n } : MemoryPool).put n data)
    return UInt32.ofNat n

/-- The bytes of an allocated block. -/
def read (p : MemoryPool) (pool : Pool) (n : BlockNumber) : Except Error Bytes := do
  p.check pool n
  return p.blocks[n.toNat]?.getD (List.replicate p.blockSize 0)

/-- Writes an allocated block. -/
def write (pool : Pool) (n : BlockNumber) (data : Bytes) : Action MemoryPool Unit := do
  let p ← get
  p.check pool n
  set (p.put n.toNat data)

/-- Frees an allocated block. -/
def free (pool : Pool) (n : BlockNumber) : Action MemoryPool Unit := do
  let p ← get
  p.check pool n
  set { p with bits := p.bits.clear n.toNat }

end MemoryPool

/-- A store in memory. -/
structure MemoryStore where
  /-- The pool of the leaves, and of the index blocks if they have none. -/
  main : MemoryPool
  /-- The pool of the index blocks. -/
  region? : Option MemoryPool
  /-- The size of the reserve. -/
  reserveSize : Nat
  /-- The beginning of the reserve that was written; zeros follow. -/
  written : Bytes

namespace MemoryStore

/-- An empty store with one pool. -/
def shared (o : Options) : Except Error MemoryStore := do
  o.validate
  return ⟨.empty o.blockSize o.maxBlocks, none, o.reserveSize, []⟩

/-- An empty store with two pools. -/
def split (o : Options) : Except Error MemoryStore := do
  o.validate
  return ⟨.empty o.blockSize o.maxBlocks, some (.empty o.regionBlockSize o.regionMaxBlocks),
    o.reserveSize, []⟩

/-- The pool that serves a kind of blocks. -/
def pool (s : MemoryStore) : Pool → MemoryPool
  | .leaf => s.main
  | .index => s.region?.getD s.main

/-- Does something with the pool that serves a kind of blocks. -/
def onPool {α : Type} (kind : Pool) (act : Action MemoryPool α) : Action MemoryStore α :=
  fun s =>
    match kind, s with
    | .index, ⟨main, some region, size, written⟩ =>
      let (r, region) := act region
      (r, ⟨main, some region, size, written⟩)
    | _, ⟨main, region?, size, written⟩ =>
      let (r, main) := act main
      (r, ⟨main, region?, size, written⟩)

/-- Writes the beginning of the reserve. -/
def setReserve (data : Bytes) : Action MemoryStore Unit := do
  let s ← get
  requireReserve data s.reserveSize
  set { s with written := data ++ s.written.drop data.length }

instance : Store MemoryStore where
  blockSize s kind := (s.pool kind).blockSize
  maxBlocks s kind := (s.pool kind).bits.max
  allocate kind data := onPool kind (MemoryPool.allocate kind data)
  read s kind n := (s.pool kind).read kind n
  write kind n data := onPool kind (MemoryPool.write kind n data)
  free kind n := onPool kind (MemoryPool.free kind n)
  isAllocated s kind n := (s.pool kind).bits.get n.toNat
  allocatedCount s kind := (s.pool kind).bits.count
  reserveSize s := s.reserveSize
  reserve s := .ok (s.written.fit s.reserveSize)
  setReserve := setReserve
  sync := pure ()

end MemoryStore

end PagedMap
