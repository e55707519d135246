/-
# Block stores

A store hands out numbered blocks of fixed size from two pools, leaf and index,
and keeps a small reserve for its user. The pools may be one: then both kinds
of blocks share the numbers, the size and the space. The lowest free number is
handed out first. A block may be read, written and freed only while it is
allocated.

Key definitions: `Store`, `requireReserve`.
-/
import PagedMap.Error

namespace PagedMap

/-- What a store can do. -/
class Store (σ : Type) where
  /-- The size of a pool's blocks. -/
  blockSize : σ → Pool → Nat
  /-- The number of a pool's blocks. -/
  maxBlocks : σ → Pool → Nat
  /-- Allocates the lowest free block and writes it, cut or filled up with zeros
  to the size of the block. -/
  allocate : Pool → Bytes → Action σ BlockNumber
  /-- The bytes of an allocated block. -/
  read : σ → Pool → BlockNumber → Except Error Bytes
  /-- Writes an allocated block, cut or filled up with zeros. -/
  write : Pool → BlockNumber → Bytes → Action σ Unit
  /-- Frees an allocated block. Its bytes stay. -/
  free : Pool → BlockNumber → Action σ Unit
  /-- Whether a block is allocated. -/
  isAllocated : σ → Pool → BlockNumber → Bool
  /-- The number of a pool's allocated blocks. -/
  allocatedCount : σ → Pool → Nat
  /-- The size of the reserve. -/
  reserveSize : σ → Nat
  /-- The bytes of the reserve. -/
  reserve : σ → Except Error Bytes
  /-- Writes the beginning of the reserve. -/
  setReserve : Bytes → Action σ Unit
  /-- Waits until all is on durable storage. -/
  sync : Action σ Unit

/-- Refuses data that is longer than a reserve. -/
def requireReserve (data : Bytes) (size : Nat) : Except Error Unit :=
  if data.length ≤ size then .ok ()
  else .error (.invalidArgument (.reserveData data.length size))

end PagedMap
