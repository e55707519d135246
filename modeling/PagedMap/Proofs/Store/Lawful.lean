/-
# What a store promises

A lawful store has a shape that never changes, a heap that tells the bytes of
its allocated blocks, and a reserve. Its operations change the heap at the one
block they are about, and nothing else. An allocation fails only if the pool is
full. The promises hold of data that is no longer than a block.

Key definitions: `Shape`, `LawfulStore`.
-/
import PagedMap.Options
import PagedMap.Proofs.Action
import PagedMap.Proofs.Store.Heap
import PagedMap.Store.Basic

namespace PagedMap

/-- What never changes of a store. -/
structure Shape where
  /-- Whether both kinds of blocks are in one pool. -/
  isShared : Bool
  blockSize : Pool → Nat
  maxBlocks : Pool → Nat
  reserveSize : Nat

namespace Shape

/-- The pool that serves a kind of blocks. -/
def home (g : Shape) : Pool → Pool
  | .leaf => .leaf
  | .index => if g.isShared then .leaf else .index

/-- The sizes and counts that valid options give. -/
structure Valid (g : Shape) : Prop where
  minBlockSize_le : ∀ kind, minBlockSize ≤ g.blockSize kind
  blockSize_le : ∀ kind, g.blockSize kind ≤ maxInt32
  maxBlocks_le : ∀ kind, g.maxBlocks kind ≤ maxInt32
  descriptorSize_le : descriptorSize ≤ g.reserveSize
  blockSize_home : ∀ kind, g.blockSize (g.home kind) = g.blockSize kind

theorem home_home (g : Shape) (kind : Pool) : g.home (g.home kind) = g.home kind := by
  cases kind with
  | leaf => rfl
  | index => cases h : g.isShared <;> simp [home, h]

end Shape

/-- A store that keeps its promises while it is in a valid state. -/
class LawfulStore (σ : Type) [Store σ] where
  /-- The states that operations lead to. -/
  Valid : σ → Prop
  shape : σ → Shape
  heap : σ → Heap
  reserved : σ → Bytes
  shape_valid {s : σ} : Valid s → (shape s).Valid
  blockSize_eq (s : σ) (kind : Pool) : Store.blockSize s kind = (shape s).blockSize kind
  reserveSize_eq (s : σ) : Store.reserveSize s = (shape s).reserveSize
  reserve_eq {s : σ} : Valid s → Store.reserve s = .ok (reserved s)
  length_reserved {s : σ} : Valid s → (reserved s).length = (shape s).reserveSize
  isAllocated_eq {s : σ} : Valid s → ∀ kind n,
    Store.isAllocated s kind n = (heap s ((shape s).home kind, n)).isSome
  read_eq {s : σ} : Valid s → ∀ {kind n bs}, heap s ((shape s).home kind, n) = some bs →
    Store.read s kind n = .ok bs
  write_ends {s : σ} : Valid s → ∀ {kind n data}, data.length ≤ (shape s).blockSize kind →
    (heap s ((shape s).home kind, n)).isSome → ∃ s', Store.write kind n data s = (.ok (), s') ∧
      Valid s' ∧ shape s' = shape s ∧ reserved s' = reserved s ∧
      heap s' = Function.update (heap s) ((shape s).home kind, n)
        (some (data.fit ((shape s).blockSize kind)))
  free_ends {s : σ} : Valid s → ∀ {kind n}, Ends (Store.free kind n) s
    (fun _ s' => s' = s ∧ heap s ((shape s).home kind, n) = none)
    (fun _ s' => Valid s' ∧ shape s' = shape s ∧ reserved s' = reserved s ∧
      heap s' = Function.update (heap s) ((shape s).home kind, n) none)
  allocate_ends {s : σ} : Valid s → ∀ {kind data}, data.length ≤ (shape s).blockSize kind →
    Ends (Store.allocate kind data) s
      (fun e s' => s' = s ∧ e = .outOfSpace kind ((shape s).maxBlocks kind) ∧
        ∀ n : BlockNumber, n.toNat < (shape s).maxBlocks kind →
          (heap s ((shape s).home kind, n)).isSome)
      (fun n s' => n.toNat < (shape s).maxBlocks kind ∧ heap s ((shape s).home kind, n) = none ∧
        Valid s' ∧ shape s' = shape s ∧ reserved s' = reserved s ∧
        heap s' = Function.update (heap s) ((shape s).home kind, n)
          (some (data.fit ((shape s).blockSize kind))))
  setReserve_ends {s : σ} : Valid s → ∀ {data : Bytes}, data.length ≤ (shape s).reserveSize →
    ∃ s', Store.setReserve data s = (.ok (), s') ∧
      Valid s' ∧ shape s' = shape s ∧ heap s' = heap s ∧
      reserved s' = data ++ (reserved s).drop data.length
  sync_eq (s : σ) : Store.sync s = (.ok (), s)

end PagedMap
