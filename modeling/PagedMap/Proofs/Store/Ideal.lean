/-
# What is seen of a store

Of a store no more is seen than its shape, its allocated blocks and its reserve. An
ideal store is just these three: it allocates the lowest free block, refuses blocks
that are not allocated, and loses nothing. `StoreCall` lists all that can be asked of a
store.

Key definitions: `Ideal`, `StoreCall`, `StoreCall.run`.
Key theorems: `Ideal.allocate_full`, `Ideal.allocate_lowest`.
-/
import PagedMap.Proofs.Agreement
import PagedMap.Proofs.Store.Lawful

namespace PagedMap

/-- A store as it is seen from outside. -/
structure Ideal where
  shape : Shape
  /-- The allocated blocks. -/
  heap : Heap
  /-- The bytes of the reserve. -/
  reserved : Bytes

namespace Ideal

/-- Whether a block is allocated. -/
def holds (s : Ideal) (kind : Pool) (n : BlockNumber) : Bool :=
  (s.heap (s.shape.home kind, n)).isSome

/-- The numbers of a pool's blocks in ascending order. -/
def numbers (s : Ideal) (kind : Pool) : List BlockNumber :=
  (List.range (s.shape.maxBlocks kind)).map UInt32.ofNat

/-- The lowest block that is not allocated. -/
def lowestFree? (s : Ideal) (kind : Pool) : Option BlockNumber :=
  (s.numbers kind).find? fun n => !s.holds kind n

/-- The store with other bytes for a block, or without the block. -/
def put (s : Ideal) (kind : Pool) (n : BlockNumber) (v : Option Bytes) : Ideal :=
  { s with heap := Function.update s.heap (s.shape.home kind, n) v }

/-- Refuses a block that is not allocated. -/
def check (s : Ideal) (kind : Pool) (n : BlockNumber) : Except Error Unit :=
  if s.holds kind n then .ok () else .error (.notAllocated kind n)

/-- Allocates and writes the lowest free block. -/
def allocate (kind : Pool) (data : Bytes) : Action Ideal BlockNumber := do
  let s ← get
  match s.lowestFree? kind with
  | none => throw (.outOfSpace kind (s.shape.maxBlocks kind))
  | some n =>
    set (s.put kind n (some (data.fit (s.shape.blockSize kind))))
    return n

/-- The bytes of an allocated block. -/
def read (s : Ideal) (kind : Pool) (n : BlockNumber) : Except Error Bytes :=
  match s.heap (s.shape.home kind, n) with
  | some bs => .ok bs
  | none => .error (.notAllocated kind n)

/-- Writes an allocated block. -/
def write (kind : Pool) (n : BlockNumber) (data : Bytes) : Action Ideal Unit := do
  let s ← get
  s.check kind n
  set (s.put kind n (some (data.fit (s.shape.blockSize kind))))

/-- Frees an allocated block. -/
def free (kind : Pool) (n : BlockNumber) : Action Ideal Unit := do
  let s ← get
  s.check kind n
  set (s.put kind n none)

/-- Writes the beginning of the reserve. -/
def setReserve (data : Bytes) : Action Ideal Unit := do
  let s ← get
  requireReserve data s.shape.reserveSize
  set { s with reserved := data ++ s.reserved.drop data.length }

instance : Store Ideal where
  blockSize s := s.shape.blockSize
  maxBlocks s := s.shape.maxBlocks
  allocate := allocate
  read := read
  write := write
  free := free
  isAllocated := holds
  allocatedCount s kind := (s.numbers kind).countP (s.holds kind)
  reserveSize s := s.shape.reserveSize
  reserve s := .ok s.reserved
  setReserve := setReserve
  sync := pure ()

variable {s : Ideal} {kind : Pool} {n : BlockNumber} {data : Bytes}

theorem find?_map_range {α : Type} {f : Nat → α} {p : α → Bool} {i max : Nat} (hi : i < max)
    (hp : p (f i)) (hbelow : ∀ j < i, ¬ p (f j)) :
    ((List.range max).map f).find? p = some (f i) := by
  rw [List.find?_map, List.find?_range_eq_some.2 ⟨hp, List.mem_range.2 hi, fun j hj => ?_⟩]
  · rfl
  · rw [Function.comp_apply, Bool.not_eq_eq_eq_not, Bool.not_true]
    exact Bool.eq_false_iff.2 (hbelow j hj)

/-- If all blocks of a pool are allocated, none is given. -/
theorem allocate_full (data : Bytes) (h : ∀ n : BlockNumber, n.toNat < s.shape.maxBlocks kind →
    (s.heap (s.shape.home kind, n)).isSome) :
    allocate kind data s = (.error (.outOfSpace kind (s.shape.maxBlocks kind)), s) := by
  have hnone : s.lowestFree? kind = none := by
    refine List.find?_eq_none.2 fun n hn hfree => ?_
    obtain ⟨i, hi, rfl⟩ := List.mem_map.1 hn
    have hheld := h (UInt32.ofNat i) (Nat.lt_of_le_of_lt (Nat.mod_le ..) (List.mem_range.1 hi))
    rw [holds, hheld] at hfree
    cases hfree
  rw [allocate, bind_eq, get_eq]
  dsimp only
  rw [hnone]
  rfl

/-- A free block below which all are allocated is given. -/
theorem allocate_lowest (data : Bytes) (hn : n.toNat < s.shape.maxBlocks kind)
    (hfree : s.heap (s.shape.home kind, n) = none)
    (hbelow : ∀ m : BlockNumber, m.toNat < n.toNat → (s.heap (s.shape.home kind, m)).isSome) :
    allocate kind data s =
      (.ok n, s.put kind n (some (data.fit (s.shape.blockSize kind)))) := by
  have hsome : s.lowestFree? kind = some n := by
    have hfind := find?_map_range (f := UInt32.ofNat) (p := fun n => !s.holds kind n) hn
      (by rw [UInt32.ofNat_toNat, holds, hfree]; rfl) fun j hj => ?_
    · rw [UInt32.ofNat_toNat] at hfind
      exact hfind
    · have hnat : (UInt32.ofNat j).toNat = j :=
        UInt32.toNat_ofNat_of_lt' (Nat.lt_trans hj n.toNat_lt)
      rw [holds, hbelow (UInt32.ofNat j) (by rw [hnat]; exact hj)]
      exact Bool.false_ne_true
  rw [allocate, bind_eq, get_eq]
  dsimp only
  rw [hsome]
  rfl

theorem read_held {bs : Bytes} (h : s.heap (s.shape.home kind, n) = some bs) :
    s.read kind n = .ok bs := by
  rw [read, h]

theorem read_missing (h : s.heap (s.shape.home kind, n) = none) :
    s.read kind n = .error (.notAllocated kind n) := by
  rw [read, h]

theorem check_eq (s : Ideal) (kind : Pool) (n : BlockNumber) : s.check kind n =
    if (s.heap (s.shape.home kind, n)).isSome then .ok () else .error (.notAllocated kind n) :=
  rfl

theorem write_held (data : Bytes) (h : (s.heap (s.shape.home kind, n)).isSome) :
    write kind n data s =
      (.ok (), s.put kind n (some (data.fit (s.shape.blockSize kind)))) := by
  rw [write, bind_eq, get_eq]
  dsimp only
  rw [check_eq, if_pos h]
  rfl

theorem write_missing (data : Bytes) (h : s.heap (s.shape.home kind, n) = none) :
    write kind n data s = (.error (.notAllocated kind n), s) := by
  rw [write, bind_eq, get_eq]
  dsimp only
  rw [check_eq, h]
  rfl

theorem free_held (h : (s.heap (s.shape.home kind, n)).isSome) :
    free kind n s = (.ok (), s.put kind n none) := by
  rw [free, bind_eq, get_eq]
  dsimp only
  rw [check_eq, if_pos h]
  rfl

theorem free_missing (h : s.heap (s.shape.home kind, n) = none) :
    free kind n s = (.error (.notAllocated kind n), s) := by
  rw [free, bind_eq, get_eq]
  dsimp only
  rw [check_eq, h]
  rfl

theorem setReserve_of_le (h : data.length ≤ s.shape.reserveSize) : setReserve data s =
    (.ok (), { s with reserved := data ++ s.reserved.drop data.length }) := by
  rw [setReserve, bind_eq, get_eq]
  dsimp only
  rw [requireReserve, if_pos h]
  rfl

theorem setReserve_of_lt (h : s.shape.reserveSize < data.length) : setReserve data s =
    (.error (.invalidArgument (.reserveData data.length s.shape.reserveSize)), s) := by
  rw [setReserve, bind_eq, get_eq]
  dsimp only
  rw [requireReserve, if_neg (Nat.not_le.2 h)]
  rfl

end Ideal

/-! ### All that can be asked of a store -/

/-- What can be asked of a store. -/
inductive StoreCall where
  | allocate (kind : Pool) (data : Bytes)
  | read (kind : Pool) (n : BlockNumber)
  | write (kind : Pool) (n : BlockNumber) (data : Bytes)
  | free (kind : Pool) (n : BlockNumber)
  | isAllocated (kind : Pool) (n : BlockNumber)
  | allocatedCount (kind : Pool)
  | reserve
  | setReserve (data : Bytes)
  | sync

/-- What a store answers. -/
inductive StoreAnswer where
  | block (n : BlockNumber)
  | bytes (bs : Bytes)
  | flag (b : Bool)
  | count (n : Nat)
  | done
  deriving DecidableEq

/-- Asks a store. -/
def StoreCall.run {σ : Type} [Store σ] : StoreCall → Action σ StoreAnswer
  | .allocate kind data => do
    let n ← Store.allocate kind data
    return .block n
  | .read kind n => do
    let s ← get
    let bs ← Store.read s kind n
    return .bytes bs
  | .write kind n data => do
    Store.write kind n data
    return .done
  | .free kind n => do
    Store.free kind n
    return .done
  | .isAllocated kind n => do
    let s ← get
    return .flag (Store.isAllocated s kind n)
  | .allocatedCount kind => do
    let s ← get
    return .count (Store.allocatedCount s kind)
  | .reserve => do
    let s ← get
    let bs ← Store.reserve s
    return .bytes bs
  | .setReserve data => do
    Store.setReserve data
    return .done
  | .sync => do
    Store.sync
    return .done

end PagedMap
