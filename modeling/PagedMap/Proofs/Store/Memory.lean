/-
# What stores in memory hold

A pool tells the bytes of its allocated blocks (`MemoryPool.heap`); the heap of a store
is that of its pools, each in its own place (`heapOf`). An operation changes one pool at
one block.

Key definitions: `heapOf`, `MemoryPool.heap`, `MemoryStore.Valid`.
Key theorems: `heapOf_update`, `MemoryStore.allocate_ends`, `MemoryStore.write_ends`.
-/
import PagedMap.Proofs.Store.Bits
import PagedMap.Proofs.Store.Lawful
import PagedMap.Store.Memory

namespace PagedMap

/-! ### Heaps of pools -/

/-- The heap of the pools that serve themselves. -/
def heapOf (g : Shape) (pools : Pool → BlockNumber → Option Bytes) : Heap := fun q =>
  if g.home q.1 = q.1 then pools q.1 q.2 else none

theorem heapOf_home (g : Shape) (pools : Pool → BlockNumber → Option Bytes) (kind : Pool)
    (n : BlockNumber) : heapOf g pools (g.home kind, n) = pools (g.home kind) n :=
  if_pos (g.home_home kind)

/-- What happens at one block of a pool happens there in the heap. -/
theorem heapOf_update {g : Shape} {pools pools' : Pool → BlockNumber → Option Bytes} {kind : Pool}
    {n : BlockNumber} {v : Option Bytes}
    (hhome : pools' (g.home kind) = Function.update (pools (g.home kind)) n v)
    (hrest : ∀ k, g.home k = k → k ≠ g.home kind → pools' k = pools k) :
    heapOf g pools' = Function.update (heapOf g pools) (g.home kind, n) v := by
  funext q
  obtain ⟨k, m⟩ := q
  by_cases hk : k = g.home kind
  · subst hk
    rw [heapOf_home, hhome]
    by_cases hm : m = n
    · subst hm
      rw [Function.update_self, Function.update_self]
    · rw [Function.update_of_ne hm, Function.update_of_ne (by simp [hm]), heapOf_home]
  · rw [Function.update_of_ne (by simp [hk])]
    simp only [heapOf]
    by_cases hown : g.home k = k
    · rw [if_pos hown, if_pos hown, hrest k hown hk]
    · rw [if_neg hown, if_neg hown]

theorem toNat_ofNat_of_le {n max : Nat} (h : n < max) (hmax : max ≤ maxInt32) :
    (UInt32.ofNat n).toNat = n :=
  UInt32.toNat_ofNat_of_lt (Nat.lt_of_lt_of_le h (Nat.le_trans hmax (by decide)))

/-! ### Pools -/

namespace MemoryPool

variable {p p' : MemoryPool} {kind : Pool} {n : BlockNumber} {data : Bytes}

/-- The bytes of the allocated blocks. -/
def heap (p : MemoryPool) (n : BlockNumber) : Option Bytes :=
  if p.bits.get n.toNat then some (p.blocks[n.toNat]?.getD (List.replicate p.blockSize 0)) else none

theorem isSome_heap : (p.heap n).isSome = p.bits.get n.toNat := by
  rw [heap]
  split <;> simp_all

/-- A pool of the same dimensions. -/
structure Alike (p p' : MemoryPool) : Prop where
  blockSize_eq : p'.blockSize = p.blockSize
  max_eq : p'.bits.max = p.bits.max
  valid : p'.bits.Valid

theorem read_eq {bs : Bytes} (h : p.heap n = some bs) : p.read kind n = .ok bs := by
  rw [heap] at h
  split at h
  · next hget =>
    rw [read, check, if_pos hget]
    exact congrArg Except.ok (Option.some.inj h)
  · cases h

theorem put_heap (data : Bytes) (h : p.bits.get n.toNat = true) :
    (p.put n.toNat data).heap = Function.update p.heap n (some (data.fit p.blockSize)) := by
  funext m
  by_cases hm : m = n
  · subst hm
    rw [Function.update_self, heap]
    simp [put, h]
  · have hne : n.toNat ≠ m.toNat := fun heq => hm (UInt32.toNat_inj.1 heq.symm)
    rw [Function.update_of_ne hm, heap, heap]
    simp [put, Std.TreeMap.getElem?_insert, hne]

/-- Writing changes an allocated block, and otherwise fails. -/
theorem write_ends (h : p.bits.Valid) (kind : Pool) (n : BlockNumber) (data : Bytes) :
    Ends (MemoryPool.write kind n data) p (fun _ p' => p' = p ∧ p.heap n = none)
      fun _ p' => Alike p p' ∧
        p'.heap = Function.update p.heap n (some (data.fit p.blockSize)) := by
  rw [MemoryPool.write]
  refine ends_bind_get (ends_bind_check (fun hget => ?_) fun hget => ?_)
  · exact ends_of_ok rfl ⟨⟨rfl, rfl, h⟩, put_heap data hget⟩
  · exact ⟨rfl, by rw [heap, if_neg hget]⟩

/-- Freeing takes an allocated block out of the heap, and otherwise fails. -/
theorem free_ends (h : p.bits.Valid) (kind : Pool) (n : BlockNumber) :
    Ends (MemoryPool.free kind n) p (fun _ p' => p' = p ∧ p.heap n = none)
      fun _ p' => Alike p p' ∧ p'.heap = Function.update p.heap n none := by
  rw [MemoryPool.free]
  refine ends_bind_get (ends_bind_check (fun hget => ?_) fun hget => ?_)
  · refine ends_of_ok rfl ⟨⟨rfl, Bitset.max_clear .., h.clear _⟩, ?_⟩
    funext m
    by_cases hm : m = n
    · subst hm
      rw [Function.update_self, heap, Bitset.get_clear]
      simp
    · have hne : m.toNat ≠ n.toNat := fun heq => hm (UInt32.toNat_inj.1 heq)
      rw [Function.update_of_ne hm, heap, heap, Bitset.get_clear]
      simp [hne]
  · exact ⟨rfl, by rw [heap, if_neg hget]⟩

/-- Allocating puts a block into the heap, unless all blocks are there. -/
theorem allocate_ends (h : p.bits.Valid) (hmax : p.bits.max ≤ maxInt32) (kind : Pool)
    (data : Bytes) :
    Ends (MemoryPool.allocate kind data) p
      (fun e p' => p' = p ∧ e = .outOfSpace kind p.bits.max ∧
        ∀ n : BlockNumber, n.toNat < p.bits.max → (p.heap n).isSome)
      fun n p' => n.toNat < p.bits.max ∧ p.heap n = none ∧ Alike p p' ∧
        p'.heap = Function.update p.heap n (some (data.fit p.blockSize)) := by
  have hspec := Bitset.firstClear?_spec h
  rw [MemoryPool.allocate]
  refine ends_bind_get ?_
  cases hfirst : p.bits.firstClear? with
  | none =>
    rw [hfirst] at hspec
    exact ⟨rfl, rfl, fun n hn => isSome_heap.trans (hspec n.toNat hn)⟩
  | some i =>
    rw [hfirst] at hspec
    obtain ⟨hi, hget, -⟩ := hspec
    have hnat := toNat_ofNat_of_le hi hmax
    have hnone : p.heap (UInt32.ofNat i) = none := by
      rw [heap, hnat, hget]
      rfl
    refine ends_of_ok rfl ⟨by rw [hnat]; exact hi, hnone, ⟨rfl, Bitset.max_set .., h.set hi⟩, ?_⟩
    let q : MemoryPool := { p with bits := p.bits.set i }
    have hq : q.bits.get (UInt32.ofNat i).toNat = true := by
      rw [hnat, Bitset.get_set]
      simp
    have hput := put_heap data hq
    rw [hnat] at hput
    refine hput.trans ?_
    funext m
    by_cases hm : m = UInt32.ofNat i
    · subst hm
      rw [Function.update_self, Function.update_self]
    · have hne : m.toNat ≠ i := fun heq => hm (UInt32.toNat_inj.1 (heq.trans hnat.symm))
      rw [Function.update_of_ne hm, Function.update_of_ne hm, heap, heap]
      simp [q, Bitset.get_set, hne]

end MemoryPool

/-! ### Stores -/

namespace MemoryStore

variable {s : MemoryStore} {kind : Pool} {n : BlockNumber} {p : MemoryPool} {data : Bytes}

/-- The dimensions of a store. -/
def shape (s : MemoryStore) : Shape :=
  ⟨s.region?.isNone, fun kind => (s.pool kind).blockSize, fun kind => (s.pool kind).bits.max,
    s.reserveSize⟩

/-- The blocks of both pools, or of the one that there is. -/
def heap (s : MemoryStore) : Heap := heapOf s.shape fun kind => (s.pool kind).heap

/-- The bytes of the reserve. -/
def reserved (s : MemoryStore) : Bytes := s.written.fit s.reserveSize

/-- What holds of a store that was made with valid options. -/
structure Valid (s : MemoryStore) : Prop where
  shape_valid : s.shape.Valid
  bits_valid : ∀ kind, (s.pool kind).bits.Valid
  written_le : s.written.length ≤ s.reserveSize

/-- The store with another pool for a kind of blocks. -/
def withPool (s : MemoryStore) (kind : Pool) (p : MemoryPool) : MemoryStore :=
  match kind, s.region? with
  | .index, some _ => { s with region? := some p }
  | _, _ => { s with main := p }

theorem onPool_eq {α : Type} (act : Action MemoryPool α) (s : MemoryStore) (kind : Pool) :
    onPool kind act s =
      ((act (s.pool kind)).1, s.withPool kind (act (s.pool kind)).2) := by
  obtain ⟨main, region?, reserveSize, written⟩ := s
  cases kind <;> cases region? <;> rfl

theorem withPool_self (s : MemoryStore) (kind : Pool) : s.withPool kind (s.pool kind) = s := by
  obtain ⟨main, region?, reserveSize, written⟩ := s
  cases kind <;> cases region? <;> rfl

theorem pool_home (s : MemoryStore) (kind : Pool) : s.pool (s.shape.home kind) = s.pool kind := by
  obtain ⟨main, region?, reserveSize, written⟩ := s
  cases kind <;> cases region? <;> rfl

theorem pool_withPool (s : MemoryStore) (kind k : Pool) (p : MemoryPool) :
    (s.withPool kind p).pool k = if s.shape.home k = s.shape.home kind then p else s.pool k := by
  obtain ⟨main, region?, reserveSize, written⟩ := s
  cases kind <;> cases k <;> cases region? <;> rfl

theorem written_withPool (s : MemoryStore) (kind : Pool) (p : MemoryPool) :
    (s.withPool kind p).written = s.written ∧ (s.withPool kind p).reserveSize = s.reserveSize := by
  obtain ⟨main, region?, reserveSize, written⟩ := s
  cases kind <;> cases region? <;> exact ⟨rfl, rfl⟩

theorem pool_eq_of_home {k : Pool} (h : s.shape.home k = s.shape.home kind) :
    s.pool k = s.pool kind := by
  rw [← pool_home, h, pool_home]

theorem shape_withPool (h : (s.pool kind).Alike p) : (s.withPool kind p).shape = s.shape := by
  have hshared : (s.withPool kind p).region?.isNone = s.region?.isNone := by
    obtain ⟨main, region?, reserveSize, written⟩ := s
    cases kind <;> cases region? <;> rfl
  rw [shape, shape, Shape.mk.injEq]
  refine ⟨hshared, funext fun k => ?_, funext fun k => ?_, (written_withPool s kind p).2⟩
  · rw [pool_withPool]
    split
    · next hk => rw [h.blockSize_eq, pool_eq_of_home hk]
    · rfl
  · rw [pool_withPool]
    split
    · next hk => rw [h.max_eq, pool_eq_of_home hk]
    · rfl

/-- A change of one block of a pool is a change of the heap at this block. -/
theorem changed {v : Option Bytes} (h : s.Valid) (hp : (s.pool kind).Alike p)
    (hheap : p.heap = Function.update (s.pool kind).heap n v) :
    (s.withPool kind p).Valid ∧ (s.withPool kind p).shape = s.shape ∧
      (s.withPool kind p).reserved = s.reserved ∧
      (s.withPool kind p).heap = Function.update s.heap (s.shape.home kind, n) v := by
  have hshape := shape_withPool hp
  obtain ⟨hwritten, hreserve⟩ := written_withPool s kind p
  refine ⟨⟨hshape ▸ h.shape_valid, fun k => ?_, ?_⟩, hshape, ?_, ?_⟩
  · rw [pool_withPool]
    split
    · exact hp.valid
    · exact h.bits_valid k
  · rw [hwritten, hreserve]
    exact h.written_le
  · rw [reserved, hwritten, hreserve]
    rfl
  · rw [heap, hshape]
    refine heapOf_update ?_ fun k hk hne => ?_
    · rw [pool_withPool, if_pos (s.shape.home_home kind), hheap, pool_home]
    · rw [pool_withPool, if_neg (by rw [hk]; exact hne)]

theorem heap_home (s : MemoryStore) (kind : Pool) (n : BlockNumber) :
    s.heap (s.shape.home kind, n) = (s.pool kind).heap n := by
  rw [heap, heapOf_home, pool_home]

theorem onPool_ends {α : Type} {act : Action MemoryPool α} {E : Error → MemoryPool → Prop}
    {Q : α → MemoryPool → Prop} (h : Ends act (s.pool kind) E Q) :
    Ends (onPool kind act) s (fun e s' => ∃ p, s' = s.withPool kind p ∧ E e p)
      fun a s' => ∃ p, s' = s.withPool kind p ∧ Q a p := by
  rw [Ends] at h ⊢
  rw [onPool_eq]
  cases hrun : act (s.pool kind) with
  | mk r p =>
    rw [hrun] at h
    cases r with
    | ok a => exact ⟨p, rfl, h⟩
    | error e => exact ⟨p, rfl, h⟩

/-- Writing changes an allocated block, and otherwise fails. -/
theorem write_ends (h : s.Valid) (kind : Pool) (n : BlockNumber) (data : Bytes) :
    Ends (Store.write kind n data) s (fun _ s' => s' = s ∧ s.heap (s.shape.home kind, n) = none)
      fun _ s' => s'.Valid ∧ s'.shape = s.shape ∧ s'.reserved = s.reserved ∧
        s'.heap = Function.update s.heap (s.shape.home kind, n)
          (some (data.fit (s.shape.blockSize kind))) := by
  refine (onPool_ends (MemoryPool.write_ends (h.bits_valid kind) kind n data)).mono ?_ ?_
  · rintro e _ ⟨p, rfl, rfl, hnone⟩
    exact ⟨withPool_self s kind, (heap_home s kind n).trans hnone⟩
  · rintro - _ ⟨p, rfl, hp, hheap⟩
    exact changed h hp hheap

/-- Freeing takes an allocated block out of the heap, and otherwise fails. -/
theorem free_ends (h : s.Valid) (kind : Pool) (n : BlockNumber) :
    Ends (Store.free kind n) s (fun _ s' => s' = s ∧ s.heap (s.shape.home kind, n) = none)
      fun _ s' => s'.Valid ∧ s'.shape = s.shape ∧ s'.reserved = s.reserved ∧
        s'.heap = Function.update s.heap (s.shape.home kind, n) none := by
  refine (onPool_ends (MemoryPool.free_ends (h.bits_valid kind) kind n)).mono ?_ ?_
  · rintro e _ ⟨p, rfl, rfl, hnone⟩
    exact ⟨withPool_self s kind, (heap_home s kind n).trans hnone⟩
  · rintro - _ ⟨p, rfl, hp, hheap⟩
    exact changed h hp hheap

/-- Allocating puts a block into the heap, unless all blocks are there. -/
theorem allocate_ends (h : s.Valid) (kind : Pool) (data : Bytes) :
    Ends (Store.allocate kind data) s
      (fun e s' => s' = s ∧ e = .outOfSpace kind (s.shape.maxBlocks kind) ∧
        ∀ n : BlockNumber, n.toNat < s.shape.maxBlocks kind →
          (s.heap (s.shape.home kind, n)).isSome)
      fun n s' => n.toNat < s.shape.maxBlocks kind ∧ s.heap (s.shape.home kind, n) = none ∧
        s'.Valid ∧ s'.shape = s.shape ∧ s'.reserved = s.reserved ∧
        s'.heap = Function.update s.heap (s.shape.home kind, n)
          (some (data.fit (s.shape.blockSize kind))) := by
  refine (onPool_ends (MemoryPool.allocate_ends (h.bits_valid kind)
    (h.shape_valid.maxBlocks_le kind) kind data)).mono ?_ ?_
  · rintro e _ ⟨p, rfl, rfl, he, hall⟩
    refine ⟨withPool_self s kind, he, fun n hn => ?_⟩
    rw [heap_home]
    exact hall n hn
  · rintro n _ ⟨p, rfl, hn, hnone, hp, hheap⟩
    exact ⟨hn, (heap_home s kind n).trans hnone, changed h hp hheap⟩

theorem fit_append_drop {data w : Bytes} {m : Nat} (hdata : data.length ≤ m) (hw : w.length ≤ m) :
    Bytes.fit m (data ++ w.drop data.length) = data ++ (Bytes.fit m w).drop data.length := by
  have hlen : (data ++ w.drop data.length).length ≤ m := by
    rw [List.length_append, List.length_drop]
    omega
  rw [Bytes.fit_eq hlen, Bytes.fit_eq hw, List.drop_append, List.drop_replicate, List.append_assoc,
    List.length_append, List.length_drop]
  congr 3
  omega

/-- Writing the reserve changes its beginning, and fails if it is too short. -/
theorem setReserve_ends (h : s.Valid) (data : Bytes) :
    Ends (Store.setReserve data) s (fun _ s' => s' = s ∧ s.reserveSize < data.length)
      fun _ s' => s'.Valid ∧ s'.shape = s.shape ∧ s'.heap = s.heap ∧
        s'.reserved = data ++ s.reserved.drop data.length := by
  change Ends (MemoryStore.setReserve data) s _ _
  rw [MemoryStore.setReserve]
  refine ends_bind_get (ends_bind_check (fun hdata => ?_) fun hdata => ?_)
  · refine ends_of_ok rfl ⟨⟨h.shape_valid, h.bits_valid, ?_⟩, rfl, rfl,
      fit_append_drop hdata h.written_le⟩
    have := h.written_le
    simp only [List.length_append, List.length_drop]
    omega
  · exact ⟨rfl, Nat.lt_of_not_le hdata⟩

end MemoryStore

end PagedMap
