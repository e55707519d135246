/-
# Stores of any kind keep their promises

A store of any kind is lawful while it is valid. A store that was just made with
accepted options is valid, holds no block and has a reserve of zeros
(`Device.Fresh.blank`); it stays valid whatever is done to it (`Device.Used.valid`).

Key definitions: `Device.Valid`, `Device.Fresh`, `Device.Used`.
Key theorems: `Device.allocate_ends`, `Device.Fresh.blank`, `Device.Used.valid`.
-/
import PagedMap.Proofs.Store.Layout
import PagedMap.Store.Device

namespace PagedMap.Device

variable {s s' : Device} {kind : Pool} {n : BlockNumber} {data : Bytes} {o : Options}

/-- What holds of a store that was made with valid options. -/
def Valid : Device → Prop
  | .memory s => s.Valid
  | .file _ s => s.Valid

/-- The dimensions of a store. -/
def shape : Device → Shape
  | .memory s => s.shape
  | .file _ s => s.shape

/-- The allocated blocks. -/
def heap : Device → Heap
  | .memory s => s.heap
  | .file _ s => s.heap

/-- The bytes of the reserve. -/
def reserved : Device → Bytes
  | .memory s => s.reserved
  | .file _ s => s.reserved

theorem Valid.shape_valid (h : s.Valid) : s.shape.Valid := by
  cases s with
  | memory m => exact MemoryStore.Valid.shape_valid h
  | file id f => exact FileStore.Valid.shape_valid h

/-- What one of the two actions does is done. -/
theorem dispatch_ends {α : Type} {onMemory : Action MemoryStore α} {onFile : Action FileStore α}
    {E : Error → Device → Prop} {Q : α → Device → Prop}
    (hmemory : ∀ m, s = .memory m →
      Ends onMemory m (fun e m' => E e (.memory m')) fun a m' => Q a (.memory m'))
    (hfile : ∀ id f, s = .file id f →
      Ends onFile f (fun e f' => E e (.file id f')) fun a f' => Q a (.file id f')) :
    Ends (dispatch onMemory onFile) s E Q := by
  cases s with
  | memory m =>
    have h := hmemory m rfl
    rw [Ends] at h ⊢
    rw [dispatch]
    cases hrun : onMemory m with
    | mk r m' =>
      rw [hrun] at h
      cases r <;> exact h
  | file id f =>
    have h := hfile id f rfl
    rw [Ends] at h ⊢
    rw [dispatch]
    cases hrun : onFile f with
    | mk r f' =>
      rw [hrun] at h
      cases r <;> exact h

/-- If each of the two actions leaves its store as it was where it fails, so does what is
done. -/
theorem dispatch_ends_same {α : Type} {onMemory : Action MemoryStore α}
    {onFile : Action FileStore α} {E : Error → Prop} {Q : α → Device → Prop}
    (hmemory : ∀ m, s = .memory m →
      Ends onMemory m (fun e m' => m' = m ∧ E e) fun a m' => Q a (.memory m'))
    (hfile : ∀ id f, s = .file id f →
      Ends onFile f (fun e f' => f' = f ∧ E e) fun a f' => Q a (.file id f')) :
    Ends (dispatch onMemory onFile) s (fun e s' => s' = s ∧ E e) Q := by
  refine dispatch_ends ?_ ?_
  · rintro m rfl
    exact (hmemory m rfl).imp_error fun _ _ ⟨hm, he⟩ => ⟨congrArg memory hm, he⟩
  · rintro id f rfl
    exact (hfile id f rfl).imp_error fun _ _ ⟨hf, he⟩ => ⟨congrArg (file id) hf, he⟩

/-- What a change of one block leaves as it was, and what it makes of the heap. -/
structure Changed (s : Device) (kind : Pool) (n : BlockNumber) (v : Option Bytes) (s' : Device) :
    Prop where
  valid : s'.Valid
  shape_eq : s'.shape = s.shape
  reserved_eq : s'.reserved = s.reserved
  heap_eq : s'.heap = Function.update s.heap (s.shape.home kind, n) v

/-- Writing changes an allocated block, and otherwise fails. -/
theorem write_ends (h : s.Valid) (kind : Pool) (n : BlockNumber) (data : Bytes) :
    Ends (Store.write kind n data) s (fun _ s' => s' = s ∧ s.heap (s.shape.home kind, n) = none)
      fun _ s' => s.Changed kind n (some (data.fit (s.shape.blockSize kind))) s' := by
  refine dispatch_ends_same ?_ ?_
  · rintro m rfl
    exact (MemoryStore.write_ends h kind n data).imp fun _ _ ⟨hvalid, hshape, hreserved, hheap⟩ =>
      ⟨hvalid, hshape, hreserved, hheap⟩
  · rintro id f rfl
    exact (FileStore.write_ends h kind n data).imp fun _ _ ⟨hvalid, hshape, hreserved, hheap⟩ =>
      ⟨hvalid, hshape, hreserved, hheap⟩

/-- Freeing takes an allocated block out of the heap, and otherwise fails. -/
theorem free_ends (h : s.Valid) (kind : Pool) (n : BlockNumber) :
    Ends (Store.free kind n) s (fun _ s' => s' = s ∧ s.heap (s.shape.home kind, n) = none)
      fun _ s' => s.Changed kind n none s' := by
  refine dispatch_ends_same ?_ ?_
  · rintro m rfl
    exact (MemoryStore.free_ends h kind n).imp fun _ _ ⟨hvalid, hshape, hreserved, hheap⟩ =>
      ⟨hvalid, hshape, hreserved, hheap⟩
  · rintro id f rfl
    exact (FileStore.free_ends h kind n).imp fun _ _ ⟨hvalid, hshape, hreserved, hheap⟩ =>
      ⟨hvalid, hshape, hreserved, hheap⟩

/-- Allocating puts a block into the heap, unless all blocks are there. -/
theorem allocate_ends (h : s.Valid) (kind : Pool) (data : Bytes) :
    Ends (Store.allocate kind data) s
      (fun e s' => s' = s ∧ e = .outOfSpace kind (s.shape.maxBlocks kind) ∧
        ∀ n : BlockNumber, n.toNat < s.shape.maxBlocks kind →
          (s.heap (s.shape.home kind, n)).isSome)
      fun n s' => n.toNat < s.shape.maxBlocks kind ∧ s.heap (s.shape.home kind, n) = none ∧
        s.Changed kind n (some (data.fit (s.shape.blockSize kind))) s' := by
  refine dispatch_ends_same ?_ ?_
  · rintro m rfl
    refine (MemoryStore.allocate_ends h kind data).imp ?_
    rintro n m' ⟨hn, hnone, hvalid, hshape, hreserved, hheap⟩
    exact ⟨hn, hnone, hvalid, hshape, hreserved, hheap⟩
  · rintro id f rfl
    refine (FileStore.allocate_ends h kind data).imp ?_
    rintro n f' ⟨hn, hnone, hvalid, hshape, hreserved, hheap⟩
    exact ⟨hn, hnone, hvalid, hshape, hreserved, hheap⟩

/-- Writing the reserve changes its beginning, and fails if it is too short. -/
theorem setReserve_ends (h : s.Valid) (data : Bytes) :
    Ends (Store.setReserve data) s (fun _ s' => s' = s ∧ s.shape.reserveSize < data.length)
      fun _ s' => s'.Valid ∧ s'.shape = s.shape ∧ s'.heap = s.heap ∧
        s'.reserved = data ++ s.reserved.drop data.length := by
  refine dispatch_ends_same ?_ ?_
  · rintro m rfl
    exact MemoryStore.setReserve_ends h data
  · rintro id f rfl
    exact FileStore.setReserve_ends h data

/-- Stores of any kind are lawful while they are valid. -/
instance : LawfulStore Device where
  Valid := Valid
  shape := shape
  heap := heap
  reserved := reserved
  shape_valid := Valid.shape_valid
  blockSize_eq s _ := by cases s <;> rfl
  reserveSize_eq s := by cases s <;> rfl
  reserve_eq {s} h := by
    cases s with
    | memory m => rfl
    | file id f => exact FileStore.reserve_eq h
  length_reserved {s} h := by
    cases s with
    | memory m => exact Bytes.length_fit ..
    | file id f =>
      have := FileStore.Valid.size_ge h
      have := (FileStore.Valid.sections h).reserve
      exact File.length_window (by omega)
  isAllocated_eq {s} h kind n := by
    cases s with
    | memory m =>
      change _ = (m.heap (m.shape.home kind, n)).isSome
      rw [MemoryStore.heap_home, MemoryPool.isSome_heap]
      rfl
    | file id f =>
      change (f.pool kind).bits.get n.toNat = (f.heap (f.shape.home kind, n)).isSome
      rw [FileStore.heap_home, FileStore.poolHeap]
      split
      · assumption
      · next hget => exact Bool.eq_false_iff.2 hget
  read_eq {s} h kind n bs hbs := by
    cases s with
    | memory m => exact MemoryPool.read_eq ((MemoryStore.heap_home m kind n).symm.trans hbs)
    | file id f => exact FileStore.read_eq h hbs
  write_ends {s} h kind n data _ hsome := by
    have hends := write_ends h kind n data
    rw [Ends] at hends
    split at hends
    · next s' hrun =>
      exact ⟨s', hrun, hends.valid, hends.shape_eq, hends.reserved_eq, hends.heap_eq⟩
    · rw [hends.2] at hsome
      cases hsome
  free_ends h kind n := (free_ends h kind n).imp fun _ _ hchanged =>
    ⟨hchanged.valid, hchanged.shape_eq, hchanged.reserved_eq, hchanged.heap_eq⟩
  allocate_ends {s} h kind data _ :=
    (allocate_ends h kind data).imp fun _ _ ⟨hn, hnone, hchanged⟩ =>
      ⟨hn, hnone, hchanged.valid, hchanged.shape_eq, hchanged.reserved_eq, hchanged.heap_eq⟩
  setReserve_ends {s} h data hlen := by
    have hends := setReserve_ends h data
    rw [Ends] at hends
    split at hends
    · next s' hrun => exact ⟨s', hrun, hends⟩
    · exact absurd hlen (Nat.not_le.2 hends.2)
  sync_eq s := by cases s <;> rfl

/-! ### Stores that were just made -/

/-- The stores that opening makes with accepted options. -/
inductive Fresh (o : Options) : Device → Prop
  | shared {m : MemoryStore} : MemoryStore.shared o = .ok m → Fresh o (.memory m)
  | split {m : MemoryStore} : MemoryStore.split o = .ok m → Fresh o (.memory m)
  | file {h : Header} {f : File} {path : String} {id : FileId} {s : FileStore} :
      o.validate = .ok () → Header.plain o = .ok h ∨ Header.split o = .ok h → f.size = 0 →
      FileStore.create path h f = .ok s → Fresh o (.file id s)

/-- A valid store without blocks whose reserve is of zeros. -/
structure Blank (s : Device) : Prop where
  valid : s.Valid
  maxBlocks_pos : 0 < s.shape.maxBlocks .leaf
  heap_eq : s.heap = fun _ => none
  reserved_eq : s.reserved = List.replicate s.shape.reserveSize 0

theorem of_validated {α : Type} {a b : α} (h : (do o.validate; return a) = Except.ok b) :
    o.Fits ∧ b = a := by
  cases hrun : o.validate with
  | error e =>
    rw [hrun] at h
    cases h
  | ok =>
    rw [hrun] at h
    exact ⟨Options.validate_eq.1 hrun, (Except.ok.inj h).symm⟩

theorem heap_memory {m : MemoryStore} (h : ∀ kind n, (m.pool kind).bits.get n = false) :
    m.heap = fun _ => none := by
  funext q
  rw [MemoryStore.heap, heapOf]
  split
  · rw [MemoryPool.heap, h]
    rfl
  · rfl

/-- A store that was just made holds no block. -/
theorem Fresh.blank (h : Fresh o s) : s.Blank := by
  cases h with
  | shared hmade =>
    obtain ⟨⟨hblock, -, hmax, -, hreserve⟩, rfl⟩ := of_validated hmade
    refine ⟨⟨⟨fun kind => ?_, fun kind => ?_, fun kind => ?_, hreserve.1, fun kind => ?_⟩,
      fun kind => ?_, Nat.zero_le _⟩, hmax.1, heap_memory fun kind n => ?_,
      Bytes.fit_eq (Nat.zero_le _)⟩ <;> cases kind
    exacts [hblock.1, hblock.1, hblock.2, hblock.2, hmax.2, hmax.2, rfl, rfl,
      Bitset.valid_empty _, Bitset.valid_empty _, Bitset.get_empty .., Bitset.get_empty ..]
  | split hmade =>
    obtain ⟨⟨hblock, hregion, hmax, hregionMax, hreserve⟩, rfl⟩ := of_validated hmade
    refine ⟨⟨⟨fun kind => ?_, fun kind => ?_, fun kind => ?_, hreserve.1, fun kind => ?_⟩,
      fun kind => ?_, Nat.zero_le _⟩, hmax.1, heap_memory fun kind n => ?_,
      Bytes.fit_eq (Nat.zero_le _)⟩ <;> cases kind
    exacts [hblock.1, hregion.1, hblock.2, hregion.2, hmax.2, hregionMax.2, rfl, rfl,
      Bitset.valid_empty _, Bitset.valid_empty _, Bitset.get_empty .., Bitset.get_empty ..]
  | @file h f path id s ho hheader _ hmade =>
    have hfits := (Options.validate_eq.1 ho).header hheader
    obtain ⟨s', hcreate, hvalid, hpos, hheap, hreserved⟩ := FileStore.create_valid hfits path f
    obtain rfl := Except.ok.inj (hcreate.symm.trans hmade)
    exact ⟨hvalid, hpos, hheap, hreserved⟩

/-- What comes of a store that was just made by what is done to it. -/
inductive Used : Device → Prop
  | fresh {o : Options} {s : Device} : Fresh o s → Used s
  | allocate {s : Device} (kind : Pool) (data : Bytes) : Used s →
      Used (Store.allocate kind data s).2
  | write {s : Device} (kind : Pool) (n : BlockNumber) (data : Bytes) : Used s →
      Used (Store.write kind n data s).2
  | free {s : Device} (kind : Pool) (n : BlockNumber) : Used s → Used (Store.free kind n s).2
  | setReserve {s : Device} (data : Bytes) : Used s → Used (Store.setReserve data s).2

/-- Whatever is done to a store, it stays valid. -/
theorem Used.valid (h : Used s) : s.Valid := by
  induction h with
  | fresh hfresh => exact hfresh.blank.valid
  | allocate kind data _ ih =>
    exact Ends.final ((allocate_ends ih kind data).mono (fun _ _ he => he.1 ▸ ih)
      fun _ _ hq => hq.2.2.valid)
  | write kind n data _ ih =>
    exact Ends.final ((write_ends ih kind n data).mono (fun _ _ he => he.1 ▸ ih)
      fun _ _ hq => hq.valid)
  | free kind n _ ih =>
    exact Ends.final ((free_ends ih kind n).mono (fun _ _ he => he.1 ▸ ih)
      fun _ _ hq => hq.valid)
  | setReserve data _ ih =>
    exact Ends.final ((setReserve_ends ih data).mono (fun _ _ he => he.1 ▸ ih)
      fun _ _ hq => hq.1)

end PagedMap.Device
