/-
# What stores of any kind do is what ideal stores do

While a store is exact, it answers every call as the ideal store does that is seen of it,
and becomes what the ideal store becomes (`Device.run_agrees`). So two exact stores of
which the same is seen cannot be told apart, whatever they are made of.

Key definitions: `Device.Exact`, `Device.ideal`, `Device.Shows`.
Key theorems: `Device.allocate_agrees`, `Device.write_agrees`, `Device.run_agrees`,
`Device.Used.exact`.
-/
import PagedMap.Proofs.Store.Device
import PagedMap.Proofs.Store.Reloaded

namespace PagedMap

variable {kind : Pool} {n : BlockNumber} {data : Bytes}

/-! ### Counts in memory -/

namespace MemoryStore

variable {s : MemoryStore} {p : MemoryPool}

/-- The bitsets count their bits. -/
def Counted (s : MemoryStore) : Prop := ∀ kind, (s.pool kind).bits.Counted

theorem Counted.withPool (h : s.Counted) (hp : p.bits.Counted) : (s.withPool kind p).Counted := by
  intro k
  rw [pool_withPool]
  split
  · exact hp
  · exact h k

/-- What one pool does leaves the others counting. -/
theorem Counted.onPool_ends {α : Type} {act : Action MemoryPool α} {E : Error → Prop}
    {Q : α → Prop} (h : s.Counted)
    (hact : Ends act (s.pool kind) (fun e _ => E e) fun a p => p.bits.Counted ∧ Q a) :
    Ends (onPool kind act) s (fun e _ => E e) fun a s' => s'.Counted ∧ Q a := by
  refine (MemoryStore.onPool_ends hact).mono ?_ ?_
  · rintro e _ ⟨p, rfl, he⟩
    exact he
  · rintro a _ ⟨p, rfl, hp, hq⟩
    exact ⟨h.withPool hp, hq⟩

theorem Counted.allocate_ends (h : s.Counted) (hs : s.Valid) (kind : Pool) (data : Bytes) :
    Ends (Store.allocate kind data) s (fun e _ => e = .outOfSpace kind (s.pool kind).bits.max)
      fun n s' => s'.Counted ∧ ∀ m < n.toNat, (s.pool kind).bits.get m = true := by
  have hspec := Bitset.firstClear?_spec (hs.bits_valid kind)
  refine h.onPool_ends ?_
  rw [MemoryPool.allocate]
  refine ends_bind_get ?_
  cases hfirst : (s.pool kind).bits.firstClear? with
  | none => exact ends_throw rfl
  | some n =>
    rw [hfirst] at hspec
    obtain ⟨hn, -, hbelow⟩ := hspec
    exact ends_of_ok rfl ⟨(h kind).set hn, fun m hm =>
      hbelow m (Nat.lt_of_lt_of_le hm (Nat.mod_le ..))⟩

theorem Counted.write_ends (h : s.Counted) (kind : Pool) (n : BlockNumber) (data : Bytes) :
    Ends (Store.write kind n data) s (fun e _ => e = .notAllocated kind n)
      fun _ s' => s'.Counted ∧ (s.pool kind).bits.get n.toNat = true :=
  h.onPool_ends (ends_bind_get (ends_bind_check (fun hget => ends_of_ok rfl ⟨h kind, hget⟩)
    fun _ => rfl))

theorem Counted.free_ends (h : s.Counted) (hs : s.Valid) (kind : Pool) (n : BlockNumber) :
    Ends (Store.free kind n) s (fun e _ => e = .notAllocated kind n)
      fun _ s' => s'.Counted ∧ (s.pool kind).bits.get n.toNat = true := by
  refine h.onPool_ends (ends_bind_get (ends_bind_check (fun hget => ?_) fun _ => rfl))
  exact ends_of_ok rfl ⟨(h kind).clear (hs.bits_valid kind) _, hget⟩

theorem Counted.setReserve_ends (h : s.Counted) (data : Bytes) :
    Ends (Store.setReserve data) s
      (fun e _ => e = .invalidArgument (.reserveData data.length s.reserveSize))
      fun _ s' => s'.Counted ∧ data.length ≤ s.reserveSize :=
  ends_bind_get (ends_bind_check (fun hdata => ends_of_ok rfl ⟨h, hdata⟩) fun _ => rfl)

end MemoryStore

/-! ### Stores of any kind -/

namespace Device

variable {s s' : Device} {v : Option Bytes}

/-- What the store keeps beside its blocks is what it says: the counts of its bitsets, and
what its file tells. -/
def Faithful : Device → Prop
  | .memory s => s.Counted
  | .file _ s => s.Recorded

/-- A store of which no more is seen than its blocks and its reserve. -/
structure Exact (s : Device) : Prop where
  valid : s.Valid
  faithful : s.Faithful

/-- What is seen of a store. -/
def ideal (s : Device) : Ideal := ⟨s.shape, s.heap, s.reserved⟩

/-- The store is exact, and this is seen of it. -/
def Shows (s : Device) (i : Ideal) : Prop := s.Exact ∧ s.ideal = i

theorem Changed.shows (h : s.Changed kind n v s') (hs' : s'.Faithful) :
    s'.Shows (s.ideal.put kind n v) := by
  refine ⟨⟨h.valid, hs'⟩, ?_⟩
  rw [ideal, h.shape_eq, h.heap_eq, h.reserved_eq]
  rfl

theorem Exact.isSome_heap (h : s.Exact) (kind : Pool) (n : BlockNumber) :
    (s.heap (s.shape.home kind, n)).isSome = (s.bits kind).get n.toNat := by
  have hisAllocated := LawfulStore.isAllocated_eq (s := s) h.valid kind n
  cases s <;> exact hisAllocated.symm

/-- What keeps the counts in memory and what a file goes on with keep a store faithful. -/
theorem faithful_dispatch {α : Type} {onMemory : Action MemoryStore α}
    {onFile : Action FileStore α} {E : Error → Prop} {Q : α → Prop}
    (hmemory : ∀ m, s = .memory m →
      Ends onMemory m (fun e _ => E e) fun a m' => m'.Counted ∧ Q a)
    (hfile : ∀ id f, s = .file id f →
      Ends onFile f (fun e f' => f' = f ∧ E e) fun a f' => f.Continues f' ∧ Q a) :
    Ends (dispatch onMemory onFile) s (fun e _ => E e) fun a s' => s'.Faithful ∧ Q a :=
  dispatch_ends hmemory fun id f hs =>
    (hfile id f hs).mono (fun _ _ he => he.2) fun _ _ hq => ⟨hq.1.1, hq.2⟩

theorem Faithful.allocate_ends (h : s.Exact) (kind : Pool) (data : Bytes) :
    Ends (Store.allocate kind data) s (fun e _ => e = .outOfSpace kind (s.bits kind).max)
      fun n s' => s'.Faithful ∧ ∀ m < n.toNat, (s.bits kind).get m = true := by
  refine faithful_dispatch ?_ ?_
  · rintro m rfl
    exact MemoryStore.Counted.allocate_ends h.faithful h.valid kind data
  · rintro id f rfl
    exact FileStore.Recorded.allocate_ends h.faithful kind data

/-- An exact store allocates the block that is the lowest free one. -/
theorem allocate_agrees (kind : Pool) (data : Bytes) :
    Agrees Shows (Store.allocate kind data) (Store.allocate kind data) := by
  refine agrees_of_ends fun s i hs => ?_
  obtain ⟨hexact, rfl⟩ := hs
  refine ((allocate_ends hexact.valid kind data).and
    (Faithful.allocate_ends hexact kind data)).mono ?_ ?_
  · rintro e _ ⟨⟨rfl, rfl, hfull⟩, -⟩
    exact ⟨_, Ideal.allocate_full data hfull, hexact, rfl⟩
  · rintro n s' ⟨⟨hn, hnone, hchanged⟩, hfaithful, hbelow⟩
    refine ⟨_, Ideal.allocate_lowest data hn hnone fun m hm => ?_, hchanged.shows hfaithful⟩
    exact (hexact.isSome_heap kind m).trans (hbelow m.toNat hm)

theorem Faithful.write_ends (h : s.Exact) (kind : Pool) (n : BlockNumber) (data : Bytes) :
    Ends (Store.write kind n data) s (fun e _ => e = .notAllocated kind n)
      fun _ s' => s'.Faithful ∧ (s.bits kind).get n.toNat = true := by
  refine faithful_dispatch ?_ ?_
  · rintro m rfl
    exact MemoryStore.Counted.write_ends h.faithful kind n data
  · rintro id f rfl
    exact FileStore.Recorded.write_ends h.faithful kind n data

theorem write_agrees (kind : Pool) (n : BlockNumber) (data : Bytes) :
    Agrees Shows (Store.write kind n data) (Store.write kind n data) := by
  refine agrees_of_ends fun s i hs => ?_
  obtain ⟨hexact, rfl⟩ := hs
  refine ((write_ends hexact.valid kind n data).and
    (Faithful.write_ends hexact kind n data)).mono ?_ ?_
  · rintro e _ ⟨⟨rfl, hnone⟩, rfl⟩
    exact ⟨_, Ideal.write_missing data hnone, hexact, rfl⟩
  · rintro - s' ⟨hchanged, hfaithful, hget⟩
    exact ⟨_, Ideal.write_held data ((hexact.isSome_heap kind n).trans hget),
      hchanged.shows hfaithful⟩

theorem Faithful.free_ends (h : s.Exact) (kind : Pool) (n : BlockNumber) :
    Ends (Store.free kind n) s (fun e _ => e = .notAllocated kind n)
      fun _ s' => s'.Faithful ∧ (s.bits kind).get n.toNat = true := by
  refine faithful_dispatch ?_ ?_
  · rintro m rfl
    exact MemoryStore.Counted.free_ends h.faithful h.valid kind n
  · rintro id f rfl
    exact FileStore.Recorded.free_ends h.faithful kind n

theorem free_agrees (kind : Pool) (n : BlockNumber) :
    Agrees Shows (Store.free kind n) (Store.free kind n) := by
  refine agrees_of_ends fun s i hs => ?_
  obtain ⟨hexact, rfl⟩ := hs
  refine ((free_ends hexact.valid kind n).and (Faithful.free_ends hexact kind n)).mono ?_ ?_
  · rintro e _ ⟨⟨rfl, hnone⟩, rfl⟩
    exact ⟨_, Ideal.free_missing hnone, hexact, rfl⟩
  · rintro - s' ⟨hchanged, hfaithful, hget⟩
    exact ⟨_, Ideal.free_held ((hexact.isSome_heap kind n).trans hget), hchanged.shows hfaithful⟩

theorem Faithful.setReserve_ends (h : s.Exact) (data : Bytes) :
    Ends (Store.setReserve data) s
      (fun e _ => e = .invalidArgument (.reserveData data.length s.shape.reserveSize))
      fun _ s' => s'.Faithful ∧ data.length ≤ s.shape.reserveSize := by
  refine faithful_dispatch ?_ ?_
  · rintro m rfl
    exact MemoryStore.Counted.setReserve_ends h.faithful data
  · rintro id f rfl
    exact FileStore.Recorded.setReserve_ends h.faithful data

theorem setReserve_agrees (data : Bytes) :
    Agrees Shows (Store.setReserve data) (Store.setReserve data) := by
  refine agrees_of_ends fun s i hs => ?_
  obtain ⟨hexact, rfl⟩ := hs
  refine ((setReserve_ends hexact.valid data).and
    (Faithful.setReserve_ends hexact data)).mono ?_ ?_
  · rintro e _ ⟨⟨rfl, hlong⟩, rfl⟩
    exact ⟨_, Ideal.setReserve_of_lt hlong, hexact, rfl⟩
  · rintro - s' ⟨⟨hvalid, hshape, hheap, hreserved⟩, hfaithful, hdata⟩
    refine ⟨_, Ideal.setReserve_of_le hdata, ⟨hvalid, hfaithful⟩, ?_⟩
    rw [ideal, hshape, hheap, hreserved]
    rfl

theorem sync_agrees : Agrees Shows Store.sync Store.sync := by
  refine agrees_of_ends fun s i hs => ?_
  exact ends_of_ok (LawfulStore.sync_eq s) ⟨i, rfl, hs⟩

/-- A store that was loaded from its file is exact, and the same is seen of it. -/
theorem Exact.reloaded {id : FileId} {f f' : FileStore} (h : (file id f).Exact) (hsame : f.Same f')
    (hf' : f'.Recorded) : (file id f').Shows (file id f).ideal := by
  refine ⟨⟨hsame.valid h.valid hf', hf'⟩, ?_⟩
  change Ideal.mk f'.shape f'.heap f'.reserved = Ideal.mk f.shape f.heap f.reserved
  rw [hsame.shape_eq, hsame.heap_eq, hsame.reserved_eq]

/-! ### What is read -/

theorem read_missing (h : (s.bits kind).get n.toNat = false) :
    Store.read s kind n = .error (.notAllocated kind n) := by
  cases s with
  | memory m =>
    have hcheck : (m.pool kind).check kind n = .error (.notAllocated kind n) :=
      if_neg (Bool.eq_false_iff.1 h)
    change (m.pool kind).read kind n = _
    rw [MemoryPool.read, hcheck, error_bind]
  | file id f =>
    have hcheck : (f.pool kind).check kind n = .error (.notAllocated kind n) :=
      if_neg (Bool.eq_false_iff.1 h)
    change f.read kind n = _
    rw [FileStore.read, hcheck, error_bind]

theorem Exact.read_eq (h : s.Exact) (kind : Pool) (n : BlockNumber) :
    Store.read s kind n = s.ideal.read kind n := by
  cases hheap : s.heap (s.shape.home kind, n) with
  | some bs =>
    exact (LawfulStore.read_eq (s := s) h.valid hheap).trans (Ideal.read_held hheap).symm
  | none =>
    have hclear := h.isSome_heap kind n
    rw [hheap] at hclear
    exact (read_missing hclear.symm).trans (Ideal.read_missing hheap).symm

theorem Exact.isAllocated_eq (h : s.Exact) (kind : Pool) (n : BlockNumber) :
    Store.isAllocated s kind n = s.ideal.holds kind n :=
  LawfulStore.isAllocated_eq (s := s) h.valid kind n

theorem Exact.counted (h : s.Exact) (kind : Pool) :
    (s.bits kind).Counted ∧ (s.bits kind).max = s.shape.maxBlocks kind := by
  obtain ⟨-, hfaithful⟩ := h
  cases s with
  | memory m => exact ⟨hfaithful kind, rfl⟩
  | file id f => exact ⟨FileStore.Recorded.counted hfaithful kind, rfl⟩

theorem Exact.allocatedCount_eq (h : s.Exact) (kind : Pool) :
    Store.allocatedCount s kind = (s.ideal.numbers kind).countP (s.ideal.holds kind) := by
  obtain ⟨hcounted, hmax⟩ := h.counted kind
  have hcount : Store.allocatedCount s kind = (s.bits kind).count := by cases s <;> rfl
  rw [hcount, hcounted, hmax, Ideal.numbers, List.countP_map]
  refine List.countP_congr fun i hi => ?_
  have hnat := toNat_ofNat_of_le (List.mem_range.1 hi) (h.valid.shape_valid.maxBlocks_le kind)
  have hholds : s.ideal.holds kind (UInt32.ofNat i) = (s.bits kind).get i := by
    have hsome := h.isSome_heap kind (UInt32.ofNat i)
    rwa [hnat] at hsome
  rw [Function.comp_apply, hholds]

theorem Exact.reserve_eq (h : s.Exact) : Store.reserve s = .ok s.ideal.reserved :=
  LawfulStore.reserve_eq (s := s) h.valid

/-- **A store does what the ideal store does that is seen of it.** -/
theorem run_agrees (c : StoreCall) : Agrees Shows c.run c.run := by
  cases c with
  | allocate kind data => exact (allocate_agrees kind data).bind fun _ => agrees_pure _
  | write kind n data => exact (write_agrees kind n data).bind fun _ => agrees_pure _
  | free kind n => exact (free_agrees kind n).bind fun _ => agrees_pure _
  | setReserve data => exact (setReserve_agrees data).bind fun _ => agrees_pure _
  | sync => exact sync_agrees.bind fun _ => agrees_pure _
  | read kind n =>
    refine agrees_bind_get fun s i hs => ?_
    obtain ⟨hexact, rfl⟩ := hs
    exact (agrees_lift (hexact.read_eq kind n)).bind fun _ => agrees_pure _
  | isAllocated kind n =>
    refine agrees_bind_get fun s i hs => ?_
    obtain ⟨hexact, rfl⟩ := hs
    rw [hexact.isAllocated_eq]
    exact agrees_pure _
  | allocatedCount kind =>
    refine agrees_bind_get fun s i hs => ?_
    obtain ⟨hexact, rfl⟩ := hs
    rw [hexact.allocatedCount_eq]
    exact agrees_pure (StoreAnswer.count _)
  | reserve =>
    refine agrees_bind_get fun s i hs => ?_
    obtain ⟨hexact, rfl⟩ := hs
    exact (agrees_lift hexact.reserve_eq).bind fun _ => agrees_pure _

/-! ### Stores that were just made -/

/-- A store that was just made is exact. -/
theorem Fresh.exact {o : Options} (h : Fresh o s) : s.Exact := by
  refine ⟨h.blank.valid, ?_⟩
  cases h with
  | shared hmade =>
    obtain ⟨-, rfl⟩ := of_validated hmade
    rintro (_ | _) <;> exact Bitset.counted_empty _
  | split hmade =>
    obtain ⟨-, rfl⟩ := of_validated hmade
    rintro (_ | _) <;> exact Bitset.counted_empty _
  | file ho hheader _ hmade =>
    have hstored := Header.stored_of_fits (Options.validate_eq.1 ho) hheader
    exact (FileStore.create_recorded hstored hmade).1

/-- Whatever is done to a store, it stays exact. -/
theorem Used.exact (h : Used s) : s.Exact := by
  induction h with
  | fresh hfresh => exact hfresh.exact
  | allocate kind data _ ih => exact (allocate_agrees kind data _ _ ⟨ih, rfl⟩).2.1
  | write kind n data _ ih => exact (write_agrees kind n data _ _ ⟨ih, rfl⟩).2.1
  | free kind n _ ih => exact (free_agrees kind n _ _ ⟨ih, rfl⟩).2.1
  | setReserve data _ ih => exact (setReserve_agrees data _ _ ⟨ih, rfl⟩).2.1

end Device

end PagedMap
