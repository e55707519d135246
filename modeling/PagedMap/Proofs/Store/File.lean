/-
# What stores in files hold

The sections of a file do not meet (`FileStore.Sections`): so a block that is written
changes no other block, and a bit that is written changes none (`FileStore.apart_blocks`,
`FileStore.apart_bit`). What a block is read as is what was written into it, whether it
is mapped or not.

Key definitions: `FileStore.Sections`, `FileStore.Valid`, `FileStore.heap`.
Key theorems: `FileStore.allocate_ends`, `FileStore.write_ends`, `FileStore.free_ends`.
-/
import PagedMap.Proofs.Store.Bytes
import PagedMap.Proofs.Store.Memory
import PagedMap.Store.File

namespace PagedMap.FileStore

variable {s s' : FileStore} {kind k : Pool} {n m : Nat} {data : Bytes} {bits : Bitset}

/-- The dimensions of a store. -/
def shape (s : FileStore) : Shape :=
  ⟨s.region?.isNone, fun kind => (s.pool kind).blockSize, fun kind => (s.pool kind).bits.max,
    s.header.reserveSize⟩

/-- The bytes of a block. -/
def block (s : FileStore) (kind : Pool) (n : Nat) : Bytes :=
  s.file.window ((s.pool kind).offset n) (s.pool kind).blockSize

/-- The allocated blocks of a pool. -/
def poolHeap (s : FileStore) (kind : Pool) (n : BlockNumber) : Option Bytes :=
  if (s.pool kind).bits.get n.toNat then some (s.block kind n.toNat) else none

/-- The blocks of both pools, or of the one that there is. -/
def heap (s : FileStore) : Heap := heapOf s.shape s.poolHeap

/-- The bytes of the reserve. -/
def reserved (s : FileStore) : Bytes :=
  s.file.window s.layout.reserve.toNat s.header.reserveSize

/-- The sections follow each other. -/
structure Sections (s : FileStore) : Prop where
  region : ∀ p ∈ s.region?,
    p.bitsetOffset + Layout.bitsetLengthSize + Bitset.byteLength p.bits.max ≤ p.blocksOffset ∧
      p.blocksOffset + p.bits.max * p.blockSize ≤ s.main.bitsetOffset
  bitset : s.main.bitsetOffset + Layout.bitsetLengthSize + Bitset.byteLength s.main.bits.max ≤
    s.layout.reserve.toNat
  reserve : s.layout.reserve.toNat + s.header.reserveSize ≤ s.main.blocksOffset

/-- What holds of a store that was made with valid options. -/
structure Valid (s : FileStore) : Prop where
  shape_valid : s.shape.Valid
  bits_valid : ∀ kind, (s.pool kind).bits.Valid
  sections : s.Sections
  size_ge : s.main.blocksOffset ≤ s.file.size
  allocated_le : ∀ n, s.main.bits.get n = true → s.main.offset n + s.main.blockSize ≤ s.file.size

/-! ### Places that do not meet -/

/-- Two parts of a file do not meet. -/
def Apart (a m b n : Nat) : Prop := a + m ≤ b ∨ b + n ≤ a

/-- Where the bit of a block is. -/
def bitOffset (s : FileStore) (kind : Pool) (n : Nat) : Nat :=
  (s.pool kind).bitsetOffset + Layout.bitsetLengthSize + n / 8

theorem offset_le {p : FilePool} (h : n < p.bits.max) :
    p.blocksOffset ≤ p.offset n ∧
      p.offset n + p.blockSize ≤ p.blocksOffset + p.bits.max * p.blockSize := by
  have hmul := Nat.mul_le_mul_right p.blockSize (Nat.succ_le_of_lt h)
  rw [Nat.succ_mul] at hmul
  rw [FilePool.offset]
  omega

theorem offset_apart {p : FilePool} (h : n ≠ m) :
    Apart (p.offset n) p.blockSize (p.offset m) p.blockSize := by
  rw [Apart, FilePool.offset, FilePool.offset]
  rcases Nat.lt_or_gt_of_ne h with h | h
  · have hmul := Nat.mul_le_mul_right p.blockSize (Nat.succ_le_of_lt h)
    rw [Nat.succ_mul] at hmul
    omega
  · have hmul := Nat.mul_le_mul_right p.blockSize (Nat.succ_le_of_lt h)
    rw [Nat.succ_mul] at hmul
    omega

theorem byteIndex_lt {max : Nat} (h : n < max) : n / 8 < Bitset.byteLength max := by
  rw [Bitset.byteLength]
  omega

section Sections

variable (h : s.Sections)
include h

/-- The region ends before the bitset begins. -/
theorem region_le {p : FilePool} (hp : p ∈ s.region?) (hn : n < p.bits.max) :
    p.blocksOffset ≤ p.offset n ∧ p.offset n + p.blockSize ≤ s.main.bitsetOffset := by
  have hregion := (h.region p hp).2
  have hoffset := offset_le hn
  omega

/-- Different blocks do not meet. -/
theorem apart_blocks (hk : s.shape.home k = k) (hkind : s.shape.home kind = kind)
    (hn : n < (s.pool kind).bits.max) (hm : m < (s.pool k).bits.max)
    (hne : k = kind → n ≠ m) :
    Apart ((s.pool kind).offset n) (s.pool kind).blockSize ((s.pool k).offset m)
      (s.pool k).blockSize := by
  have hbitset := h.bitset
  have hreserve := h.reserve
  cases hregion : s.region? with
  | none =>
    have hleaf : ∀ {k : Pool}, s.shape.home k = k → k = .leaf := by
      rintro (_ | _) hk
      · rfl
      · simp [shape, Shape.home, hregion] at hk
    obtain rfl := hleaf hk
    obtain rfl := hleaf hkind
    exact offset_apart (hne rfl)
  | some p =>
    cases k <;> cases kind
    · exact offset_apart (hne rfl)
    · simp only [pool, hregion, Option.getD_some] at hn hm ⊢
      have := region_le h hregion hn
      have := offset_le hm
      exact .inl (by omega)
    · simp only [pool, hregion, Option.getD_some] at hn hm ⊢
      have := region_le h hregion hm
      have := offset_le hn
      exact .inr (by omega)
    · exact offset_apart (hne rfl)

/-- A bit and a block do not meet. -/
theorem apart_bit (hn : n < (s.pool kind).bits.max) (hm : m < (s.pool k).bits.max) :
    Apart (s.bitOffset kind n) 1 ((s.pool k).offset m) (s.pool k).blockSize := by
  have hbitset := h.bitset
  have hreserve := h.reserve
  have hbyte := byteIndex_lt hn
  have hoffset := offset_le hm
  cases hregion : s.region? with
  | none =>
    simp only [bitOffset, pool, hregion, Option.getD_none] at hn hm hbyte hoffset ⊢
    cases k <;> cases kind <;> exact .inl (by dsimp only at *; omega)
  | some p =>
    have hp := h.region p hregion
    cases k <;> cases kind <;>
      simp only [bitOffset, pool, hregion, Option.getD_some] at hn hm hbyte hoffset ⊢
    · exact .inl (by omega)
    · exact .inl (by omega)
    · exact .inr (by omega)
    · exact .inl (by omega)

/-- The reserve and a block do not meet. -/
theorem apart_reserve (hm : m < (s.pool k).bits.max) :
    Apart s.layout.reserve.toNat s.header.reserveSize ((s.pool k).offset m)
      (s.pool k).blockSize := by
  have hbitset := h.bitset
  have hreserve := h.reserve
  have hoffset := offset_le hm
  cases hregion : s.region? with
  | none =>
    simp only [pool, hregion, Option.getD_none] at hm hoffset ⊢
    cases k <;> exact .inl (by dsimp only at *; omega)
  | some p =>
    have hp := h.region p hregion
    cases k <;> simp only [pool, hregion, Option.getD_some] at hm hoffset ⊢
    · exact .inl (by omega)
    · exact .inr (by omega)

/-- The reserve comes after every bit. -/
theorem bit_le_reserve (hn : n < (s.pool kind).bits.max) :
    s.bitOffset kind n + 1 ≤ s.layout.reserve.toNat := by
  have hbitset := h.bitset
  have hbyte := byteIndex_lt hn
  cases hregion : s.region? with
  | none =>
    simp only [bitOffset, pool, hregion, Option.getD_none] at hn hbyte ⊢
    cases kind <;> dsimp only at * <;> omega
  | some p =>
    have hp := h.region p hregion
    cases kind <;> simp only [bitOffset, pool, hregion, Option.getD_some] at hn hbyte ⊢ <;> omega

end Sections

/-! ### Pools -/

theorem pool_home (s : FileStore) (kind : Pool) : s.pool (s.shape.home kind) = s.pool kind := by
  obtain ⟨path, header, layout, file, main, region?⟩ := s
  cases kind <;> cases region? <;> rfl

theorem pool_setPool (s : FileStore) (kind k : Pool) (p : FilePool) :
    (s.setPool kind p).pool k = if s.shape.home k = s.shape.home kind then p else s.pool k := by
  obtain ⟨path, header, layout, file, main, region?⟩ := s
  cases kind <;> cases k <;> cases region? <;> rfl

theorem setPool_rest (s : FileStore) (kind : Pool) (p : FilePool) :
    (s.setPool kind p).file = s.file ∧ (s.setPool kind p).layout = s.layout ∧
      (s.setPool kind p).header = s.header ∧
      (s.setPool kind p).region?.isNone = s.region?.isNone := by
  obtain ⟨path, header, layout, file, main, region?⟩ := s
  cases kind <;> cases region? <;> exact ⟨rfl, rfl, rfl, rfl⟩

theorem pool_eq_of_home (h : s.shape.home k = s.shape.home kind) : s.pool k = s.pool kind := by
  rw [← pool_home, h, pool_home]

theorem heap_home (s : FileStore) (kind : Pool) (n : BlockNumber) :
    s.heap (s.shape.home kind, n) = s.poolHeap kind n := by
  rw [heap, heapOf_home, poolHeap, poolHeap, block, block, pool_home]

/-- Where there is a region, a block of it lies within the file. -/
theorem Valid.mapped_le (h : s.Valid) (hmapped : s.isMapped kind = true)
    (hn : n < (s.pool kind).bits.max) :
    (s.pool kind).offset n + (s.pool kind).blockSize ≤ s.file.size := by
  rw [isMapped, Bool.and_eq_true, decide_eq_true_iff] at hmapped
  obtain ⟨rfl, hsome⟩ := hmapped
  obtain ⟨p, hp⟩ := Option.isSome_iff_exists.1 hsome
  simp only [pool, hp, Option.getD_some] at hn ⊢
  have := region_le h.sections hp hn
  have := h.sections.bitset
  have := h.sections.reserve
  have := h.size_ge
  omega

/-- An allocated block lies within the file. -/
theorem Valid.block_le (h : s.Valid) (hn : (s.pool kind).bits.get n = true) :
    (s.pool kind).offset n + (s.pool kind).blockSize ≤ s.file.size := by
  cases hmapped : s.isMapped kind with
  | true => exact h.mapped_le hmapped ((h.bits_valid kind).lt_max n hn)
  | false =>
    have hmain : s.pool kind = s.main := by
      obtain ⟨path, header, layout, file, main, region?⟩ := s
      cases kind <;> cases region? <;> first | rfl | cases hmapped
    rw [hmain] at hn ⊢
    exact h.allocated_le n hn

/-! ### Writing into the file -/

section Write

variable {offset : Nat}

theorem Valid.write (h : s.Valid) (offset : Nat) (data : Bytes) :
    ({ s with file := s.file.write offset data } : FileStore).Valid :=
  ⟨h.shape_valid, h.bits_valid, ⟨h.sections.region, h.sections.bitset, h.sections.reserve⟩,
    Nat.le_trans h.size_ge (File.size_le_write ..),
    fun n hn => Nat.le_trans (h.allocated_le n hn) (File.size_le_write ..)⟩

/-- A block that does not meet what is written is as before. -/
theorem poolHeap_write (h : s.Valid) {n : BlockNumber}
    (hapart : n.toNat < (s.pool kind).bits.max → Apart offset data.length
      ((s.pool kind).offset n.toNat) (s.pool kind).blockSize) :
    ({ s with file := s.file.write offset data } : FileStore).poolHeap kind n =
      s.poolHeap kind n := by
  change (if (s.pool kind).bits.get n.toNat then _ else _) = _
  rw [poolHeap]
  by_cases hget : (s.pool kind).bits.get n.toNat = true
  · rw [if_pos hget, if_pos hget]
    refine congrArg some (File.window_write_of_disjoint ?_)
    rcases hapart ((h.bits_valid kind).lt_max _ hget) with hle | hle
    · exact .inr hle
    · exact .inl ⟨hle, h.block_le hget⟩
  · rw [if_neg hget, if_neg hget]

/-- Writing a bit changes no block. -/
theorem heap_writeBit (h : s.Valid) (hn : n < (s.pool kind).bits.max) (b : UInt8) :
    ({ s with file := s.file.write (s.bitOffset kind n) [b] } : FileStore).heap = s.heap := by
  rw [heap, heap]
  refine congrArg (heapOf s.shape) (funext fun k => funext fun m => ?_)
  exact poolHeap_write h fun hm => apart_bit h.sections hn hm

/-- Writing a block changes this block, if it is allocated. -/
theorem heap_writeBlock (h : s.Valid) {n : BlockNumber} (hn : n.toNat < (s.pool kind).bits.max)
    (hdata : data.length = (s.pool kind).blockSize) :
    ({ s with file := s.file.write ((s.pool kind).offset n.toNat) data } : FileStore).heap =
      Function.update s.heap (s.shape.home kind, n)
        (if (s.pool kind).bits.get n.toNat then some data else none) := by
  have hown := s.shape.home_home kind
  have hpool := pool_home s kind
  refine heapOf_update (g := s.shape) ?_ fun k hk hne => funext fun m => ?_
  · funext m
    by_cases hm : m = n
    · subst hm
      rw [Function.update_self, poolHeap, block]
      change (if (s.pool (s.shape.home kind)).bits.get m.toNat then
        some (File.window _ ((s.pool (s.shape.home kind)).offset m.toNat) _) else none) = _
      rw [hpool]
      split
      · refine congrArg some ?_
        change (s.file.write _ data).window _ (s.pool (s.shape.home kind)).blockSize = _
        rw [hpool, ← hdata]
        exact File.window_write_self ..
      · rfl
    · rw [Function.update_of_ne hm]
      refine poolHeap_write h fun hm' => ?_
      rw [hdata, ← hpool]
      exact apart_blocks h.sections hown hown (hpool ▸ hn) hm' fun _ heq =>
        hm (UInt32.toNat_inj.1 heq.symm)
  · refine poolHeap_write h fun hm => ?_
    rw [hdata, ← hpool]
    exact apart_blocks h.sections hk hown (hpool ▸ hn) hm fun heq => (hne heq).elim

/-- Writing the reserve changes no block. -/
theorem heap_writeReserve (h : s.Valid) (hdata : data.length ≤ s.header.reserveSize) :
    ({ s with file := s.file.write s.layout.reserve.toNat data } : FileStore).heap = s.heap := by
  rw [heap, heap]
  refine congrArg (heapOf s.shape) (funext fun k => funext fun m => poolHeap_write h fun hm => ?_)
  rcases apart_reserve h.sections hm with hle | hle
  · exact .inl (by omega)
  · exact .inr hle

/-- Writing a block or a bit does not change the reserve. -/
theorem reserved_write (h : s.Valid) (hapart : Apart offset data.length s.layout.reserve.toNat
      s.header.reserveSize) :
    ({ s with file := s.file.write offset data } : FileStore).reserved = s.reserved := by
  have hreserve := h.sections.reserve
  have hsize := h.size_ge
  refine File.window_write_of_disjoint ?_
  rcases hapart with hle | hle
  · exact .inr hle
  · exact .inl ⟨hle, Nat.le_trans hreserve hsize⟩

end Write

/-! ### Changing bits -/

/-- The store with other bits for a pool. -/
def withBits (s : FileStore) (kind : Pool) (bits : Bitset) : FileStore :=
  s.setPool kind { s.pool kind with bits }

theorem pool_withBits (s : FileStore) (kind k : Pool) (bits : Bitset) :
    (s.withBits kind bits).pool k =
      if s.shape.home k = s.shape.home kind then { s.pool kind with bits } else s.pool k :=
  pool_setPool ..

section Bits

variable (hmax : bits.max = (s.pool kind).bits.max)
include hmax

theorem shape_withBits : (s.withBits kind bits).shape = s.shape := by
  obtain ⟨-, -, hheader, hshared⟩ := setPool_rest s kind { s.pool kind with bits }
  rw [shape, shape, Shape.mk.injEq]
  refine ⟨hshared, funext fun k => ?_, funext fun k => ?_, congrArg Header.reserveSize hheader⟩
  · rw [pool_withBits]
    split
    · next hk => rw [pool_eq_of_home hk]
    · rfl
  · rw [pool_withBits]
    split
    · next hk => rw [pool_eq_of_home hk, ← hmax]
    · rfl

/-- The store stays valid if what becomes allocated lies within the file. -/
theorem Valid.withBits (h : s.Valid) (hbits : bits.Valid)
    (hle : ∀ n, bits.get n = true →
      (s.pool kind).offset n + (s.pool kind).blockSize ≤ s.file.size) :
    (s.withBits kind bits).Valid := by
  have hshape : (s.withBits kind bits).shape.Valid := shape_withBits hmax ▸ h.shape_valid
  have hpools : ∀ k, ((s.withBits kind bits).pool k).bits.Valid := by
    intro k
    rw [pool_withBits]
    split
    · exact hbits
    · exact h.bits_valid k
  obtain ⟨-, -, ⟨hregion, hbitset, hreserve⟩, hsize, hallocated⟩ := h
  obtain ⟨path, header, layout, file, main, region?⟩ := s
  cases kind with
  | leaf =>
    exact ⟨hshape, hpools, ⟨hregion, hmax ▸ hbitset, hreserve⟩, hsize, hle⟩
  | index =>
    cases region? with
    | none => exact ⟨hshape, hpools, ⟨hregion, hmax ▸ hbitset, hreserve⟩, hsize, hle⟩
    | some region =>
      refine ⟨hshape, hpools, ⟨fun p hp => ?_, hbitset, hreserve⟩, hsize, hallocated⟩
      obtain rfl := Option.mem_some.1 hp
      exact hmax ▸ hregion region rfl

/-- A block comes or goes with its bit. -/
theorem heap_withBits {n : BlockNumber}
    (hrest : ∀ m ≠ n.toNat, bits.get m = (s.pool kind).bits.get m) :
    (s.withBits kind bits).heap = Function.update s.heap (s.shape.home kind, n)
      (if bits.get n.toNat then some (s.block kind n.toNat) else none) := by
  rw [heap, shape_withBits hmax]
  have hfile : (s.withBits kind bits).file = s.file := (setPool_rest ..).1
  refine heapOf_update (funext fun m => ?_) fun k hk hne => funext fun m => ?_
  · rw [poolHeap, block, hfile, pool_withBits, if_pos (s.shape.home_home kind)]
    by_cases hm : m = n
    · subst hm
      rw [Function.update_self]
      rfl
    · rw [Function.update_of_ne hm, poolHeap, block, pool_home,
        ← hrest m.toNat fun heq => hm (UInt32.toNat_inj.1 heq)]
      rfl
  · have hpool : (s.withBits kind bits).pool k = s.pool k := by
      rw [pool_withBits, if_neg (by rw [hk]; exact hne)]
    rw [poolHeap, block, hfile, hpool]
    rfl

/-- What changing a bit does, here and in the file. -/
theorem putBits_changed {n : BlockNumber} (h : s.Valid) (hn : n.toNat < bits.max)
    (hbits : bits.Valid) (hrest : ∀ m ≠ n.toNat, bits.get m = (s.pool kind).bits.get m)
    (hle : bits.get n.toNat = true →
      (s.pool kind).offset n.toNat + (s.pool kind).blockSize ≤ s.file.size) :
    (s.putBits kind n.toNat bits).Valid ∧ (s.putBits kind n.toNat bits).shape = s.shape ∧
      (s.putBits kind n.toNat bits).reserved = s.reserved ∧
      (s.putBits kind n.toNat bits).heap = Function.update s.heap (s.shape.home kind, n)
        (if bits.get n.toNat then some (s.block kind n.toNat) else none) := by
  have hvalid : (s.withBits kind bits).Valid := by
    refine h.withBits hmax hbits fun m hm => ?_
    by_cases heq : m = n.toNat
    · subst heq
      exact hle hm
    · rw [hrest m heq] at hm
      exact h.block_le hm
  have hpool : (s.withBits kind bits).pool kind = { s.pool kind with bits } := by
    rw [pool_withBits, if_pos rfl]
  have hn' : n.toNat < ((s.withBits kind bits).pool kind).bits.max := by
    rw [hpool]
    exact hn
  have hput : s.putBits kind n.toNat bits = { s.withBits kind bits with
      file := (s.withBits kind bits).file.write ((s.withBits kind bits).bitOffset kind n.toNat)
        [bits.byte (n.toNat / 8)] } := by
    rw [bitOffset, hpool]
    rfl
  have hbit := bit_le_reserve hvalid.sections hn'
  obtain ⟨hfile, hlayout, hheader, -⟩ := setPool_rest s kind { s.pool kind with bits }
  have hreserved : (s.withBits kind bits).reserved = s.reserved := by
    rw [reserved, reserved, withBits, hfile, hlayout, hheader]
  refine ⟨hput ▸ hvalid.write .., ?_, ?_, ?_⟩
  · rw [hput]
    exact shape_withBits hmax
  · rw [hput, ← hreserved]
    exact reserved_write hvalid (.inl hbit)
  · rw [hput, heap_writeBit hvalid hn', heap_withBits hmax hrest]

end Bits

/-! ### The operations -/

/-- A block is written like any other part of the file. -/
theorem putBlock_eq (data : Bytes) (h : s.Valid) (hn : n < (s.pool kind).bits.max) :
    s.putBlock kind n data = { s with
      file := s.file.write ((s.pool kind).offset n) (data.fit (s.pool kind).blockSize) } := by
  rw [putBlock]
  by_cases hmapped : s.isMapped kind = true
  · have hle := h.mapped_le hmapped hn
    rw [if_pos hmapped, File.writeMapped_eq (by rw [Bytes.length_fit]; exact hle)]
  · rw [if_neg hmapped]

/-- What writing a block does. -/
theorem putBlock_changed {n : BlockNumber} (data : Bytes) (h : s.Valid)
    (hn : n.toNat < (s.pool kind).bits.max) :
    (s.putBlock kind n.toNat data).Valid ∧ (s.putBlock kind n.toNat data).shape = s.shape ∧
      (s.putBlock kind n.toNat data).reserved = s.reserved ∧
      (s.putBlock kind n.toNat data).heap = Function.update s.heap (s.shape.home kind, n)
        (if (s.pool kind).bits.get n.toNat then some (data.fit (s.pool kind).blockSize)
        else none) := by
  have hlen := Bytes.length_fit (s.pool kind).blockSize data
  rw [putBlock_eq data h hn]
  refine ⟨h.write .., rfl, reserved_write h ?_, heap_writeBlock h hn hlen⟩
  rw [hlen]
  exact (apart_reserve h.sections hn).symm

/-- Writing changes an allocated block, and otherwise fails. -/
theorem write_ends (h : s.Valid) (kind : Pool) (n : BlockNumber) (data : Bytes) :
    Ends (Store.write kind n data) s (fun _ s' => s' = s ∧ s.heap (s.shape.home kind, n) = none)
      fun _ s' => s'.Valid ∧ s'.shape = s.shape ∧ s'.reserved = s.reserved ∧
        s'.heap = Function.update s.heap (s.shape.home kind, n)
          (some (data.fit (s.shape.blockSize kind))) := by
  change Ends (FileStore.write kind n data) s _ _
  rw [FileStore.write]
  refine ends_bind_get (ends_bind_check (fun hget => ?_) fun hget => ?_)
  · have hchanged := putBlock_changed data h ((h.bits_valid kind).lt_max _ hget)
    rw [if_pos hget] at hchanged
    exact ends_of_ok rfl hchanged
  · exact ⟨rfl, by rw [heap_home, poolHeap, if_neg hget]⟩

/-- Freeing takes an allocated block out of the heap, and otherwise fails. -/
theorem free_ends (h : s.Valid) (kind : Pool) (n : BlockNumber) :
    Ends (Store.free kind n) s (fun _ s' => s' = s ∧ s.heap (s.shape.home kind, n) = none)
      fun _ s' => s'.Valid ∧ s'.shape = s.shape ∧ s'.reserved = s.reserved ∧
        s'.heap = Function.update s.heap (s.shape.home kind, n) none := by
  change Ends (FileStore.free kind n) s _ _
  rw [FileStore.free]
  refine ends_bind_get (ends_bind_check (fun hget => ?_) fun hget => ?_)
  · have hclear : ((s.pool kind).bits.clear n.toNat).get n.toNat = false := by
      rw [Bitset.get_clear, decide_eq_true rfl, Bool.not_true, Bool.and_false]
    have hmax := Bitset.max_clear (s.pool kind).bits n.toNat
    have hchanged := putBits_changed hmax h
      (hmax ▸ (h.bits_valid kind).lt_max _ hget) ((h.bits_valid kind).clear _)
      (fun m hm => by rw [Bitset.get_clear, decide_eq_false hm, Bool.not_false, Bool.and_true])
      (by rw [hclear]; exact fun hfalse => absurd hfalse Bool.false_ne_true)
    rw [hclear] at hchanged
    exact ends_of_ok rfl hchanged
  · exact ⟨rfl, by rw [heap_home, poolHeap, if_neg hget]⟩

/-- What writing a block and then setting its bit does. -/
theorem allocate_changed {n : BlockNumber} (h : s.Valid) (hn : n.toNat < (s.pool kind).bits.max)
    (hs' : s' = (s.putBlock kind n.toNat data).putBits kind n.toNat
      ((s.pool kind).bits.set n.toNat)) :
    s'.Valid ∧ s'.shape = s.shape ∧ s'.reserved = s.reserved ∧
      s'.heap = Function.update s.heap (s.shape.home kind, n)
        (some (data.fit (s.shape.blockSize kind))) := by
  subst hs'
  obtain ⟨hvalid, hshape, hreserved, hheap⟩ := putBlock_changed _ h hn
  have hput := putBlock_eq data h hn
  have hpool : (s.putBlock kind n.toNat data).pool kind = s.pool kind := by
    rw [hput]
    rfl
  have hlen := Bytes.length_fit (s.pool kind).blockSize data
  have hne : data.fit (s.pool kind).blockSize ≠ [] := by
    have hmin : minBlockSize ≤ (s.pool kind).blockSize := h.shape_valid.minBlockSize_le kind
    intro hnil
    rw [hnil] at hlen
    exact absurd hmin (by rw [← hlen]; decide)
  have hset : ((s.pool kind).bits.set n.toNat).get n.toNat = true := by
    rw [Bitset.get_set, decide_eq_true rfl, Bool.or_true]
  have hmax := Bitset.max_set (s.pool kind).bits n.toNat
  obtain ⟨hvalid', hshape', hreserved', hheap'⟩ :=
    putBits_changed (by rw [hpool]; exact hmax) hvalid (hmax ▸ hn) ((h.bits_valid kind).set hn)
    (fun m hm => by rw [hpool, Bitset.get_set, decide_eq_false hm, Bool.or_false])
    (fun _ => by
      have hsize := File.size_write s.file ((s.pool kind).offset n.toNat) hne
      rw [hlen] at hsize
      rw [hpool, hput]
      exact Nat.le_trans (Nat.le_max_right ..) (Nat.le_of_eq hsize.symm))
  refine ⟨hvalid', hshape'.trans hshape, hreserved'.trans hreserved, ?_⟩
  have hblock : (s.putBlock kind n.toNat data).block kind n.toNat =
      data.fit (s.pool kind).blockSize := by
    rw [block, hpool, hput]
    have := File.window_write_self s.file ((s.pool kind).offset n.toNat)
      (data.fit (s.pool kind).blockSize)
    rwa [hlen] at this
  rw [hheap', hshape, hset, if_pos rfl, hblock, hheap, Function.update_idem]
  rfl

/-- Allocating puts a block into the heap, unless all blocks are there. -/
theorem allocate_ends (h : s.Valid) (kind : Pool) (data : Bytes) :
    Ends (Store.allocate kind data) s
      (fun e s' => s' = s ∧ e = .outOfSpace kind (s.shape.maxBlocks kind) ∧
        ∀ n : BlockNumber, n.toNat < s.shape.maxBlocks kind →
          (s.heap (s.shape.home kind, n)).isSome)
      fun n s' => n.toNat < s.shape.maxBlocks kind ∧ s.heap (s.shape.home kind, n) = none ∧
        s'.Valid ∧ s'.shape = s.shape ∧ s'.reserved = s.reserved ∧
        s'.heap = Function.update s.heap (s.shape.home kind, n)
          (some (data.fit (s.shape.blockSize kind))) := by
  have hspec := Bitset.firstClear?_spec (h.bits_valid kind)
  change Ends (FileStore.allocate kind data) s _ _
  rw [FileStore.allocate]
  refine ends_bind_get ?_
  dsimp only
  cases hfirst : (s.pool kind).bits.firstClear? with
  | none =>
    rw [hfirst] at hspec
    refine ⟨rfl, rfl, fun n hn => ?_⟩
    rw [heap_home, poolHeap, if_pos (hspec n.toNat hn)]
    rfl
  | some i =>
    rw [hfirst] at hspec
    obtain ⟨hi, hget, -⟩ := hspec
    obtain ⟨n, rfl⟩ : ∃ n : BlockNumber, n.toNat = i :=
      ⟨UInt32.ofNat i, toNat_ofNat_of_le hi (h.shape_valid.maxBlocks_le kind)⟩
    have hnone : s.heap (s.shape.home kind, n) = none := by
      rw [heap_home, poolHeap, hget]
      rfl
    have hn : UInt32.ofNat n.toNat = n := UInt32.ofNat_toNat
    exact ends_of_ok (congrArg (fun m => (Except.ok m, _)) hn)
      ⟨hi, hnone, allocate_changed h hi rfl⟩

/-- Writing the reserve changes its beginning, and fails if it is too short. -/
theorem setReserve_ends (h : s.Valid) (data : Bytes) :
    Ends (Store.setReserve data) s (fun _ s' => s' = s ∧ s.shape.reserveSize < data.length)
      fun _ s' => s'.Valid ∧ s'.shape = s.shape ∧ s'.heap = s.heap ∧
        s'.reserved = data ++ s.reserved.drop data.length := by
  change Ends (FileStore.setReserve data) s _ _
  rw [FileStore.setReserve]
  refine ends_bind_get (ends_bind_check (fun hdata => ?_) fun hdata => ?_)
  · refine ends_of_ok rfl ⟨h.write .., rfl, heap_writeReserve h hdata, ?_⟩
    exact File.window_write s.file s.layout.reserve.toNat hdata
  · exact ⟨rfl, Nat.lt_of_not_le hdata⟩

/-- A block of the heap is read. -/
theorem read_eq (h : s.Valid) {n : BlockNumber} {bs : Bytes}
    (hbs : s.heap (s.shape.home kind, n) = some bs) : s.read kind n = .ok bs := by
  rw [heap_home, poolHeap] at hbs
  split at hbs
  · next hget =>
    have hle := h.block_le hget
    have hcheck : (s.pool kind).check kind n = .ok () := if_pos hget
    rw [read, hcheck]
    change (if s.isMapped kind = true then _ else _) = _
    rw [File.readMapped_eq hle, File.read_eq hle, ← Option.some.inj hbs]
    split <;> rfl
  · cases hbs

theorem reserve_eq (h : s.Valid) : s.reserve = .ok s.reserved := by
  have := h.sections.reserve
  have := h.size_ge
  exact File.read_eq (by omega)

end PagedMap.FileStore
