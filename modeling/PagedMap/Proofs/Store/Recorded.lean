/-
# What a file tells of its store

A store in a file keeps no more than what the file tells: the header of the file is that
of the store, and each bitset is in the file with its length in front
(`FileStore.Recorded`). No operation writes into the header or into the length of a
bitset, and a bitset is only written together with the copy of it
(`FileStore.Recorded.run`). Whether the blocks lie within the file is of no account.

Key definitions: `FilePool.Written`, `FileStore.Laid`, `FileStore.Recorded`.
Key theorems: `FileStore.Recorded.write`, `FileStore.Recorded.putBits`,
`FileStore.Recorded.run`.
-/
import PagedMap.Proofs.Store.Counts
import PagedMap.Proofs.Store.Header
import PagedMap.Proofs.Store.Ideal

namespace PagedMap

namespace File

variable {f : File} {o n i offset : Nat} {w data : Bytes} {b : UInt8}

/-! ### Parts of a file that are kept -/

/-- What is read in full lies within the file. -/
theorem le_size_of_window (h : f.window o n = w) (hlen : w.length = n) (hpos : 0 < n) :
    o + n ≤ f.size := by
  have hwindow := congrArg List.length h
  rw [window_eq, List.length_take, List.length_drop, length_toList] at hwindow
  omega

/-- What is not met by what is written is read as before. -/
theorem window_write_kept (h : f.window o n = w) (hlen : w.length = n) (hpos : 0 < n)
    (hapart : FileStore.Apart offset data.length o n) :
    (f.write offset data).window o n = w := by
  have hle := le_size_of_window h hlen hpos
  rw [← h]
  refine window_write_of_disjoint ?_
  rcases hapart with hapart | hapart
  · exact .inr hapart
  · exact .inl ⟨hapart, hle⟩

theorem window_extend_kept (h : f.window o n = w) (hlen : w.length = n) (hpos : 0 < n) (m : Nat) :
    (f.extend m).window o n = w :=
  (window_extend (le_size_of_window h hlen hpos) m).trans h

/-- One byte is written within what is read. -/
theorem window_write_byte (h : o + n ≤ f.size) (hi : i < n) :
    (f.write (o + i) [b]).window o n = (f.window o n).set i b := by
  have hdata : [b] ≠ [] := List.cons_ne_nil b []
  have hsize : o + n ≤ f.toList.length := by rwa [length_toList]
  refine List.ext_getElem? fun j => ?_
  have hgap : o + i - f.size = 0 := by omega
  rw [window_eq, window_eq, toList_write f (o + i) hdata, hgap, List.replicate_zero,
    List.append_nil]
  simp only [List.getElem?_take, List.getElem?_drop, List.getElem?_set, List.getElem?_append,
    List.length_append, List.length_take, List.length_singleton, List.length_drop]
  rw [Nat.min_eq_left (by omega)]
  by_cases hj : j < n
  · rw [if_pos hj]
    rcases Nat.lt_trichotomy j i with hlt | rfl | hlt
    · rw [if_pos (by omega), if_pos (by omega), if_pos (by omega), if_neg (by omega), if_pos hj]
    · rw [if_pos (by omega), if_neg (by omega), if_pos rfl, if_pos (by omega), Nat.sub_self]
      rfl
    · rw [if_neg (by omega), if_neg (by omega), if_pos hj]
      congr 1
      omega
  · rw [if_neg hj]
    rw [if_neg (by omega), if_neg hj]

end File

/-! ### Bitsets in files -/

namespace FilePool

/-- The bitset with its length in front. -/
def written (p : FilePool) : Bytes :=
  Bytes.ofNat Layout.bitsetLengthSize p.bits.toBytes.length ++ p.bits.toBytes

/-- How many bytes the bitset and its length have. -/
def span (p : FilePool) : Nat := Layout.bitsetLengthSize + Bitset.byteLength p.bits.max

/-- The bitset is in the file. -/
def Written (p : FilePool) (f : File) : Prop := f.window p.bitsetOffset p.span = p.written

variable {p : FilePool} {f : File} {n offset : Nat} {bits : Bitset} {data : Bytes}

theorem length_written (p : FilePool) : p.written.length = p.span := by
  rw [written, List.length_append, Bytes.length_ofNat, Bitset.toBytes, Bytes.length_fit, span]

theorem span_pos (p : FilePool) : 0 < p.span := by
  rw [span, Layout.bitsetLengthSize]
  omega

theorem Written.write (h : p.Written f)
    (hapart : FileStore.Apart offset data.length p.bitsetOffset p.span) :
    p.Written (f.write offset data) :=
  File.window_write_kept h p.length_written p.span_pos hapart

/-- One byte is written for a bit that changes. -/
theorem Written.writeBit (h : p.Written f) (hmax : bits.max = p.bits.max) (hn : n < bits.max)
    (hrest : ∀ j ≠ n / 8, bits.byte j = p.bits.byte j) :
    ({ p with bits } : FilePool).Written (writeBit { p with bits } n f) := by
  have hle := File.le_size_of_window h p.length_written p.span_pos
  have hbyte := FileStore.byteIndex_lt hn
  have hspan : ({ p with bits } : FilePool).span = p.span := by
    rw [span, span, hmax]
  rw [Written, hspan, FilePool.writeBit, Nat.add_assoc]
  refine (File.window_write_byte hle (by rw [span, ← hmax]; omega)).trans ?_
  have hlen : bits.toBytes.length = p.bits.toBytes.length := by
    rw [Bitset.toBytes, Bitset.toBytes, Bytes.length_fit, Bytes.length_fit, hmax]
  have hset : (Bytes.ofNat Layout.bitsetLengthSize p.bits.toBytes.length ++ p.bits.toBytes).set
      (Layout.bitsetLengthSize + n / 8) (bits.byte (n / 8)) =
      Bytes.ofNat Layout.bitsetLengthSize p.bits.toBytes.length ++
        p.bits.toBytes.set (n / 8) (bits.byte (n / 8)) := by
    rw [List.set_append_right _ _ (by rw [Bytes.length_ofNat]; omega), Bytes.length_ofNat,
      Nat.add_sub_cancel_left]
  rw [h, written, written, hset, hlen, Bitset.toBytes_eq_set hmax hrest]

end FilePool

/-! ### Where the sections are -/

/-- The number of blocks of a pool. -/
def Header.blocksOf (h : Header) : Pool → Nat
  | .leaf => h.maxBlocks
  | .index => (h.region?.map Region.maxBlocks).getD h.maxBlocks

/-- The header ends before the first section begins. -/
theorem Layout.header_le {h : Header} {l : Layout} (hfits : h.Fits) (hl : ofHeader h = .ok l) :
    h.encodedLength ≤ (if h.region?.isSome then l.regionBitset else l.bitset).toNat := by
  obtain ⟨⟨hmin, hblock⟩, -, -, -⟩ := hfits
  have hpos : 0 < h.blockSize := Nat.lt_of_lt_of_le (by decide) hmin
  have hint : maxInt32 = 2 ^ 31 - 1 := rfl
  have hsize : Header.size h.region?.isSome ≤ 28 := by cases h.region?.isSome <;> decide
  have hheader := toNat_ofNat (n := h.encodedLength) (by rw [Header.encodedLength]; omega)
  have hunit : (UInt64.ofNat h.blockSize).toNat = h.blockSize := toNat_ofNat hblock
  have hfirst := (alignUp_spec (UInt64.ofNat h.encodedLength) (hunit ▸ hpos)
    (by rw [hheader, hunit, Header.encodedLength]; omega)).1
  rw [hheader] at hfirst
  rw [ofHeader, if_neg (Nat.ne_of_gt hpos)] at hl
  obtain ⟨version, blockSize, maxBlocks, reserveSize, region?⟩ := h
  cases region? <;> obtain rfl := Except.ok.inj hl <;> exact hfirst

namespace FileStore

variable {s s' : FileStore} {kind k : Pool} {n m offset : Nat} {data : Bytes} {bits : Bitset}

/-- The pool that serves a kind of blocks in a file of the given header. -/
def poolAt (h : Header) (l : Layout) (kind : Pool) (bits : Bitset) : FilePool :=
  match kind, h.region? with
  | .index, some r => regionPool r l bits
  | _, _ => mainPool h l bits

theorem poolAt_leaf (h : Header) (l : Layout) (bits : Bitset) :
    poolAt h l .leaf bits = mainPool h l bits := by
  obtain ⟨version, blockSize, maxBlocks, reserveSize, region?⟩ := h
  cases region? <;> rfl

theorem poolAt_plain {h : Header} (hr : h.region? = none) (l : Layout) (kind : Pool)
    (bits : Bitset) : poolAt h l kind bits = mainPool h l bits := by
  obtain ⟨version, blockSize, maxBlocks, reserveSize, region?⟩ := h
  obtain rfl : region? = none := hr
  cases kind <;> rfl

theorem poolAt_region {h : Header} {r : Region} (hr : h.region? = some r) (l : Layout)
    (bits : Bitset) : poolAt h l .index bits = regionPool r l bits := by
  obtain ⟨version, blockSize, maxBlocks, reserveSize, region?⟩ := h
  obtain rfl : region? = some r := hr
  rfl

theorem poolAt_with (h : Header) (l : Layout) (kind : Pool) (bits bits' : Bitset) :
    { poolAt h l kind bits with bits := bits' } = poolAt h l kind bits' := by
  obtain ⟨version, blockSize, maxBlocks, reserveSize, region?⟩ := h
  cases kind <;> cases region? <;> rfl

theorem pool_of_none (h : s.region? = none) (kind : Pool) : s.pool kind = s.main := by
  cases kind with
  | leaf => rfl
  | index => rw [pool, h, Option.getD_none]

theorem pool_of_some {p : FilePool} (h : s.region? = some p) : s.pool .index = p := by
  rw [pool, h, Option.getD_some]

/-- The store is laid out as its header says. -/
structure Laid (s : FileStore) : Prop where
  stored : s.header.Stored
  layout_eq : Layout.ofHeader s.header = .ok s.layout
  isSome_eq : s.region?.isSome = s.header.region?.isSome
  pool_eq : ∀ kind, s.pool kind = poolAt s.header s.layout kind (s.pool kind).bits
  max_eq : ∀ kind, (s.pool kind).bits.max = s.header.blocksOf kind

/-- The content of the file tells what the store keeps of it. -/
structure Recorded (s : FileStore) : Prop extends Laid s where
  bits_valid : ∀ kind, (s.pool kind).bits.Valid
  counted : ∀ kind, (s.pool kind).bits.Counted
  header_written : s.file.window 0 s.header.encodedLength = s.header.encode
  bits_written : ∀ kind, (s.pool kind).Written s.file
  size_ge : s.region?.isSome = true → s.layout.blocks.toNat ≤ s.file.size

/-- The sections follow each other and the header. -/
structure Placed (s : FileStore) : Prop where
  sections : s.Sections
  header_le : ∀ kind, s.header.encodedLength ≤ (s.pool kind).bitsetOffset

theorem Laid.main_eq (h : s.Laid) : s.main = mainPool s.header s.layout s.main.bits :=
  (h.pool_eq .leaf).trans (poolAt_leaf ..)

theorem Laid.region_eq (h : s.Laid) {r : Region} (hr : s.header.region? = some r) :
    s.region? = some (regionPool r s.layout (s.pool .index).bits) := by
  have hsome := h.isSome_eq
  rw [hr] at hsome
  obtain ⟨p, hp⟩ := Option.isSome_iff_exists.1 hsome
  rw [← poolAt_region hr, ← h.pool_eq, pool_of_some hp, hp]

theorem Laid.region_none (h : s.Laid) (hr : s.header.region? = none) :
    s.region? = none := by
  have hsome := h.isSome_eq
  rw [hr] at hsome
  exact Option.not_isSome_iff_eq_none.1 (by rw [hsome]; exact Bool.false_ne_true)

theorem Laid.placed (h : s.Laid) : s.Placed := by
  obtain ⟨l, hl, hregion, hbitset, hreserve⟩ := Layout.ofHeader_spec h.stored.toFits
  obtain rfl : s.layout = l := Except.ok.inj (h.layout_eq.symm.trans hl)
  have hfirst := Layout.header_le h.stored.toFits hl
  have hmax : s.main.bits.max = s.header.maxBlocks := h.max_eq .leaf
  have hmain := h.main_eq
  have hsections : s.Sections := by
    refine ⟨fun p hp => ?_, ?_, ?_⟩
    · cases hr : s.header.region? with
      | none =>
        rw [h.region_none hr] at hp
        cases hp
      | some r =>
        have hrmax := h.max_eq .index
        rw [h.region_eq hr] at hp
        rw [Header.blocksOf, hr] at hrmax
        rw [← Option.mem_some.1 hp, hmain]
        change _ + _ + Bitset.byteLength (s.pool .index).bits.max ≤ _ ∧
          _ + (s.pool .index).bits.max * _ ≤ _
        rw [hrmax]
        exact hregion r hr
    · rw [hmax, hmain]
      exact hbitset
    · rw [hmain]
      exact hreserve
  refine ⟨hsections, fun kind => ?_⟩
  cases hr : s.header.region? with
  | none =>
    rw [hr] at hfirst
    rw [pool_of_none (h.region_none hr), hmain]
    exact hfirst
  | some r =>
    have hplace := hregion r hr
    rw [hr, if_pos (by rfl)] at hfirst
    rw [h.pool_eq]
    cases kind with
    | leaf =>
      rw [poolAt_leaf]
      change _ ≤ s.layout.bitset.toNat
      exact Nat.le_trans hfirst (by omega)
    | index =>
      rw [poolAt_region hr]
      exact hfirst

/-! ### Places that do not meet -/

section Placed

variable (h : s.Placed)
include h

/-- The blocks of a pool come after its bitset, and the reserve comes after every bitset. -/
theorem Placed.bitset_le (kind : Pool) :
    (s.pool kind).bitsetOffset + (s.pool kind).span ≤ (s.pool kind).blocksOffset ∧
      (s.pool kind).bitsetOffset + (s.pool kind).span ≤ s.layout.reserve.toNat := by
  have hbitset := h.sections.bitset
  have hreserve := h.sections.reserve
  rw [FilePool.span]
  cases hregion : s.region? with
  | none =>
    rw [pool_of_none hregion]
    omega
  | some p =>
    cases kind with
    | leaf =>
      rw [show s.pool .leaf = s.main from rfl]
      omega
    | index =>
      have hp := h.sections.region p hregion
      rw [pool_of_some hregion]
      omega

/-- A block and a bitset do not meet. -/
theorem Placed.apart_bitset (hm : m < (s.pool k).bits.max) (kind : Pool) :
    Apart ((s.pool k).offset m) (s.pool k).blockSize (s.pool kind).bitsetOffset
      (s.pool kind).span := by
  have hoffset := offset_le hm
  have hown := (h.bitset_le k).1
  cases hregion : s.region? with
  | none =>
    rw [pool_of_none hregion] at hoffset hown ⊢
    rw [pool_of_none hregion kind]
    exact .inr (by omega)
  | some p =>
    have hp := h.sections.region p hregion
    have hbitset := h.sections.bitset
    have hreserve := h.sections.reserve
    cases k with
    | leaf =>
      have hbefore := (h.bitset_le kind).2
      rw [show s.pool .leaf = s.main from rfl] at hoffset ⊢
      exact .inr (by omega)
    | index =>
      cases kind with
      | leaf =>
        rw [pool_of_some hregion] at hm ⊢
        have := region_le h.sections hregion hm
        exact .inl this.2
      | index => exact .inr (by omega)

/-- The bitsets of two pools do not meet. -/
theorem Placed.apart_bitsets (hne : s.shape.home k ≠ s.shape.home kind) :
    Apart (s.pool k).bitsetOffset (s.pool k).span (s.pool kind).bitsetOffset
      (s.pool kind).span := by
  cases hregion : s.region? with
  | none =>
    cases k <;> cases kind <;> simp [shape, Shape.home, hregion] at hne
  | some p =>
    have hp := h.sections.region p hregion
    have hspan : p.bitsetOffset + p.span ≤ s.main.bitsetOffset := by
      rw [FilePool.span]
      omega
    cases k with
    | leaf =>
      cases kind with
      | leaf => exact absurd rfl hne
      | index =>
        rw [pool_of_some hregion]
        exact .inr hspan
    | index =>
      cases kind with
      | leaf =>
        rw [pool_of_some hregion]
        exact .inl hspan
      | index => exact absurd rfl hne

end Placed

/-! ### The operations -/

/-- What is written elsewhere leaves the header and the bitsets as they are. -/
theorem Recorded.write (h : s.Recorded) (hheader : s.header.encodedLength ≤ offset)
    (hbits : ∀ kind, Apart offset data.length (s.pool kind).bitsetOffset (s.pool kind).span) :
    ({ s with file := s.file.write offset data } : FileStore).Recorded where
  stored := h.stored
  layout_eq := h.layout_eq
  isSome_eq := h.isSome_eq
  pool_eq := h.pool_eq
  max_eq := h.max_eq
  bits_valid := h.bits_valid
  counted := h.counted
  header_written := File.window_write_kept h.header_written s.header.length_encode
    s.header.encodedLength_pos (.inr (by rwa [Nat.zero_add]))
  bits_written kind := (h.bits_written kind).write (hbits kind)
  size_ge hsome := Nat.le_trans (h.size_ge hsome) (File.size_le_write ..)

theorem Recorded.writeBlock (h : s.Recorded) (hn : n < (s.pool kind).bits.max)
    (hdata : data.length ≤ (s.pool kind).blockSize) :
    ({ s with file := s.file.write ((s.pool kind).offset n) data } : FileStore).Recorded := by
  have hoffset := (offset_le hn).1
  have hheader := h.placed.header_le kind
  have hbitset := (h.placed.bitset_le kind).1
  refine h.write (by omega) fun k => ?_
  rcases h.placed.apart_bitset hn k with hle | hle
  · exact .inl (by omega)
  · exact .inr hle

theorem Recorded.putBlock (h : s.Recorded) (hn : n < (s.pool kind).bits.max) (data : Bytes) :
    (s.putBlock kind n data).Recorded := by
  have hlen := Bytes.length_fit (s.pool kind).blockSize data
  rw [FileStore.putBlock]
  by_cases hmapped : s.isMapped kind = true
  · rw [if_pos hmapped]
    exact h.writeBlock hn (by rw [List.length_take, hlen]; exact Nat.min_le_right ..)
  · rw [if_neg hmapped]
    exact h.writeBlock hn (Nat.le_of_eq hlen)

theorem header_putBlock (s : FileStore) (kind : Pool) (n : Nat) (data : Bytes) :
    (s.putBlock kind n data).header = s.header := by
  rw [FileStore.putBlock]
  split <;> rfl

theorem isSome_withBits (s : FileStore) (kind : Pool) (bits : Bitset) :
    (s.withBits kind bits).region?.isSome = s.region?.isSome := by
  rw [← Bool.not_inj_iff, Option.not_isSome, Option.not_isSome]
  exact (setPool_rest ..).2.2.2

/-- Where the sections are does not depend on the bits. -/
theorem Laid.withBits (h : s.Laid) (hmax : bits.max = (s.pool kind).bits.max) :
    (s.withBits kind bits).Laid := by
  have hlayout : (s.withBits kind bits).layout = s.layout := (setPool_rest ..).2.1
  have hheader : (s.withBits kind bits).header = s.header := (setPool_rest ..).2.2.1
  refine ⟨hheader ▸ h.stored, ?_, ?_, fun k => ?_, fun k => ?_⟩
  · rw [hheader, hlayout]
    exact h.layout_eq
  · rw [isSome_withBits, hheader]
    exact h.isSome_eq
  · rw [hheader, hlayout, pool_withBits]
    split
    · next hk =>
      have hown := h.pool_eq k
      rw [pool_eq_of_home hk] at hown
      rw [hown]
      exact poolAt_with ..
    · exact h.pool_eq k
  · rw [hheader, pool_withBits]
    split
    · next hk => rw [hmax, ← pool_eq_of_home hk, h.max_eq]
    · exact h.max_eq k

/-- A bit is changed here and in the file alike. -/
theorem Recorded.putBits (h : s.Recorded) (hmax : bits.max = (s.pool kind).bits.max)
    (hn : n < bits.max) (hvalid : bits.Valid) (hcounted : bits.Counted)
    (hrest : ∀ j ≠ n / 8, bits.byte j = (s.pool kind).bits.byte j) :
    (s.putBits kind n bits).Recorded := by
  have hlaid := h.toLaid.withBits hmax
  have hpool (k : Pool) : (s.putBits kind n bits).pool k =
      if s.shape.home k = s.shape.home kind then { s.pool kind with bits } else s.pool k :=
    pool_withBits ..
  have hwrite : (s.putBits kind n bits).file =
      FilePool.writeBit { s.pool kind with bits } n s.file :=
    congrArg (FilePool.writeBit { s.pool kind with bits } n) (setPool_rest ..).1
  have hlayout : (s.putBits kind n bits).layout = s.layout := (setPool_rest ..).2.1
  have hheader : (s.putBits kind n bits).header = s.header := (setPool_rest ..).2.2.1
  have hbyte := byteIndex_lt hn
  have hspan : Layout.bitsetLengthSize + n / 8 + 1 ≤ (s.pool kind).span := by
    rw [FilePool.span, ← hmax]
    omega
  refine ⟨⟨hlaid.stored, hlaid.layout_eq, hlaid.isSome_eq, hlaid.pool_eq, hlaid.max_eq⟩,
    fun k => ?_, fun k => ?_, ?_, fun k => ?_, fun hregion => ?_⟩
  · rw [hpool]
    split
    · exact hvalid
    · exact h.bits_valid k
  · rw [hpool]
    split
    · exact hcounted
    · exact h.counted k
  · -- the header ends before the bitset begins
    have hle := h.placed.header_le kind
    rw [hwrite, hheader]
    refine File.window_write_kept h.header_written s.header.length_encode
      s.header.encodedLength_pos (.inr ?_)
    dsimp only
    omega
  · rw [hpool, hwrite]
    split
    · exact (h.bits_written kind).writeBit hmax hn hrest
    · next hne =>
      refine (h.bits_written k).write ?_
      rw [List.length_singleton]
      rcases h.placed.apart_bitsets (Ne.symm hne) with hle | hle
      · exact .inl (by dsimp only; omega)
      · exact .inr (by dsimp only; omega)
  · have hsome := (isSome_withBits s kind bits).symm.trans hregion
    rw [hlayout, hwrite]
    exact Nat.le_trans (h.size_ge hsome) (File.size_le_write ..)

/-- The store goes on with the same header, and its file tells all of it. -/
def Continues (s s' : FileStore) : Prop := s'.Recorded ∧ s'.header = s.header

theorem Recorded.allocate_ends (h : s.Recorded) (kind : Pool) (data : Bytes) :
    Ends (FileStore.allocate kind data) s
      (fun e s' => s' = s ∧ e = .outOfSpace kind (s.pool kind).bits.max)
      fun n s' => s.Continues s' ∧ ∀ m < n.toNat, (s.pool kind).bits.get m = true := by
  have hspec := Bitset.firstClear?_spec (h.bits_valid kind)
  rw [FileStore.allocate]
  refine ends_bind_get ?_
  dsimp only
  cases hfirst : (s.pool kind).bits.firstClear? with
  | none => exact ends_throw ⟨rfl, rfl⟩
  | some n =>
    rw [hfirst] at hspec
    obtain ⟨hn, -, hbelow⟩ := hspec
    have hmax := Bitset.max_set (s.pool kind).bits n
    have hpool : (s.putBlock kind n data).pool kind = s.pool kind := by
      rw [FileStore.putBlock]
      split <;> rfl
    refine ends_of_ok rfl ⟨⟨(h.putBlock hn data).putBits ?_ ?_ ((h.bits_valid kind).set hn)
      ((h.counted kind).set hn) fun j hj => ?_, ?_⟩, fun m hm => hbelow m ?_⟩
    · rw [hpool, hmax]
    · rw [hmax]
      exact hn
    · rw [hpool]
      exact Bitset.byte_set hj
    · exact (setPool_rest ..).2.2.1.trans (header_putBlock s kind n data)
    · exact Nat.lt_of_lt_of_le hm (Nat.mod_le ..)

theorem Recorded.write_ends (h : s.Recorded) (kind : Pool) (n : BlockNumber) (data : Bytes) :
    Ends (FileStore.write kind n data) s (fun e s' => s' = s ∧ e = .notAllocated kind n)
      fun _ s' => s.Continues s' ∧ (s.pool kind).bits.get n.toNat = true := by
  rw [FileStore.write]
  refine ends_bind_get (ends_bind_check (fun hget => ?_) fun _ => ⟨rfl, rfl⟩)
  refine ends_of_ok rfl ⟨⟨h.putBlock ((h.bits_valid kind).lt_max _ hget) data, ?_⟩, hget⟩
  exact header_putBlock ..

theorem Recorded.free_ends (h : s.Recorded) (kind : Pool) (n : BlockNumber) :
    Ends (FileStore.free kind n) s (fun e s' => s' = s ∧ e = .notAllocated kind n)
      fun _ s' => s.Continues s' ∧ (s.pool kind).bits.get n.toNat = true := by
  rw [FileStore.free]
  refine ends_bind_get (ends_bind_check (fun hget => ?_) fun _ => ⟨rfl, rfl⟩)
  have hmax := Bitset.max_clear (s.pool kind).bits n.toNat
  refine ends_of_ok rfl ⟨⟨h.putBits hmax ?_ ((h.bits_valid kind).clear _)
    ((h.counted kind).clear (h.bits_valid kind) _) fun j hj => Bitset.byte_clear hj,
    (setPool_rest ..).2.2.1⟩, hget⟩
  rw [hmax]
  exact (h.bits_valid kind).lt_max _ hget

theorem Recorded.setReserve_ends (h : s.Recorded) (data : Bytes) :
    Ends (FileStore.setReserve data) s
      (fun e s' => s' = s ∧ e = .invalidArgument (.reserveData data.length s.header.reserveSize))
      fun _ s' => s.Continues s' ∧ data.length ≤ s.header.reserveSize := by
  rw [FileStore.setReserve]
  refine ends_bind_get (ends_bind_check (fun hdata => ?_) fun _ => ⟨rfl, rfl⟩)
  refine ends_of_ok rfl ⟨⟨h.write ?_ fun kind => .inr ?_, rfl⟩, hdata⟩
  · have := h.placed.header_le .leaf
    have := (h.placed.bitset_le .leaf).2
    omega
  · exact (h.placed.bitset_le kind).2

theorem Recorded.continues (h : s.Recorded) : s.Continues s := ⟨h, rfl⟩

/-- A store goes on after it is asked if it does where the change succeeds, and is left as it
was where the change fails. -/
theorem Recorded.continues_after {α : Type} {act : Action FileStore α} {E : Error → Prop}
    {Q : α → Prop} (h : s.Recorded)
    (hends : Ends act s (fun e s' => s' = s ∧ E e) fun a s' => s.Continues s' ∧ Q a)
    (answer : α → StoreAnswer) :
    s.Continues ((act >>= fun a => pure (answer a)) s).2 := by
  rw [snd_bind_pure]
  refine Ends.final (hends.mono ?_ fun _ _ hq => hq.1)
  rintro - _ ⟨rfl, -⟩
  exact h.continues

/-- Whatever is asked of a store, its file goes on telling all of it. -/
theorem Recorded.run (h : s.Recorded) (c : StoreCall) : s.Continues (c.run s).2 := by
  cases c with
  | allocate kind data => exact h.continues_after (h.allocate_ends kind data) .block
  | write kind n data => exact h.continues_after (h.write_ends kind n data) fun _ => .done
  | free kind n => exact h.continues_after (h.free_ends kind n) fun _ => .done
  | setReserve data => exact h.continues_after (h.setReserve_ends data) fun _ => .done
  | read kind n =>
    exact Ends.final (ends_bind_get (ends_bind_compute (fun _ => h.continues)
      fun _ => ends_pure h.continues))
  | isAllocated kind n => exact h.continues
  | allocatedCount kind => exact h.continues
  | reserve =>
    exact Ends.final (ends_bind_get (ends_bind_compute (fun _ => h.continues)
      fun _ => ends_pure h.continues))
  | sync => exact h.continues

end FileStore

end PagedMap
