/-
# Stores that are made and loaded

A file that is made into a store tells all of the store, and so does every file that is
loaded (`FileStore.create_recorded`, `FileStore.load_recorded`). From a file that tells
all of a store the store is loaded again if its own header is wanted, with the same
blocks and the same reserve; if another header is wanted, it is refused
(`FileStore.Recorded.load_self`, `FileStore.Recorded.load_other`).

Key definition: `FileStore.Same`.
Key theorems: `FileStore.load_recorded`, `FileStore.Recorded.load_self`,
`FileStore.Recorded.load_other`.
-/
import PagedMap.Proofs.Store.Recorded

namespace PagedMap

namespace File

variable {f : File} {o n m : Nat} {bs : Bytes}

theorem window_add (f : File) (o n m : Nat) :
    f.window o (n + m) = f.window o n ++ f.window (o + n) m := by
  rw [window_eq, window_eq, window_eq, List.take_add, List.drop_drop]

theorem of_read (h : f.read o n = .ok bs) : bs = f.window o n ∧ bs.length = n := by
  rw [read] at h
  split at h
  · next hlen =>
    obtain rfl := Except.ok.inj h
    exact ⟨rfl, hlen⟩
  · cases h

end File

namespace FilePool

variable {p : FilePool} {f : File} {o max : Nat} {bits : Bitset}

/-! ### Bitsets that are written and read -/

theorem writeBitset_eq (p : FilePool) (f : File) :
    p.writeBitset f = f.write p.bitsetOffset p.written := rfl

theorem written_writeBitset (p : FilePool) (f : File) : p.Written (p.writeBitset f) := by
  have hself := File.window_write_self f p.bitsetOffset p.written
  rw [p.length_written] at hself
  exact hself

theorem Written.extend (h : p.Written f) (n : Nat) : p.Written (f.extend n) :=
  File.window_extend_kept h p.length_written p.span_pos n

/-- A bitset that is read is in the file. -/
theorem of_readBitset (h : readBitset f o max = .ok bits) :
    (∀ blockSize blocksOffset, (⟨blockSize, bits, o, blocksOffset⟩ : FilePool).Written f) ∧
      bits.max = max ∧ bits.Valid ∧ bits.Counted := by
  rw [readBitset] at h
  obtain ⟨front, hfront, h⟩ := exists_of_bind_eq_ok h
  obtain ⟨rfl, hlen⟩ := File.of_read hfront
  dsimp only at h
  split at h
  · cases h
  next hlength =>
  rw [not_not] at hlength
  obtain ⟨bs, hbs, h⟩ := exists_of_bind_eq_ok h
  obtain ⟨rfl, -⟩ := File.of_read hbs
  obtain ⟨hmax, hbytes, hvalid, hcounted⟩ := Bitset.of_ofBytes h
  refine ⟨fun blockSize blocksOffset => ?_, hmax, hvalid, hcounted⟩
  have htake := Bytes.take_of_toInt32 (Nat.le_of_eq hlen.symm) hlength
  have hall : (f.window o Layout.bitsetLengthSize).take 4 = f.window o Layout.bitsetLengthSize :=
    List.take_of_length_le (Nat.le_of_eq hlen)
  have hsize : bits.toBytes.length = Bitset.byteLength max := by
    rw [Bitset.toBytes, Bytes.length_fit, hmax]
  rw [Written, span, written, File.window_add, hsize, ← hall, htake, hbytes]
  dsimp only
  rw [hmax]
  rfl

/-- A bitset that is in the file is read, but for the hint. -/
theorem Written.readBitset (h : p.Written f) (hvalid : p.bits.Valid)
    (hmax : p.bits.max ≤ maxInt32) :
    ∃ bits, FilePool.readBitset f p.bitsetOffset p.bits.max = .ok bits ∧
      ∀ i, bits.get i = p.bits.get i := by
  obtain ⟨bits, hbits, hget⟩ := Bitset.ofBytes_toBytes hvalid
  have hle := File.le_size_of_window h p.length_written p.span_pos
  rw [span] at hle
  have hlen : p.bits.toBytes.length = Bitset.byteLength p.bits.max := by
    rw [Bitset.toBytes, Bytes.length_fit]
  rw [Written, span, written, File.window_add] at h
  obtain ⟨hfront, hrest⟩ := List.append_inj h (by
    rw [File.length_window (by omega), Bytes.length_ofNat])
  refine ⟨bits, ?_, hget⟩
  rw [FilePool.readBitset, File.read_eq (by omega), hfront, ok_bind]
  have hlength : Bytes.toInt32 (Bytes.ofNat Layout.bitsetLengthSize p.bits.toBytes.length) =
      Bitset.byteLength p.bits.max := by
    rw [hlen, Layout.bitsetLengthSize, ← List.append_nil (Bytes.ofNat 4 _)]
    exact Bytes.toInt32_ofNat_append (Layout.byteLength_le hmax) []
  dsimp only
  rw [hlength, if_neg (by rw [not_not]), File.read_eq (by omega), hrest, ok_bind]
  exact hbits

end FilePool

namespace FileStore

variable {s s' : FileStore} {path : String} {h wanted : Header} {l : Layout} {f : File}

/-! ### Making -/

theorem laid_blank (hs : h.Stored) (hl : Layout.ofHeader h = .ok l) (path : String) (f : File) :
    (blank path h l f).Laid := by
  obtain ⟨version, blockSize, maxBlocks, reserveSize, region?⟩ := h
  refine ⟨hs, hl, ?_, fun kind => ?_, fun kind => ?_⟩
  · exact Option.isSome_map
  · cases kind <;> cases region? <;> rfl
  · cases kind <;> cases region? <;> rfl

theorem pool_blank (kind : Pool) (f f' : File) :
    (blank path h l f).pool kind = (blank path h l f').pool kind := rfl

theorem recorded_blank (hs : h.Stored) (hl : Layout.ofHeader h = .ok l)
    (hheader : f.window 0 h.encodedLength = h.encode)
    (hbits : ∀ kind, ((blank path h l f).pool kind).Written f) (hsize : l.blocks.toNat ≤ f.size) :
    (blank path h l f).Recorded where
  toLaid := laid_blank hs hl path f
  bits_valid := bits_blank
  counted kind := by
    obtain ⟨version, blockSize, maxBlocks, reserveSize, region?⟩ := h
    cases kind <;> cases region? <;> exact Bitset.counted_empty _
  header_written := hheader
  bits_written := hbits
  size_ge _ := hsize

/-- What is left to do when the header and the bitset of the region are written: the bitset is
written, then the reserve, and the file is extended up to the blocks. -/
theorem recorded_of_front (hs : h.Stored) (hl : Layout.ofHeader h = .ok l)
    (hheader : f.window 0 h.encodedLength = h.encode)
    (hregion : ∀ p ∈ (blank path h l f).region?, p.Written f) (reserve : Bytes) :
    (blank path h l ((((blank path h l f).main.writeBitset f).write l.reserve.toNat
      reserve).extend l.blocks.toNat)).Recorded := by
  have hplaced := (laid_blank hs hl path f).placed
  have hmain := hplaced.header_le .leaf
  have hbits (kind : Pool) : ((blank path h l f).pool kind).Written
      ((blank path h l f).main.writeBitset f) := by
    cases hp : (blank path h l f).region? with
    | none =>
      rw [pool_of_none hp]
      exact FilePool.written_writeBitset (blank path h l f).main f
    | some p =>
      cases kind with
      | leaf => exact FilePool.written_writeBitset (blank path h l f).main f
      | index =>
        have hsections := hplaced.sections.region p hp
        rw [pool_of_some hp, FilePool.writeBitset_eq]
        refine (hregion p hp).write (.inr ?_)
        rw [FilePool.span]
        omega
  have hfront : ((blank path h l f).main.writeBitset f).window 0 h.encodedLength = h.encode := by
    rw [FilePool.writeBitset_eq]
    exact File.window_write_kept hheader h.length_encode h.encodedLength_pos
      (.inr (by rw [Nat.zero_add]; exact hmain))
  generalize (blank path h l f).main.writeBitset f = f₁ at hbits hfront ⊢
  have hbehind : h.encodedLength ≤ l.reserve.toNat := by
    have hbitset := (hplaced.bitset_le .leaf).2
    exact Nat.le_trans hmain (Nat.le_trans (Nat.le_add_right ..) hbitset)
  refine recorded_blank hs hl ?_ (fun kind => ?_) ?_
  · have hkept : (f₁.write l.reserve.toNat reserve).window 0 h.encodedLength = h.encode :=
      File.window_write_kept hfront h.length_encode h.encodedLength_pos
        (.inr (by rw [Nat.zero_add]; exact hbehind))
    exact File.window_extend_kept hkept h.length_encode h.encodedLength_pos _
  · rw [pool_blank kind _ f]
    exact ((hbits kind).write (.inr (hplaced.bitset_le kind).2)).extend _
  · rw [File.size_extend]
    exact Nat.le_max_right ..

/-- The file with the bitset of the region, if there is one. -/
def withRegion (region? : Option FilePool) (f : File) : File :=
  match region? with
  | some p => p.writeBitset f
  | none => f

theorem create_eq (hl : Layout.ofHeader h = .ok l) (f : File) : create path h f =
    .ok (blank path h l ((((blank path h l f).main.writeBitset
      (withRegion (blank path h l f).region? (f.write 0 h.encode))).write l.reserve.toNat
        (List.replicate h.reserveSize 0)).extend l.blocks.toNat)) := by
  rw [create, hl]
  rfl

/-- A file that is made into a store tells all of the store. -/
theorem create_recorded (hs : h.Stored) (hmade : create path h f = .ok s) :
    s.Recorded ∧ s.header = h := by
  obtain ⟨l, hl, -⟩ := Layout.ofHeader_spec hs.toFits
  rw [create_eq hl] at hmade
  obtain rfl := Except.ok.inj hmade
  have hself := File.window_write_self f 0 h.encode
  rw [h.length_encode] at hself
  generalize f.write 0 h.encode = f₁ at hself
  have hplaced := (laid_blank hs hl path f).placed
  have hfront : (withRegion (blank path h l f).region? f₁).window 0 h.encodedLength = h.encode ∧
      ∀ p ∈ (blank path h l f).region?, p.Written (withRegion (blank path h l f).region? f₁) := by
    cases hp : (blank path h l f).region? with
    | none =>
      refine ⟨hself, fun p hp' => ?_⟩
      cases hp'
    | some p =>
      have hle := hplaced.header_le .index
      rw [pool_of_some hp] at hle
      rw [withRegion]
      refine ⟨?_, fun p' hp' => ?_⟩
      · rw [FilePool.writeBitset_eq]
        exact File.window_write_kept hself h.length_encode h.encodedLength_pos
          (.inr (by rw [Nat.zero_add]; exact hle))
      · rw [Option.mem_some.1 hp']
        exact FilePool.written_writeBitset ..
  generalize withRegion (blank path h l f).region? f₁ = f₂ at hfront
  exact ⟨recorded_of_front hs hl hfront.1 hfront.2 _, rfl⟩

/-! ### Loading -/

/-- What is read of a file behind its header. -/
def loadPools (path : String) (wanted : Header) (l : Layout) (f : File) :
    Except Error FileStore := do
  let region? ← match wanted.region? with
    | some r => do
      let bits ← FilePool.readBitset f l.regionBitset.toNat r.maxBlocks
      pure (some (regionPool r l bits))
    | none => pure none
  let bits ← FilePool.readBitset f l.bitset.toNat wanted.maxBlocks
  return ⟨path, wanted, l, f, mainPool wanted l bits, region?⟩

/-- The file is as long as one that the header is wanted of must be. -/
def LongEnough (wanted : Header) (l : Layout) (f : File) : Prop :=
  if wanted.region?.isSome then l.initialLength.toNat ≤ f.size
  else wanted.encodedLength ≤ f.size

/-- A file that is long enough is opened if its header is the one wanted. -/
theorem load_eq (hl : Layout.ofHeader wanted = .ok l) (hlong : LongEnough wanted l f) :
    load path wanted f = f.read 0 wanted.encodedLength >>= fun front =>
      Header.decode front wanted.region?.isSome >>= fun found =>
      found.requireShape wanted >>= fun _ => loadPools path wanted l f := by
  rw [LongEnough, Header.encodedLength] at hlong
  rw [load, hl, ok_bind, Header.encodedLength]
  dsimp only
  simp only [loadPools]
  cases hr : wanted.region? with
  | some r =>
    rw [hr, if_pos (by rfl)] at hlong
    rw [if_pos (by rfl), if_neg (Nat.not_lt.2 hlong)]
  | none =>
    rw [hr, if_neg (by exact Bool.false_ne_true), Option.isSome_none] at hlong
    rw [Option.isSome_none, if_neg Bool.false_ne_true, if_neg (Nat.not_lt.2 hlong)]

/-- A file that is not long enough is refused. -/
theorem load_short (hl : Layout.ofHeader wanted = .ok l) (hshort : ¬ LongEnough wanted l f) :
    ∃ e, load path wanted f = .error e ∧ IsMismatch e := by
  rw [LongEnough, Header.encodedLength] at hshort
  rw [load, hl, ok_bind]
  dsimp only
  cases hr : wanted.region? with
  | some r =>
    rw [hr, if_pos (by rfl)] at hshort
    rw [if_pos (by rfl), if_pos (Nat.not_le.1 hshort)]
    exact ⟨_, rfl, trivial⟩
  | none =>
    rw [hr, if_neg (by exact Bool.false_ne_true), Option.isSome_none] at hshort
    rw [Option.isSome_none, if_neg Bool.false_ne_true, if_pos (Nat.not_le.1 hshort)]
    exact ⟨_, rfl, trivial⟩

/-- A file tells a store whose pools are where its header says and whose bitsets are read from
there. -/
theorem recorded_of_read (hs : s.header.Stored) (hl : Layout.ofHeader s.header = .ok s.layout)
    (hfront : s.file.window 0 s.header.encodedLength = s.header.encode)
    (hsize : s.header.region?.isSome = true → s.layout.blocks.toNat ≤ s.file.size)
    (hsome : s.region?.isSome = s.header.region?.isSome)
    (hpools : ∀ kind, s.pool kind = poolAt s.header s.layout kind (s.pool kind).bits ∧
      FilePool.readBitset s.file (s.pool kind).bitsetOffset (s.header.blocksOf kind) =
        .ok (s.pool kind).bits) :
    s.Recorded where
  stored := hs
  layout_eq := hl
  isSome_eq := hsome
  pool_eq kind := (hpools kind).1
  max_eq kind := (FilePool.of_readBitset (hpools kind).2).2.1
  bits_valid kind := (FilePool.of_readBitset (hpools kind).2).2.2.1
  counted kind := (FilePool.of_readBitset (hpools kind).2).2.2.2
  header_written := hfront
  bits_written kind := (FilePool.of_readBitset (hpools kind).2).1 _ _
  size_ge hregion := hsize (hsome.symm.trans hregion)

/-- The bitsets that are read behind a header make a store that the file tells. -/
theorem loadPools_recorded (hs : wanted.Stored) (hl : Layout.ofHeader wanted = .ok l)
    (hfront : f.window 0 wanted.encodedLength = wanted.encode)
    (hsize : wanted.region?.isSome = true → l.blocks.toNat ≤ f.size)
    (hload : loadPools path wanted l f = .ok s) :
    s.Recorded ∧ s.header = wanted ∧ s.file = f := by
  rw [loadPools] at hload
  cases hr : wanted.region? with
  | none =>
    rw [hr] at hload
    obtain ⟨region?, hregion, hload⟩ := exists_of_bind_eq_ok hload
    obtain rfl := Except.ok.inj hregion
    obtain ⟨bits, hbits, hload⟩ := exists_of_bind_eq_ok hload
    obtain rfl := Except.ok.inj hload
    refine ⟨recorded_of_read hs hl hfront hsize (congrArg Option.isSome hr).symm fun kind => ?_,
      rfl, rfl⟩
    have hmax : wanted.blocksOf kind = wanted.maxBlocks := by
      cases kind with
      | leaf => rfl
      | index =>
        rw [Header.blocksOf, hr]
        rfl
    rw [pool_of_none rfl, poolAt_plain hr, hmax]
    exact ⟨rfl, hbits⟩
  | some r =>
    rw [hr] at hload
    obtain ⟨rbits, hrbits, hload⟩ := exists_of_bind_eq_ok hload
    obtain ⟨region?, hregion, hload⟩ := exists_of_bind_eq_ok hload
    obtain rfl := Except.ok.inj hregion
    obtain ⟨bits, hbits, hload⟩ := exists_of_bind_eq_ok hload
    obtain rfl := Except.ok.inj hload
    refine ⟨recorded_of_read hs hl hfront hsize (congrArg Option.isSome hr).symm fun kind => ?_,
      rfl, rfl⟩
    cases kind with
    | leaf => exact ⟨(poolAt_leaf ..).symm, hbits⟩
    | index =>
      refine ⟨(poolAt_region hr ..).symm, ?_⟩
      rw [Header.blocksOf, hr]
      exact hrbits

/-- What is loaded is told by the file. -/
theorem load_recorded (hs : wanted.Stored) (hload : load path wanted f = .ok s) :
    s.Recorded ∧ s.header = wanted ∧ s.file = f := by
  obtain ⟨l, hl, -⟩ := Layout.ofHeader_spec hs.toFits
  by_cases hlong : LongEnough wanted l f
  · rw [load_eq hl hlong] at hload
    obtain ⟨front, hfront, hread⟩ := exists_of_bind_eq_ok hload
    obtain ⟨found, hfound, hdecoded⟩ := exists_of_bind_eq_ok hread
    obtain ⟨⟨⟩, hshape, hpools⟩ := exists_of_bind_eq_ok hdecoded
    obtain ⟨rfl, hlen⟩ := File.of_read hfront
    obtain ⟨hencode, hkind, hrange⟩ := Header.eq_encode hlen hfound
    have heq : found = wanted := by
      rcases Header.requireShape_spec (hrange.version_eq.trans hs.version_eq.symm) hkind with h | h
      · exact h.2
      · obtain ⟨-, e, he, -⟩ := h
        rw [he] at hshape
        cases hshape
    subst heq
    refine loadPools_recorded hs hl hencode (fun hsome => ?_) hpools
    rwa [LongEnough, if_pos hsome] at hlong
  · obtain ⟨e, he, -⟩ : ∃ e, load path wanted f = .error e ∧ _ := load_short hl hlong
    rw [he] at hload
    cases hload

/-! ### Loading what was written -/

/-- The same store, but for the hints of its bitsets. -/
structure Same (s s' : FileStore) : Prop where
  header_eq : s'.header = s.header
  layout_eq : s'.layout = s.layout
  file_eq : s'.file = s.file
  isSome_eq : s'.region?.isSome = s.region?.isSome
  pool_eq : ∀ kind, s'.pool kind = { s.pool kind with bits := (s'.pool kind).bits }
  max_eq : ∀ kind, (s'.pool kind).bits.max = (s.pool kind).bits.max
  get_eq : ∀ kind i, (s'.pool kind).bits.get i = (s.pool kind).bits.get i

/-- The file tells all but the hints. -/
theorem Recorded.same (h : s.Recorded) (h' : s'.Recorded) (hheader : s'.header = s.header)
    (hfile : s'.file = s.file) : s.Same s' := by
  have hlayout : s'.layout = s.layout := by
    have hl := h'.layout_eq
    rw [hheader, h.layout_eq] at hl
    exact (Except.ok.inj hl).symm
  have hpool (kind : Pool) : s'.pool kind = { s.pool kind with bits := (s'.pool kind).bits } := by
    have hown := h.pool_eq kind
    have hown' := h'.pool_eq kind
    rw [hheader, hlayout] at hown'
    rw [hown, poolAt_with]
    exact hown'
  have hmax (kind : Pool) : (s'.pool kind).bits.max = (s.pool kind).bits.max := by
    rw [h.max_eq, h'.max_eq, hheader]
  refine ⟨hheader, hlayout, hfile, ?_, hpool, hmax, fun kind i => ?_⟩
  · rw [h.isSome_eq, h'.isSome_eq, hheader]
  · have hwritten := h.bits_written kind
    have hwritten' := h'.bits_written kind
    have hoffset : (s'.pool kind).bitsetOffset = (s.pool kind).bitsetOffset := by
      rw [hpool]
    rw [FilePool.Written, hfile, hoffset, FilePool.span, hmax] at hwritten'
    have heq := hwritten'.symm.trans hwritten
    rw [FilePool.written, FilePool.written] at heq
    obtain ⟨-, hbytes⟩ := List.append_inj heq (by rw [Bytes.length_ofNat, Bytes.length_ofNat])
    rw [Bitset.get_eq_toBytes (h.bits_valid kind), Bitset.get_eq_toBytes (h'.bits_valid kind),
      hbytes]

theorem Same.main_eq (h : s.Same s') : s'.main = { s.main with bits := s'.main.bits } :=
  h.pool_eq .leaf

theorem Same.shape_eq (h : s.Same s') : s'.shape = s.shape := by
  have hnone : s'.region?.isNone = s.region?.isNone := by
    rw [← Option.not_isSome, ← Option.not_isSome, h.isSome_eq]
  rw [shape, shape, Shape.mk.injEq, hnone, h.header_eq]
  refine ⟨rfl, funext fun kind => ?_, funext h.max_eq, rfl⟩
  rw [h.pool_eq]

theorem Same.heap_eq (h : s.Same s') : s'.heap = s.heap := by
  rw [heap, heap, h.shape_eq]
  refine congrArg (heapOf s.shape) (funext fun kind => funext fun n => ?_)
  rw [poolHeap, poolHeap, h.get_eq, block, block, h.file_eq, h.pool_eq]
  rfl

theorem Same.reserved_eq (h : s.Same s') : s'.reserved = s.reserved := by
  rw [reserved, reserved, h.file_eq, h.layout_eq, h.header_eq]

theorem Same.valid (h : s.Same s') (hs : s.Valid) (h' : s'.Recorded) : s'.Valid where
  shape_valid := h.shape_eq ▸ hs.shape_valid
  bits_valid := h'.bits_valid
  sections := h'.placed.sections
  size_ge := by
    rw [h.file_eq, h.main_eq]
    exact hs.size_ge
  allocated_le n hn := by
    have hget : s.main.bits.get n = true := (h.get_eq .leaf n).symm.trans hn
    rw [h.file_eq, h.main_eq]
    exact hs.allocated_le n hget

theorem Recorded.longEnough (h : s.Recorded) : LongEnough s.header s.layout s.file := by
  rw [LongEnough]
  split
  · next hsome => exact h.size_ge (h.isSome_eq.trans hsome)
  · have hle := File.le_size_of_window h.header_written s.header.length_encode
      s.header.encodedLength_pos
    rwa [Nat.zero_add] at hle

theorem LongEnough.header_le (hs : wanted.Stored) (hl : Layout.ofHeader wanted = .ok l)
    (h : LongEnough wanted l f) : wanted.encodedLength ≤ f.size := by
  rw [LongEnough] at h
  split at h
  · have hplaced := (laid_blank hs hl "" f).placed
    have hheader := hplaced.header_le .leaf
    have hblocks := (hplaced.bitset_le .leaf).1
    exact Nat.le_trans hheader (Nat.le_trans (Nat.le_add_right ..) (Nat.le_trans hblocks h))
  · exact h

theorem blocksOf_le (hs : wanted.Stored) (kind : Pool) : wanted.blocksOf kind ≤ maxInt32 := by
  cases kind with
  | leaf => exact hs.maxBlocks.2
  | index =>
    rw [Header.blocksOf]
    cases hr : wanted.region? with
    | none => exact hs.maxBlocks.2
    | some r => exact (hs.region r hr).2

theorem Recorded.loadPools_self (h : s.Recorded) (path : String) :
    ∃ s', loadPools path s.header s.layout s.file = .ok s' := by
  have hread (kind : Pool) : ∃ bits, FilePool.readBitset s.file (s.pool kind).bitsetOffset
      (s.header.blocksOf kind) = .ok bits := by
    have hmax := h.max_eq kind
    obtain ⟨bits, hbits, -⟩ := (h.bits_written kind).readBitset (h.bits_valid kind)
      (hmax ▸ blocksOf_le h.stored kind)
    exact ⟨bits, hmax ▸ hbits⟩
  obtain ⟨bits, hbits⟩ := hread .leaf
  have hmain : FilePool.readBitset s.file s.layout.bitset.toNat s.header.maxBlocks = .ok bits := by
    rwa [h.pool_eq, poolAt_leaf] at hbits
  cases hr : s.header.region? with
  | none =>
    refine ⟨⟨path, s.header, s.layout, s.file, mainPool s.header s.layout bits, none⟩, ?_⟩
    rw [loadPools, hr]
    change FilePool.readBitset s.file s.layout.bitset.toNat s.header.maxBlocks >>= _ = _
    rw [hmain]
    rfl
  | some r =>
    obtain ⟨rbits, hrbits⟩ := hread .index
    rw [h.pool_eq, poolAt_region hr, Header.blocksOf, hr] at hrbits
    have hregion : FilePool.readBitset s.file s.layout.regionBitset.toNat r.maxBlocks =
      .ok rbits := hrbits
    refine ⟨⟨path, s.header, s.layout, s.file, mainPool s.header s.layout bits,
      some (regionPool r s.layout rbits)⟩, ?_⟩
    rw [loadPools, hr]
    dsimp only
    rw [hregion, ok_bind]
    change FilePool.readBitset s.file s.layout.bitset.toNat s.header.maxBlocks >>= _ = _
    rw [hmain]
    rfl

/-- From a file that tells all of a store the store is loaded again. -/
theorem Recorded.load_self (h : s.Recorded) (path : String) :
    ∃ s', load path s.header s.file = .ok s' ∧ s'.Recorded ∧ s.Same s' := by
  obtain ⟨s', hs'⟩ := h.loadPools_self path
  have hload : load path s.header s.file = .ok s' := by
    have hshape : s.header.requireShape s.header = .ok () := by
      rcases Header.requireShape_spec (rfl : s.header.version = s.header.version) rfl with h | h
      · exact h.1
      · exact absurd rfl h.1
    have hle := h.longEnough.header_le h.stored h.layout_eq
    rw [load_eq h.layout_eq h.longEnough, File.read_eq (by rwa [Nat.zero_add]), h.header_written,
      ok_bind, Header.decode_encode h.stored.inRange, ok_bind, hshape, ok_bind]
    exact hs'
  obtain ⟨hrecorded, hheader, hfile⟩ := load_recorded h.stored hload
  exact ⟨s', hload, hrecorded, h.same hrecorded hheader hfile⟩

/-- From a file that tells all of a store no other store is loaded. -/
theorem Recorded.load_other (h : s.Recorded) (hs : wanted.Stored) (hne : s.header ≠ wanted)
    (path : String) : ∃ e, load path wanted s.file = .error e ∧ IsMismatch e := by
  obtain ⟨l, hl, -⟩ := Layout.ofHeader_spec hs.toFits
  by_cases hlong : LongEnough wanted l s.file
  · have hle := hlong.header_le hs hl
    rw [load_eq hl hlong, File.read_eq (by rwa [Nat.zero_add]), ok_bind]
    by_cases hkind : s.header.region?.isSome = wanted.region?.isSome
    · have hlen : wanted.encodedLength = s.header.encodedLength := by
        rw [Header.encodedLength, Header.encodedLength, hkind]
      rw [hlen, h.header_written, ← hkind, Header.decode_encode h.stored.inRange, ok_bind]
      rcases Header.requireShape_spec (h.stored.version_eq.trans hs.version_eq.symm) hkind with
        hsame | ⟨-, e, he, hmismatch⟩
      · exact absurd hsame.2 hne
      · rw [he]
        exact ⟨e, rfl, hmismatch⟩
    · have hfront (n : Nat) (hn : 4 ≤ n) : (s.file.window 0 n).take 4 = s.file.window 0 4 := by
        rw [File.window_eq, File.window_eq, List.take_take, Nat.min_eq_left hn]
      have hfour (h : Header) : 4 ≤ h.encodedLength := by
        rw [Header.encodedLength]
        cases h.region?.isSome <;> decide
      have hmagic : (s.file.window 0 wanted.encodedLength).take 4 =
          Header.magic !wanted.region?.isSome := by
        rw [hfront _ (hfour _), ← hfront _ (hfour s.header), h.header_written,
          s.header.encode_drop.1, Bool.eq_not.2 hkind]
      have hlen : (s.file.window 0 wanted.encodedLength).length = wanted.encodedLength :=
        File.length_window (by rwa [Nat.zero_add])
      obtain ⟨e, he, hmismatch⟩ := Header.decode_other (Nat.le_of_eq hlen.symm) hmagic
      rw [he]
      exact ⟨e, rfl, hmismatch⟩
  · exact load_short hl hlong

end FileStore

end PagedMap
