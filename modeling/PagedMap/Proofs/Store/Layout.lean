/-
# How a new file is laid out

For options that are accepted no offset of a section exceeds a word of 64 bits, so the
sections follow each other (`Layout.ofHeader_spec`), and a file that is made into a
store holds no block and a reserve of zeros (`FileStore.create_valid`).

Key definitions: `Options.Fits`, `Header.Fits`.
Key theorems: `Options.validate_eq`, `Layout.ofHeader_spec`, `FileStore.create_valid`.
-/
import PagedMap.Proofs.Store.File

namespace PagedMap

/-! ### Dimensions -/

/-- The sizes and counts that are accepted. -/
structure Options.Fits (o : Options) : Prop where
  blockSize : minBlockSize ≤ o.blockSize ∧ o.blockSize ≤ maxInt32
  regionBlockSize : minBlockSize ≤ o.regionBlockSize ∧ o.regionBlockSize ≤ maxInt32
  maxBlocks : 0 < o.maxBlocks ∧ o.maxBlocks ≤ maxInt32
  regionMaxBlocks : 0 < o.regionMaxBlocks ∧ o.regionMaxBlocks ≤ maxInt32
  reserveSize : descriptorSize ≤ o.reserveSize ∧ o.reserveSize ≤ maxInt32

/-- Options are accepted if all dimensions are. -/
theorem Options.validate_eq {o : Options} : o.validate = .ok () ↔ o.Fits := by
  rw [validate]
  constructor
  · intro h
    split at h
    · cases h
    split at h
    · cases h
    split at h
    · cases h
    split at h
    · cases h
    split at h
    · cases h
    constructor <;> omega
  · rintro ⟨hblock, hregion, hmax, hregionMax, hreserve⟩
    rw [if_neg (by omega), if_neg (by omega), if_neg (by omega), if_neg (by omega),
      if_neg (by omega)]

/-- The dimensions of a file that can be laid out. -/
structure Header.Fits (h : Header) : Prop where
  blockSize : minBlockSize ≤ h.blockSize ∧ h.blockSize ≤ maxInt32
  maxBlocks : 0 < h.maxBlocks ∧ h.maxBlocks ≤ maxInt32
  reserveSize : descriptorSize ≤ h.reserveSize ∧ h.reserveSize ≤ maxInt32
  region : ∀ r ∈ h.region?,
    (minBlockSize ≤ r.blockSize ∧ r.blockSize ≤ maxInt32) ∧ r.maxBlocks ≤ maxInt32

theorem Header.requireInt32_eq {field : Dimension} {n : Nat} (h : n ≤ maxInt32) :
    requireInt32 field n = .ok () := if_pos h

theorem Header.plain_eq {o : Options} (h : o.Fits) :
    plain o = .ok ⟨formatVersion, o.blockSize, o.maxBlocks, o.reserveSize, none⟩ := by
  rw [plain, requireInt32_eq h.blockSize.2, requireInt32_eq h.reserveSize.2]
  rfl

theorem Header.split_eq {o : Options} (h : o.Fits) :
    split o = .ok ⟨formatVersion, o.blockSize, o.maxBlocks, o.reserveSize,
      some ⟨o.regionBlockSize, o.regionMaxBlocks⟩⟩ := by
  rw [split, requireInt32_eq h.regionBlockSize.2, plain_eq h]
  rfl

/-- The header of accepted options has accepted dimensions. -/
theorem Options.Fits.header {o : Options} {h : Header} (ho : o.Fits)
    (hmade : Header.plain o = .ok h ∨ Header.split o = .ok h) : h.Fits := by
  rw [Header.plain_eq ho, Header.split_eq ho] at hmade
  rcases hmade with hmade | hmade <;> obtain rfl := Except.ok.inj hmade
  · exact ⟨ho.blockSize, ho.maxBlocks, ho.reserveSize, fun r hr => by cases hr⟩
  · refine ⟨ho.blockSize, ho.maxBlocks, ho.reserveSize, fun r hr => ?_⟩
    obtain rfl := Option.mem_some.1 hr
    exact ⟨ho.regionBlockSize, ho.regionMaxBlocks.2⟩

/-! ### Offsets -/

namespace Layout

/-- Aligning goes up by less than a unit. -/
theorem alignUp_spec {unit : UInt64} (offset : UInt64) (hunit : 0 < unit.toNat)
    (h : offset.toNat + unit.toNat < 2 ^ 64) :
    offset.toNat ≤ (alignUp unit offset).toNat ∧
      (alignUp unit offset).toNat < offset.toNat + unit.toNat := by
  have hdiv := Nat.div_add_mod offset.toNat unit.toNat
  have hlt := Nat.mod_lt offset.toNat hunit
  rw [Nat.mul_comm] at hdiv
  have hzero : offset % unit = 0 ↔ offset.toNat % unit.toNat = 0 := by
    rw [← UInt64.toNat_inj, UInt64.toNat_mod]
    rfl
  rw [alignUp]
  by_cases hmod : offset.toNat % unit.toNat = 0
  · rw [if_pos (hzero.2 hmod), UInt64.toNat_mul, UInt64.toNat_div, Nat.mod_eq_of_lt (by omega)]
    omega
  · have hquot : offset.toNat / unit.toNat < 2 ^ 64 - 1 :=
      Nat.lt_of_le_of_lt (Nat.div_le_self ..) (by omega)
    have hsucc : (offset / unit + 1).toNat = offset.toNat / unit.toNat + 1 := by
      rw [UInt64.toNat_add, UInt64.toNat_div]
      exact Nat.mod_eq_of_lt (Nat.add_lt_of_lt_sub hquot)
    rw [if_neg (mt hzero.1 hmod), UInt64.toNat_mul, hsucc, Nat.succ_mul,
      Nat.mod_eq_of_lt (by omega)]
    omega

/-- What begins behind a section begins less than a unit behind it. -/
theorem alignUp_add {unit span : UInt64} {n : Nat} (offset : UInt64) (hunit : 0 < unit.toNat)
    (hspan : span.toNat = n) (h : offset.toNat + n + unit.toNat < 2 ^ 64) :
    offset.toNat + n ≤ (alignUp unit (offset + span)).toNat ∧
      (alignUp unit (offset + span)).toNat < offset.toNat + n + unit.toNat := by
  have hsum : (offset + span).toNat = offset.toNat + n := by
    rw [UInt64.toNat_add, hspan, Nat.mod_eq_of_lt (by omega)]
  rw [← hsum]
  exact alignUp_spec _ hunit (by rw [hsum]; exact h)

theorem byteLength_le {n : Nat} (h : n ≤ maxInt32) : Bitset.byteLength n ≤ maxInt32 := by
  rw [maxInt32] at *
  rw [Bitset.byteLength]
  omega

theorem toNat_bitsetSpan {n : Nat} (h : n ≤ maxInt32) :
    (bitsetSpan n).toNat = bitsetLengthSize + Bitset.byteLength n := by
  have hle := byteLength_le h
  rw [maxInt32] at hle
  exact UInt64.toNat_ofNat_of_lt' (by
    rw [bitsetLengthSize, show UInt64.size = 2 ^ 64 from rfl]
    omega)

theorem toNat_ofNat {n : Nat} (h : n ≤ maxInt32) : (UInt64.ofNat n).toNat = n :=
  UInt64.toNat_ofNat_of_lt' (Nat.lt_of_le_of_lt h (by decide))

theorem toNat_blocks {n m : Nat} (hn : n ≤ maxInt32) (hm : m ≤ maxInt32) :
    (UInt64.ofNat n * UInt64.ofNat m).toNat = n * m := by
  have hle := Nat.mul_le_mul hn hm
  rw [UInt64.toNat_mul, toNat_ofNat hn, toNat_ofNat hm,
    Nat.mod_eq_of_lt (Nat.lt_of_le_of_lt hle (by decide))]

section Sections

variable {unit : UInt64} (hunit : 0 < unit.toNat) (hunit_le : unit.toNat ≤ maxInt32)

include hunit hunit_le

/-- The first section begins not far behind the header. -/
theorem first_lt (split : Bool) :
    (alignUp unit (UInt64.ofNat (Header.size split))).toNat < 2 ^ 32 := by
  have hsize : Header.size split ≤ 28 := by cases split <;> decide
  have hint : maxInt32 = 2 ^ 31 - 1 := rfl
  have hheader := toNat_ofNat (n := Header.size split) (by omega)
  have hfirst := alignUp_spec (UInt64.ofNat (Header.size split)) hunit (by omega)
  omega

/-- Behind the bitset of a region come the region's blocks, behind them the bitset. -/
theorem region_spec {first : UInt64} {maxBlocks blockSize : Nat} (hfirst : first.toNat < 2 ^ 32)
    (hmax : maxBlocks ≤ maxInt32) (hblock : blockSize ≤ maxInt32) :
    let blocks := alignUp unit (first + bitsetSpan maxBlocks)
    let bitset := alignUp unit (blocks + UInt64.ofNat maxBlocks * UInt64.ofNat blockSize)
    first.toNat + bitsetLengthSize + Bitset.byteLength maxBlocks ≤ blocks.toNat ∧
      blocks.toNat + maxBlocks * blockSize ≤ bitset.toNat ∧ bitset.toNat < 2 ^ 63 := by
  have hbytes := byteLength_le hmax
  have hlength : bitsetLengthSize = 4 := rfl
  have hint : maxInt32 = 2 ^ 31 - 1 := rfl
  have hproduct := Nat.mul_le_mul hmax hblock
  have hsquare : maxInt32 * maxInt32 < 2 ^ 62 := by decide
  have hblocks := alignUp_add first hunit (toNat_bitsetSpan hmax) (by omega)
  have hbitset := alignUp_add (alignUp unit (first + bitsetSpan maxBlocks)) hunit
    (toNat_blocks hmax hblock) (by omega)
  exact ⟨by omega, hbitset.1, by omega⟩

/-- Behind the bitset comes the reserve, behind the reserve come the blocks. -/
theorem reserve_spec {bitset : UInt64} {maxBlocks reserveSize : Nat}
    (hbitset : bitset.toNat < 2 ^ 63) (hmax : maxBlocks ≤ maxInt32)
    (hreserve : reserveSize ≤ maxInt32) :
    let reserve := alignUp unit (bitset + bitsetSpan maxBlocks)
    bitset.toNat + bitsetLengthSize + Bitset.byteLength maxBlocks ≤ reserve.toNat ∧
      reserve.toNat + reserveSize ≤
        (alignUp unit (reserve + UInt64.ofNat reserveSize)).toNat := by
  have hbytes := byteLength_le hmax
  have hlength : bitsetLengthSize = 4 := rfl
  have hint : maxInt32 = 2 ^ 31 - 1 := rfl
  have hfirst := alignUp_add bitset hunit (toNat_bitsetSpan hmax) (by omega)
  exact ⟨by omega, (alignUp_add _ hunit (toNat_ofNat hreserve) (by omega)).1⟩

end Sections

/-- The sections of the layout follow each other. -/
theorem ofHeader_spec {h : Header} (hfits : h.Fits) : ∃ l, ofHeader h = .ok l ∧
    (∀ r ∈ h.region?,
      l.regionBitset.toNat + bitsetLengthSize + Bitset.byteLength r.maxBlocks ≤
        l.regionBlocks.toNat ∧
      l.regionBlocks.toNat + r.maxBlocks * r.blockSize ≤ l.bitset.toNat) ∧
    l.bitset.toNat + bitsetLengthSize + Bitset.byteLength h.maxBlocks ≤ l.reserve.toNat ∧
    l.reserve.toNat + h.reserveSize ≤ l.blocks.toNat := by
  obtain ⟨⟨hmin, hblock⟩, ⟨-, hmax⟩, ⟨-, hreserve⟩, hregion⟩ := hfits
  have hpos : 0 < h.blockSize := Nat.lt_of_lt_of_le (by decide) hmin
  have hunit : 0 < (UInt64.ofNat h.blockSize).toNat := by rwa [toNat_ofNat hblock]
  have hunit_le : (UInt64.ofNat h.blockSize).toNat ≤ maxInt32 := by rwa [toNat_ofNat hblock]
  obtain ⟨version, blockSize, maxBlocks, reserveSize, region?⟩ := h
  cases region? with
  | none =>
    have hbitset := Nat.lt_trans (first_lt hunit hunit_le false) (by decide : 2 ^ 32 < 2 ^ 63)
    exact ⟨_, if_neg (Nat.ne_of_gt hpos), fun r hr => (by cases hr),
      reserve_spec hunit hunit_le hbitset hmax hreserve⟩
  | some r =>
    obtain ⟨⟨-, hr⟩, hrmax⟩ := hregion r rfl
    obtain ⟨hblocks, hbitset, hlt⟩ :=
      region_spec hunit hunit_le (first_lt hunit hunit_le true) hrmax hr
    refine ⟨_, if_neg (Nat.ne_of_gt hpos), fun r' hr' => ?_,
      reserve_spec hunit hunit_le hlt hmax hreserve⟩
    obtain rfl := Option.mem_some.1 hr'
    exact ⟨hblocks, hbitset⟩

end Layout

/-! ### New files -/

namespace FileStore

variable {path : String} {h : Header} {l : Layout} {f : File}

/-- The store in a file when no block is allocated. -/
def blank (path : String) (h : Header) (l : Layout) (f : File) : FileStore :=
  ⟨path, h, l, f, mainPool h l (.empty h.maxBlocks),
    h.region?.map fun r => regionPool r l (.empty r.maxBlocks)⟩

theorem get_blank (kind : Pool) (n : Nat) : ((blank path h l f).pool kind).bits.get n = false := by
  obtain ⟨version, blockSize, maxBlocks, reserveSize, region?⟩ := h
  cases kind <;> cases region? <;> exact Bitset.get_empty ..

theorem heap_blank : (blank path h l f).heap = fun _ => none := by
  funext q
  rw [heap, heapOf]
  split
  · rw [poolHeap, get_blank]
    rfl
  · rfl

theorem shape_blank (hfits : h.Fits) : (blank path h l f).shape.Valid := by
  obtain ⟨⟨hmin, hblock⟩, ⟨-, hmax⟩, ⟨hreserve, -⟩, hregion⟩ := hfits
  obtain ⟨version, blockSize, maxBlocks, reserveSize, region?⟩ := h
  cases region? with
  | none =>
    refine ⟨fun kind => ?_, fun kind => ?_, fun kind => ?_, hreserve, fun kind => ?_⟩ <;> cases kind
    exacts [hmin, hmin, hblock, hblock, hmax, hmax, rfl, rfl]
  | some r =>
    obtain ⟨⟨hrmin, hrblock⟩, hrmax⟩ := hregion r rfl
    refine ⟨fun kind => ?_, fun kind => ?_, fun kind => ?_, hreserve, fun kind => ?_⟩ <;> cases kind
    exacts [hmin, hrmin, hblock, hrblock, hmax, hrmax, rfl, rfl]

theorem bits_blank (kind : Pool) : ((blank path h l f).pool kind).bits.Valid := by
  obtain ⟨version, blockSize, maxBlocks, reserveSize, region?⟩ := h
  cases kind <;> cases region? <;> exact Bitset.valid_empty _

/-- A file that is made into a store holds no block and a reserve of zeros. -/
theorem create_valid (hfits : h.Fits) (path : String) (f : File) :
    ∃ s, create path h f = .ok s ∧ s.Valid ∧ 0 < s.shape.maxBlocks .leaf ∧
      s.heap = (fun _ => none) ∧ s.reserved = List.replicate s.shape.reserveSize 0 := by
  obtain ⟨l, hl, hregion, hbitset, hreserve⟩ := Layout.ofHeader_spec hfits
  obtain ⟨written, hcreate⟩ : ∃ f' : File, create path h f = .ok (blank path h l
      ((f'.write l.reserve.toNat (List.replicate h.reserveSize 0)).extend l.blocks.toNat)) := by
    rw [create, hl]
    exact ⟨_, rfl⟩
  refine ⟨_, hcreate, ⟨shape_blank hfits, bits_blank, ⟨fun p hp => ?_, hbitset, hreserve⟩, ?_, ?_⟩,
    hfits.maxBlocks.1, heap_blank, ?_⟩
  · obtain ⟨r, hr, rfl⟩ := Option.map_eq_some_iff.1 hp
    exact hregion r hr
  · change _ ≤ (File.extend _ _).size
    rw [File.size_extend]
    exact Nat.le_max_right ..
  · intro n hn
    exact absurd ((@get_blank path h l f .leaf n).symm.trans hn)
      Bool.false_ne_true
  · have hlen : (List.replicate h.reserveSize (0 : UInt8)).length = h.reserveSize :=
      List.length_replicate
    have hne : List.replicate h.reserveSize (0 : UInt8) ≠ [] := by
      intro hnil
      rw [hnil] at hlen
      exact absurd hfits.reserveSize.1 (by rw [← hlen]; decide)
    have hsize := File.size_write written l.reserve.toNat hne
    have hself := File.window_write_self written l.reserve.toNat (List.replicate h.reserveSize 0)
    rw [hlen] at hsize hself
    have hkept := File.window_extend (o := l.reserve.toNat) (n := h.reserveSize)
      (by rw [hsize]; exact Nat.le_max_right ..) l.blocks.toNat
    exact hkept.trans hself

end FileStore

end PagedMap
