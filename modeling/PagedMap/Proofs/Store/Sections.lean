/-
# The sections of a file do not meet

The offsets of a file's sections are words of 64 bits that the layout adds, multiplies and rounds
up. A second layout gives up as soon as a sum or a product exceeds a word (`Layout.ofHeader?`).
Where it does not give up it is the layout (`Layout.ofHeader?_spec`), and for options that are
accepted it never gives up (`Layout.exists_ofHeader?`), even if the file ends far behind the reach
of a word of 32 bits. So the sections lie one behind the other, each but the header at a multiple
of the block size (`Layout.ordered_of_fits`), and no two blocks meet (`Layout.sections_apart`).

Key definitions: `Extent`, `Layout.sections`, `Layout.ofHeader?`, `Layout.Ordered`,
`Layout.Numbered`.
Key theorems: `Layout.ofHeader?_spec`, `Layout.exists_ofHeader?`, `Layout.sections_apart`.
-/
import PagedMap.Proofs.Store.Recorded

namespace PagedMap

/-! ### Parts of a file -/

/-- A part of a file. -/
structure Extent where
  start : Nat
  size : Nat
  deriving Repr, DecidableEq

namespace Extent

/-- Where what is behind a part begins. -/
def stop (e : Extent) : Nat := e.start + e.size

/-- A part ends before another begins. -/
def Before (e f : Extent) : Prop := e.stop ≤ f.start

/-- A part has no byte in common with another. -/
def Apart (e f : Extent) : Prop := e.Before f ∨ f.Before e

/-- A part lies in another. -/
def Within (e f : Extent) : Prop := f.start ≤ e.start ∧ e.stop ≤ f.stop

instance : Trans Before Before Before where
  trans {_ f _} hef hfg := Nat.le_trans hef (Nat.le_trans (Nat.le_add_right f.start f.size) hfg)

end Extent

/-- The part of a file that a block occupies. -/
def FilePool.extent (p : FilePool) (n : Nat) : Extent := ⟨p.offset n, p.blockSize⟩

namespace Layout

variable {h : Header} {l : Layout} {a b unit offset w : UInt64} {n : Nat}

/-- A bitset with the word in front of it. -/
def bitsetExtent (offset : UInt64) (blocks : Nat) : Extent :=
  ⟨offset.toNat, bitsetLengthSize + Bitset.byteLength blocks⟩

/-- The sections of a file in their order. -/
def sections (l : Layout) (h : Header) : List Extent :=
  ⟨0, h.encodedLength⟩ ::
    (match h.region? with
    | some r =>
      [bitsetExtent l.regionBitset r.maxBlocks, ⟨l.regionBlocks.toNat, r.maxBlocks * r.blockSize⟩]
    | none => []) ++
    [bitsetExtent l.bitset h.maxBlocks, ⟨l.reserve.toNat, h.reserveSize⟩,
      ⟨l.blocks.toNat, h.maxBlocks * h.blockSize⟩]

/-! ### Words that are not exceeded -/

/-- The sum of two words, if it is a word. -/
def add? (a b : UInt64) : Option UInt64 :=
  if a.toNat + b.toNat < UInt64.size then some (a + b) else none

/-- The product of two words, if it is a word. -/
def mul? (a b : UInt64) : Option UInt64 :=
  if a.toNat * b.toNat < UInt64.size then some (a * b) else none

/-- The least multiple of a unit that is not below an offset, if no step exceeds a word. -/
def alignUp? (unit offset : UInt64) : Option UInt64 := do
  let units ← (if offset % unit = 0 then some (offset / unit) else add? (offset / unit) 1)
  mul? units unit

/-- Where a bitset that begins at an offset ends, if no step exceeds a word. -/
def behindBitset? (offset : UInt64) (blocks : Nat) : Option UInt64 := do
  let bytes ← add? offset (UInt64.ofNat bitsetLengthSize)
  add? bytes (UInt64.ofNat (Bitset.byteLength blocks))

/-- The region's sections, which begin at an offset, and where the bitset behind them does, if no
step exceeds a word. -/
def behindRegion? (unit first : UInt64) : Option Region → Option (UInt64 × UInt64 × UInt64)
  | some r => do
    let behind ← behindBitset? first r.maxBlocks
    let blocks ← alignUp? unit behind
    let length ← mul? (UInt64.ofNat r.maxBlocks) (UInt64.ofNat r.blockSize)
    let behind ← add? blocks length
    let bitset ← alignUp? unit behind
    some (first, blocks, bitset)
  | none => some (0, 0, first)

/-- The sections of a file with the given header, if no step exceeds a word. -/
def ofHeader? (h : Header) : Option Layout := do
  let unit := UInt64.ofNat h.blockSize
  let first ← alignUp? unit (UInt64.ofNat h.encodedLength)
  let (regionBitset, regionBlocks, bitset) ← behindRegion? unit first h.region?
  let behind ← behindBitset? bitset h.maxBlocks
  let reserve ← alignUp? unit behind
  let behind ← add? reserve (UInt64.ofNat h.reserveSize)
  let blocks ← alignUp? unit behind
  some ⟨regionBitset, regionBlocks, bitset, reserve, blocks⟩

/-- The offset of a block in a file, if no step exceeds a word. -/
def blockOffset? (first : UInt64) (blockSize : Nat) (n : BlockNumber) : Option UInt64 := do
  let length ← mul? n.toUInt64 (UInt64.ofNat blockSize)
  add? first length

/-- Where a block begins and ends in a mapped region, if no step exceeds a word. -/
def regionRange? (blockSize : Nat) (n : BlockNumber) : Option (UInt64 × UInt64) := do
  let start ← mul? n.toUInt64 (UInt64.ofNat blockSize)
  let stop ← add? start (UInt64.ofNat blockSize)
  some (start, stop)

theorem add?_eq_some : add? a b = some w ↔ a.toNat + b.toNat < UInt64.size ∧ w = a + b := by
  rw [add?, Option.ite_none_right_eq_some, Option.some.injEq, eq_comm]

theorem mul?_eq_some : mul? a b = some w ↔ a.toNat * b.toNat < UInt64.size ∧ w = a * b := by
  rw [mul?, Option.ite_none_right_eq_some, Option.some.injEq, eq_comm]

/-- A sum that is not refused is the sum of the numbers. -/
theorem toNat_of_add? (h : add? a b = some w) : w.toNat = a.toNat + b.toNat := by
  obtain ⟨hlt, rfl⟩ := add?_eq_some.1 h
  rw [UInt64.toNat_add]
  exact Nat.mod_eq_of_lt hlt

theorem toNat_of_mul? (h : mul? a b = some w) : w.toNat = a.toNat * b.toNat := by
  obtain ⟨hlt, rfl⟩ := mul?_eq_some.1 h
  rw [UInt64.toNat_mul]
  exact Nat.mod_eq_of_lt hlt

/-- An offset that is rounded up, if no step is refused. -/
theorem alignUp?_spec (hunit : 0 < unit.toNat) (h : alignUp? unit offset = some w) :
    w = alignUp unit offset ∧ offset.toNat ≤ w.toNat ∧ unit.toNat ∣ w.toNat := by
  obtain ⟨units, hunits, hw⟩ := Option.bind_eq_some_iff.1 h
  have hnumber := toNat_of_mul? hw
  have hword := (mul?_eq_some.1 hw).2
  have hdiv := Nat.div_add_mod' offset.toNat unit.toNat
  have hlt := Nat.mod_lt offset.toNat hunit
  have hdvd : unit.toNat ∣ w.toNat := ⟨units.toNat, by rw [hnumber, Nat.mul_comm]⟩
  by_cases hmod : offset % unit = 0
  · rw [if_pos hmod] at hunits
    obtain rfl := Option.some.inj hunits
    have hzero := congrArg UInt64.toNat hmod
    rw [UInt64.toNat_mod, UInt64.toNat_zero] at hzero
    rw [UInt64.toNat_div] at hnumber
    refine ⟨by rw [hword, alignUp, if_pos hmod], by omega, hdvd⟩
  · rw [if_neg hmod] at hunits
    have hsucc := toNat_of_add? hunits
    rw [UInt64.toNat_div, UInt64.toNat_one] at hsucc
    rw [hsucc, Nat.succ_mul] at hnumber
    refine ⟨by rw [hword, (add?_eq_some.1 hunits).2, alignUp, if_neg hmod], by omega, hdvd⟩

theorem behindBitset?_spec (h : behindBitset? offset n = some w) :
    w = offset + bitsetSpan n := by
  obtain ⟨bytes, hbytes, hw⟩ := Option.bind_eq_some_iff.1 h
  rw [(add?_eq_some.1 hw).2, (add?_eq_some.1 hbytes).2, bitsetSpan, UInt64.ofNat_add,
    UInt64.add_assoc]

/-- The checked layout is the layout, and its offsets are multiples of the block size. -/
theorem ofHeader?_spec (hfits : h.Fits) (hl : ofHeader? h = some l) :
    ofHeader h = .ok l ∧ ∀ e ∈ (l.sections h).tail, h.blockSize ∣ e.start := by
  obtain ⟨⟨hmin, hblock⟩, ⟨-, hmax⟩, -, hregion⟩ := hfits
  have hpos : 0 < h.blockSize := Nat.lt_of_lt_of_le (by decide) hmin
  have hword : (UInt64.ofNat h.blockSize).toNat = h.blockSize := toNat_ofNat hblock
  have hunit : 0 < (UInt64.ofNat h.blockSize).toNat := by rwa [hword]
  obtain ⟨first, hfirst, hl⟩ := Option.bind_eq_some_iff.1 hl
  obtain ⟨⟨regionBitset, regionBlocks, bitset⟩, hbehind, hl⟩ := Option.bind_eq_some_iff.1 hl
  obtain ⟨behind, hspan, hl⟩ := Option.bind_eq_some_iff.1 hl
  obtain ⟨reserve, hreserve, hl⟩ := Option.bind_eq_some_iff.1 hl
  obtain ⟨behind', hadd, hl⟩ := Option.bind_eq_some_iff.1 hl
  obtain ⟨blocks, hblocks, hl⟩ := Option.bind_eq_some_iff.1 hl
  obtain rfl := Option.some.inj hl
  obtain ⟨hfirst, -, hfirst_dvd⟩ := alignUp?_spec hunit hfirst
  obtain ⟨hreserve, -, hreserve_dvd⟩ := alignUp?_spec hunit hreserve
  obtain ⟨hblocks, -, hblocks_dvd⟩ := alignUp?_spec hunit hblocks
  rw [behindBitset?_spec hspan] at hreserve
  rw [(add?_eq_some.1 hadd).2] at hblocks
  rw [hword] at hfirst_dvd hreserve_dvd hblocks_dvd
  rw [ofHeader, if_neg (Nat.ne_of_gt hpos), sections]
  obtain ⟨version, blockSize, maxBlocks, reserveSize, region?⟩ := h
  -- the region, if there is one, has two more sections, which the main bitset comes after
  cases region? with
  | none =>
    obtain ⟨rfl, rfl, rfl⟩ : 0 = regionBitset ∧ 0 = regionBlocks ∧ first = bitset := by
      simpa using Option.some.inj hbehind
    refine ⟨by rw [hblocks, hreserve, hfirst], ?_⟩
    simp only [List.nil_append, List.cons_append, List.tail_cons, List.forall_mem_cons]
    exact ⟨hfirst_dvd, hreserve_dvd, hblocks_dvd, fun e he => absurd he List.not_mem_nil⟩
  | some r =>
    obtain ⟨behindRegion, hregionSpan, hbehind⟩ := Option.bind_eq_some_iff.1 hbehind
    obtain ⟨regionBlocks', hregionBlocks, hbehind⟩ := Option.bind_eq_some_iff.1 hbehind
    obtain ⟨length, hlength, hbehind⟩ := Option.bind_eq_some_iff.1 hbehind
    obtain ⟨behindBlocks, hregionAdd, hbehind⟩ := Option.bind_eq_some_iff.1 hbehind
    obtain ⟨bitset', hbitset, hbehind⟩ := Option.bind_eq_some_iff.1 hbehind
    obtain ⟨rfl, rfl, rfl⟩ :
        first = regionBitset ∧ regionBlocks' = regionBlocks ∧ bitset' = bitset := by
      simpa using Option.some.inj hbehind
    obtain ⟨hregionBlocks, -, hregionBlocks_dvd⟩ := alignUp?_spec hunit hregionBlocks
    obtain ⟨hbitset, -, hbitset_dvd⟩ := alignUp?_spec hunit hbitset
    rw [behindBitset?_spec hregionSpan] at hregionBlocks
    rw [(add?_eq_some.1 hregionAdd).2, (mul?_eq_some.1 hlength).2] at hbitset
    rw [hword] at hregionBlocks_dvd hbitset_dvd
    refine ⟨by rw [hblocks, hreserve, hbitset, hregionBlocks, hfirst], ?_⟩
    simp only [List.nil_append, List.cons_append, List.tail_cons, List.forall_mem_cons]
    exact ⟨hfirst_dvd, hregionBlocks_dvd, hbitset_dvd, hreserve_dvd, hblocks_dvd,
      fun e he => absurd he List.not_mem_nil⟩

/-! ### No step is refused -/

theorem exists_add? (h : a.toNat + b.toNat < 2 ^ 64) :
    ∃ w, add? a b = some w ∧ w.toNat = a.toNat + b.toNat :=
  ⟨a + b, if_pos h, toNat_of_add? (if_pos h)⟩

theorem exists_mul? (h : a.toNat * b.toNat < 2 ^ 64) :
    ∃ w, mul? a b = some w ∧ w.toNat = a.toNat * b.toNat :=
  ⟨a * b, if_pos h, toNat_of_mul? (if_pos h)⟩

theorem exists_alignUp? (offset : UInt64) (hunit : 0 < unit.toNat)
    (h : offset.toNat + unit.toNat < 2 ^ 64) :
    ∃ w, alignUp? unit offset = some w ∧ w.toNat < offset.toNat + unit.toNat := by
  have hdiv := Nat.div_add_mod' offset.toNat unit.toNat
  have hle := Nat.div_le_self offset.toNat unit.toNat
  obtain ⟨units, hunits, hproduct⟩ : ∃ units,
      (if offset % unit = 0 then some (offset / unit) else add? (offset / unit) 1) = some units ∧
        units.toNat * unit.toNat < 2 ^ 64 := by
    by_cases hmod : offset % unit = 0
    · refine ⟨offset / unit, if_pos hmod, ?_⟩
      rw [UInt64.toNat_div]
      omega
    · obtain ⟨units, hunits, hnumber⟩ := exists_add? (a := offset / unit) (b := 1)
        (by rw [UInt64.toNat_div, UInt64.toNat_one]; omega)
      refine ⟨units, by rw [if_neg hmod, hunits], ?_⟩
      rw [hnumber, UInt64.toNat_div, UInt64.toNat_one, Nat.succ_mul]
      omega
  obtain ⟨w, hw, -⟩ := exists_mul? hproduct
  have hup : alignUp? unit offset = some w := Option.bind_eq_some_iff.2 ⟨units, hunits, hw⟩
  refine ⟨w, hup, ?_⟩
  rw [(alignUp?_spec hunit hup).1]
  exact (alignUp_spec offset hunit h).2

theorem exists_behindBitset? (offset : UInt64) (hn : n ≤ maxInt32) (h : offset.toNat < 2 ^ 63) :
    ∃ w, behindBitset? offset n = some w ∧ w.toNat ≤ offset.toNat + maxInt32 + 4 := by
  have hbytes := byteLength_le hn
  have hint : maxInt32 = 2 ^ 31 - 1 := rfl
  have hfour : (UInt64.ofNat bitsetLengthSize).toNat = 4 := rfl
  have hlength := toNat_ofNat hbytes
  obtain ⟨front, hfront, hnumber⟩ := exists_add? (a := offset)
    (b := UInt64.ofNat bitsetLengthSize) (by omega)
  obtain ⟨w, hw, hnumber'⟩ := exists_add? (a := front)
    (b := UInt64.ofNat (Bitset.byteLength n)) (by omega)
  exact ⟨w, Option.bind_eq_some_iff.2 ⟨front, hfront, hw⟩, by omega⟩

theorem exists_behindRegion? (first : UInt64) {region? : Option Region} (hunit : 0 < unit.toNat)
    (hunit_le : unit.toNat ≤ maxInt32) (hfirst : first.toNat < 2 ^ 32)
    (hregion : ∀ r ∈ region?, r.maxBlocks ≤ maxInt32 ∧ r.blockSize ≤ maxInt32) :
    ∃ regionBitset regionBlocks bitset,
      behindRegion? unit first region? = some (regionBitset, regionBlocks, bitset) ∧
        bitset.toNat < 2 ^ 62 + 2 ^ 34 := by
  cases region? with
  | none => exact ⟨_, _, _, rfl, Nat.lt_trans hfirst (by decide)⟩
  | some r =>
    obtain ⟨hmax, hblock⟩ := hregion r rfl
    have hint : maxInt32 = 2 ^ 31 - 1 := rfl
    have hsquare : maxInt32 * maxInt32 < 2 ^ 62 := by decide
    have hle := Nat.mul_le_mul hmax hblock
    have hwords : (UInt64.ofNat r.maxBlocks).toNat * (UInt64.ofNat r.blockSize).toNat < 2 ^ 62 := by
      rw [toNat_ofNat hmax, toNat_ofNat hblock]
      omega
    obtain ⟨behind, hbehind, hbehind_le⟩ := exists_behindBitset? first hmax (by omega)
    obtain ⟨blocks, hblocks, hblocks_lt⟩ := exists_alignUp? behind hunit (by omega)
    obtain ⟨length, hlength, hlength_eq⟩ := exists_mul? (Nat.lt_trans hwords (by decide))
    obtain ⟨behind', hbehind', hbehind'_eq⟩ := exists_add? (a := blocks) (b := length) (by omega)
    obtain ⟨bitset, hbitset, hbitset_lt⟩ := exists_alignUp? behind' hunit (by omega)
    refine ⟨first, blocks, bitset, ?_, by omega⟩
    simp only [behindRegion?, hbehind, hblocks, hlength, hbehind', hbitset, Option.bind_eq_bind,
      Option.bind_some]

theorem exists_ofHeader? (hfits : h.Fits) :
    ∃ l, ofHeader? h = some l ∧ l.blocks.toNat < 2 ^ 63 := by
  obtain ⟨⟨hmin, hblock⟩, ⟨-, hmax⟩, ⟨-, hreserve⟩, hregion⟩ := hfits
  have hint : maxInt32 = 2 ^ 31 - 1 := rfl
  have hword : (UInt64.ofNat h.blockSize).toNat = h.blockSize := toNat_ofNat hblock
  have hunit : 0 < (UInt64.ofNat h.blockSize).toNat := by
    rw [hword]
    exact Nat.lt_of_lt_of_le (by decide) hmin
  have hunit_le : (UInt64.ofNat h.blockSize).toNat ≤ maxInt32 := by rwa [hword]
  have hsize : h.encodedLength ≤ 28 := by
    rw [Header.encodedLength]
    cases h.region?.isSome <;> decide
  have hheader := toNat_ofNat (n := h.encodedLength) (by omega)
  have hreserve_eq := toNat_ofNat hreserve
  -- each step ends so far below the end of a word that the next one does not exceed it
  obtain ⟨first, hfirst, hfirst_lt⟩ :=
    exists_alignUp? (UInt64.ofNat h.encodedLength) hunit (by omega)
  obtain ⟨regionBitset, regionBlocks, bitset, hbehind, hbitset_lt⟩ :=
    exists_behindRegion? first hunit hunit_le (by omega)
      fun r hr => ⟨(hregion r hr).2, (hregion r hr).1.2⟩
  obtain ⟨behind, hspan, hspan_le⟩ := exists_behindBitset? bitset hmax (by omega)
  obtain ⟨reserve, hreserve, hreserve_lt⟩ := exists_alignUp? behind hunit (by omega)
  obtain ⟨behind', hadd, hadd_eq⟩ := exists_add? (a := reserve)
    (b := UInt64.ofNat h.reserveSize) (by omega)
  obtain ⟨blocks, hblocks, hblocks_lt⟩ := exists_alignUp? behind' hunit (by omega)
  refine ⟨⟨regionBitset, regionBlocks, bitset, reserve, blocks⟩, ?_, by dsimp only; omega⟩
  simp only [ofHeader?, hfirst, hbehind, hspan, hreserve, hadd, hblocks, Option.bind_eq_bind,
    Option.bind_some]

/-! ### Sections and blocks -/

/-- The section of the blocks of a kind. -/
def blocksExtent (l : Layout) (h : Header) (kind : Pool) : Extent :=
  match kind, h.region? with
  | .index, some r => ⟨l.regionBlocks.toNat, r.maxBlocks * r.blockSize⟩
  | _, _ => ⟨l.blocks.toNat, h.maxBlocks * h.blockSize⟩

/-- The sections are in their places. -/
structure Ordered (l : Layout) (h : Header) : Prop where
  apart : (l.sections h).Pairwise Extent.Before
  aligned : ∀ e ∈ (l.sections h).tail, h.blockSize ∣ e.start
  initial : ∀ e ∈ (l.sections h).dropLast, e.stop ≤ l.initialLength.toNat
  stop_lt : ∀ e ∈ l.sections h, e.stop < 2 ^ 64

/-- The blocks of a kind are in their places in the section of that kind. -/
structure Numbered (l : Layout) (h : Header) (kind : Pool) : Prop where
  mem : l.blocksExtent h kind ∈ l.sections h
  within : ∀ bits, ∀ n < h.blocksOf kind,
    ((FileStore.poolAt h l kind bits).extent n).Within (l.blocksExtent h kind)
  apart : ∀ bits, ∀ n < h.blocksOf kind, ∀ m < h.blocksOf kind, n ≠ m →
    ((FileStore.poolAt h l kind bits).extent n).Apart ((FileStore.poolAt h l kind bits).extent m)

/-- The sections follow each other. -/
theorem pairwise_sections (hfits : h.Fits) (hl : ofHeader h = .ok l) :
    (l.sections h).Pairwise Extent.Before := by
  obtain ⟨l', hl', hregion, hbitset, hreserve⟩ := ofHeader_spec hfits
  obtain rfl : l = l' := Except.ok.inj (hl.symm.trans hl')
  have hheader := header_le hfits hl
  have hstop (offset : UInt64) (n : Nat) : (bitsetExtent offset n).stop =
      offset.toNat + bitsetLengthSize + Bitset.byteLength n := (Nat.add_assoc ..).symm
  have hzero : (Extent.mk 0 h.encodedLength).stop = h.encodedLength := Nat.zero_add _
  rw [← List.isChain_iff_pairwise, sections]
  cases hr : h.region? with
  | none =>
    rw [hr] at hheader
    refine .cons_cons ?_ (.cons_cons ?_ (.cons_cons hreserve (.singleton _)))
    · exact Nat.le_trans (Nat.le_of_eq hzero) hheader
    · exact Nat.le_trans (Nat.le_of_eq (hstop ..)) hbitset
  | some r =>
    obtain ⟨hblocks, hbehind⟩ := hregion r hr
    rw [hr] at hheader
    refine .cons_cons ?_ (.cons_cons ?_ (.cons_cons hbehind (.cons_cons ?_
      (.cons_cons hreserve (.singleton _)))))
    · exact Nat.le_trans (Nat.le_of_eq hzero) hheader
    · exact Nat.le_trans (Nat.le_of_eq (hstop ..)) hblocks
    · exact Nat.le_trans (Nat.le_of_eq (hstop ..)) hbitset

theorem ordered_of_fits (hfits : h.Fits) (hl : ofHeader? h = some l)
    (hlt : l.blocks.toNat < 2 ^ 63) : l.Ordered h := by
  obtain ⟨hmade, haligned⟩ := ofHeader?_spec hfits hl
  have hpairwise := pairwise_sections hfits hmade
  have hlast : l.sections h =
      (l.sections h).dropLast ++ [⟨l.blocks.toNat, h.maxBlocks * h.blockSize⟩] := by
    rw [sections]
    cases h.region? <;> rfl
  have hinitial : ∀ e ∈ (l.sections h).dropLast, e.stop ≤ l.initialLength.toNat := by
    intro e he
    rw [hlast, List.pairwise_append] at hpairwise
    exact hpairwise.2.2 e he _ (List.mem_singleton_self _)
  have hblocks : h.maxBlocks * h.blockSize < 2 ^ 63 := by
    calc h.maxBlocks * h.blockSize ≤ maxInt32 * maxInt32 :=
          Nat.mul_le_mul hfits.maxBlocks.2 hfits.blockSize.2
      _ < 2 ^ 63 := by decide
  refine ⟨hpairwise, haligned, hinitial, fun e he => ?_⟩
  rw [hlast, List.mem_append, List.mem_singleton] at he
  rcases he with he | rfl
  · exact Nat.lt_of_le_of_lt (hinitial e he) l.blocks.toNat_lt
  · rw [Extent.stop]
    dsimp only
    omega

theorem numbered (l : Layout) (h : Header) (kind : Pool) : l.Numbered h kind := by
  have hextent (bits : Bitset) : l.blocksExtent h kind =
      ⟨(FileStore.poolAt h l kind bits).blocksOffset,
        h.blocksOf kind * (FileStore.poolAt h l kind bits).blockSize⟩ := by
    obtain ⟨version, blockSize, maxBlocks, reserveSize, region?⟩ := h
    cases kind <;> cases region? <;> rfl
  refine ⟨?_, fun bits n hn => ?_, fun bits n _ m _ hne => FileStore.offset_apart hne⟩
  · obtain ⟨version, blockSize, maxBlocks, reserveSize, region?⟩ := h
    cases kind <;> cases region? <;> simp [blocksExtent, sections]
  · rw [hextent bits]
    exact FileStore.offset_le
      (p := { FileStore.poolAt h l kind bits with bits := .empty (h.blocksOf kind) }) hn

/-- The product of a block's number and the size of a block. -/
theorem exists_distance? {blockSize : Nat} (hblock : blockSize ≤ maxInt32) (n : BlockNumber) :
    ∃ w, mul? n.toUInt64 (UInt64.ofNat blockSize) = some w ∧ w.toNat = n.toNat * blockSize ∧
      w.toNat + blockSize ≤ 2 ^ 63 := by
  have hword : (UInt64.ofNat blockSize).toNat = blockSize := toNat_ofNat hblock
  have hnumber : n.toUInt64.toNat = n.toNat := UInt32.toNat_toUInt64 n
  have hle : (n.toNat + 1) * blockSize ≤ 2 ^ 63 := by
    calc (n.toNat + 1) * blockSize ≤ 2 ^ 32 * maxInt32 := Nat.mul_le_mul n.toNat_lt hblock
      _ ≤ 2 ^ 63 := by decide
  rw [Nat.succ_mul] at hle
  obtain ⟨w, hw, hw_eq⟩ := exists_mul? (a := n.toUInt64) (b := UInt64.ofNat blockSize)
    (by rw [hword, hnumber]; omega)
  rw [hword, hnumber] at hw_eq
  exact ⟨w, hw, hw_eq, by omega⟩

theorem exists_blockOffset? (hblock : h.blockSize ≤ maxInt32) (hlt : l.blocks.toNat < 2 ^ 63)
    (n : BlockNumber) : ∃ w, blockOffset? l.blocks h.blockSize n = some w ∧
      ∀ bits, w.toNat = (FileStore.mainPool h l bits).offset n.toNat := by
  obtain ⟨length, hlength, hlength_eq, hle⟩ := exists_distance? hblock n
  obtain ⟨w, hw, hw_eq⟩ := exists_add? (a := l.blocks) (b := length) (by omega)
  refine ⟨w, Option.bind_eq_some_iff.2 ⟨length, hlength, hw⟩, fun bits => ?_⟩
  rw [hw_eq, hlength_eq]
  rfl

theorem exists_regionRange? {r : Region} (hblock : r.blockSize ≤ maxInt32) (l : Layout)
    (n : BlockNumber) : ∃ start stop, regionRange? r.blockSize n = some (start, stop) ∧
      stop.toNat = start.toNat + r.blockSize ∧
      ∀ bits, l.regionBlocks.toNat + start.toNat =
        (FileStore.regionPool r l bits).offset n.toNat := by
  have hword : (UInt64.ofNat r.blockSize).toNat = r.blockSize := toNat_ofNat hblock
  obtain ⟨start, hstart, hstart_eq, hle⟩ := exists_distance? hblock n
  obtain ⟨stop, hstop, hstop_eq⟩ := exists_add? (a := start) (b := UInt64.ofNat r.blockSize)
    (by omega)
  refine ⟨start, stop, ?_, by omega, fun bits => ?_⟩
  · simp only [regionRange?, hstart, hstop, Option.bind_eq_bind, Option.bind_some]
  · rw [hstart_eq]
    rfl

/-- For options that are accepted no step of the layout exceeds a word, nor does any step towards
a block; the sections do not meet, and the blocks do not meet in theirs. -/
theorem sections_apart {o : Options} (ho : o.validate = .ok ()) (split : Bool) :
    ∃ h l, (if split then Header.split o else Header.plain o) = .ok h ∧
      h.region?.isSome = split ∧ ofHeader h = .ok l ∧ ofHeader? h = some l ∧
      l.Ordered h ∧ (∀ kind, l.Numbered h kind) ∧
      (∀ n : BlockNumber, ∃ w, blockOffset? l.blocks h.blockSize n = some w ∧
        ∀ bits, w.toNat = (FileStore.mainPool h l bits).offset n.toNat) ∧
      ∀ r ∈ h.region?, ∀ n : BlockNumber,
        ∃ start stop, regionRange? r.blockSize n = some (start, stop) ∧
          stop.toNat = start.toNat + r.blockSize ∧
          ∀ bits, l.regionBlocks.toNat + start.toNat =
            (FileStore.regionPool r l bits).offset n.toNat := by
  have hoptions := Options.validate_eq.1 ho
  obtain ⟨h, hmade, hsome⟩ : ∃ h, (if split then Header.split o else Header.plain o) = .ok h ∧
      h.region?.isSome = split := by
    cases split
    · exact ⟨_, Header.plain_eq hoptions, rfl⟩
    · exact ⟨_, Header.split_eq hoptions, rfl⟩
  have hfits : h.Fits := by
    cases split
    · exact hoptions.header (.inl hmade)
    · exact hoptions.header (.inr hmade)
  obtain ⟨l, hl, hlt⟩ := exists_ofHeader? hfits
  exact ⟨h, l, hmade, hsome, (ofHeader?_spec hfits hl).1, hl, ordered_of_fits hfits hl hlt,
    l.numbered h, exists_blockOffset? hfits.blockSize.2 hlt,
    fun r hr => exists_regionRange? (hfits.region r hr).1.2 l⟩

/-- The greatest blocks, of the greatest number, in both pools. -/
theorem sections_apart_greatest :
    let o : Options :=
      { blockSize := maxInt32, maxBlocks := maxInt32, regionBlockSize := maxInt32,
        regionMaxBlocks := maxInt32, reserveSize := maxInt32 }
    o.validate = .ok () ∧
      ∃ h l, Header.split o = .ok h ∧ ofHeader? h = some l ∧ l.Ordered h ∧
        (∀ kind, l.Numbered h kind) ∧
        l.sections h = [⟨0, 28⟩, ⟨2147483647, 268435460⟩,
          ⟨4294967294, 4611686014132420609⟩, ⟨4611686018427387903, 268435460⟩,
          ⟨4611686020574871550, 2147483647⟩, ⟨4611686022722355197, 4611686014132420609⟩] := by
  intro o
  have ho : o.validate = .ok () := by decide
  obtain ⟨h, l, hmade, -, hl, hchecked, hordered, hnumbered, -⟩ := sections_apart ho true
  refine ⟨ho, h, l, hmade, hchecked, hordered, hnumbered, ?_⟩
  obtain rfl := Except.ok.inj hmade
  obtain rfl := Except.ok.inj hl
  decide

end Layout

end PagedMap
