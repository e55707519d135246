/-
# Headers that are written and read

A signed word that is not negative is read from its four bytes and tells them
(`Bytes.toInt32_ofNat_append`, `Bytes.take_of_toInt32`). So a header is read back from
what was written of it (`Header.decode_encode`), and what a header is read from is what
would be written of it (`Header.eq_encode`); whatever else the bytes are, they are refused
as a mismatch (`Header.decode_exact`). A header with another shape than the one wanted is
refused as a mismatch, too.

Key definitions: `IsMismatch`, `Header.InRange`.
Key theorems: `Header.decode_encode`, `Header.eq_encode`, `Header.decode_exact`,
`Header.requireShape_spec`.
-/
import PagedMap.Proofs.Codec.Digits
import PagedMap.Proofs.Store.Layout

namespace PagedMap

namespace Bytes

variable {bs rest : Bytes} {i : Int} {v : Nat}

/-! ### Signed words -/

theorem toInt32_eq (bs : Bytes) : toInt32 bs = Int.bmod (toNat (bs.take 4)) 4294967296 := rfl

theorem ofInt32_eq (i : Int) : ofInt32 i = ofNat 4 (i % 4294967296).toNat := rfl

theorem toInt32_ofNat_append (h : v ≤ maxInt32) (rest : Bytes) :
    toInt32 (ofNat 4 v ++ rest) = v := by
  rw [maxInt32] at h
  rw [toInt32_eq, List.take_left' (length_ofNat 4 v), toNat_ofNat_of_lt (by omega), Int.bmod]
  omega

@[simp]
theorem length_ofInt32 (i : Int) : (ofInt32 i).length = 4 := length_ofNat 4 _

theorem toInt32_ofInt32_append (hlow : -(maxInt32 : Int) ≤ i) (hhigh : i ≤ maxInt32)
    (rest : Bytes) : toInt32 (ofInt32 i ++ rest) = i := by
  rw [maxInt32] at hlow hhigh
  rw [toInt32_eq, List.take_left' (length_ofInt32 i), ofInt32_eq, toNat_ofNat_of_lt (by omega),
    Int.bmod]
  omega

/-- The bytes of a signed word that is not negative are told by the word. -/
theorem take_of_toInt32 (hlen : 4 ≤ bs.length) (h : toInt32 bs = v) : bs.take 4 = ofNat 4 v := by
  have htake : (bs.take 4).length = 4 := by
    rw [List.length_take, Nat.min_eq_left hlen]
  have hlt := toNat_lt (bs.take 4)
  rw [htake] at hlt
  rw [toInt32_eq, Int.bmod] at h
  have hv : toNat (bs.take 4) = v := by
    split at h <;> omega
  rw [← hv, ofNat_toNat_of_length htake]

theorem toInt32_le (bs : Bytes) : toInt32 bs ≤ maxInt32 := by
  rw [toInt32_eq, maxInt32]
  have hlt := Int.bmod_lt (x := (toNat (bs.take 4) : Int)) (m := 4294967296) (by decide)
  omega

/-- What is behind the four bytes of a word does not change it. -/
theorem toInt32_drop_append {k : Nat} (h : k + 4 ≤ bs.length) (rest : Bytes) :
    toInt32 ((bs ++ rest).drop k) = toInt32 (bs.drop k) := by
  rw [toInt32_eq, toInt32_eq, List.drop_append_of_le_length (by omega),
    List.take_append_of_le_length (by rw [List.length_drop]; omega)]

/-- A string is its word at a place and what is behind that. -/
theorem drop_eq (bs : Bytes) (k : Nat) : bs.drop k = (bs.drop k).take 4 ++ bs.drop (k + 4) := by
  rw [← List.drop_drop, List.take_append_drop]

end Bytes

/-! ### Reading what was written -/

/-- The refusal of a file that has not the shape wanted. -/
def IsMismatch : Error → Prop
  | .formatMismatch _ => True
  | _ => False

namespace Header

variable {h found wanted : Header} {bs : Bytes} {split : Bool} {offset n : Nat} {field : Dimension}

theorem length_magic (split : Bool) : (magic split).length = 4 := rfl

theorem length_encode (h : Header) : h.encode.length = h.encodedLength := by
  obtain ⟨version, blockSize, maxBlocks, reserveSize, region?⟩ := h
  cases region? <;>
    simp [encode, encodedLength, length_magic, size]

theorem encodedLength_pos (h : Header) : 0 < h.encodedLength := by
  rw [encodedLength]
  cases h.region?.isSome <;> decide

theorem readDimension_eq {rest : Bytes} (hpos : 0 < n) (hle : n ≤ maxInt32)
    (hbs : bs.drop offset = Bytes.ofNat 4 n ++ rest) :
    readDimension bs offset field = .ok n := by
  rw [readDimension, hbs, Bytes.toInt32_ofNat_append hle]
  exact if_neg (by omega)

/-- A dimension is read from its four bytes. -/
theorem take_of_readDimension (hlen : offset + 4 ≤ bs.length)
    (h : readDimension bs offset field = .ok n) :
    bs.drop offset = Bytes.ofNat 4 n ++ bs.drop (offset + 4) := by
  rw [readDimension] at h
  split at h
  · cases h
  · next hpos =>
    have hn : Bytes.toInt32 (bs.drop offset) = n := by
      rw [← Except.ok.inj h]
      omega
    rw [Bytes.drop_eq, Bytes.take_of_toInt32 (by rw [List.length_drop]; omega) hn]

theorem encode_drop (h : Header) :
    h.encode.take 4 = magic h.region?.isSome ∧
      h.encode.drop 4 = Bytes.ofInt32 h.version ++ h.encode.drop 8 ∧
      h.encode.drop 8 = Bytes.ofNat 4 h.blockSize ++ h.encode.drop 12 ∧
      h.encode.drop 12 = Bytes.ofNat 4 h.maxBlocks ++ h.encode.drop 16 ∧
      h.encode.drop 16 = Bytes.ofNat 4 h.reserveSize ++ h.encode.drop 20 ∧
      ∀ r ∈ h.region?, h.encode.drop 20 = Bytes.ofNat 4 r.blockSize ++ h.encode.drop 24 ∧
        h.encode.drop 24 = Bytes.ofNat 4 r.maxBlocks ++ [] := by
  have hword {as bs : Bytes} (k : Nat) (has : as.length = 4) :
      (as ++ bs).drop (4 + k) = bs.drop k := by
    rw [← List.drop_drop, List.drop_left' has]
  obtain ⟨version, blockSize, maxBlocks, reserveSize, region?⟩ := h
  have hversion := Bytes.length_ofInt32 version
  have hlen := Bytes.length_ofNat 4
  simp only [encode, List.append_assoc]
  refine ⟨List.take_left' rfl, ?_, ?_, ?_, ?_, ?_⟩
  · rw [hword 0 rfl, hword 4 rfl, hword 0 hversion]
    rfl
  · rw [hword 4 rfl, hword 0 hversion, hword 8 rfl, hword 4 hversion, hword 0 (hlen _)]
    rfl
  · rw [hword 8 rfl, hword 4 hversion, hword 0 (hlen _), hword 12 rfl, hword 8 hversion,
      hword 4 (hlen _), hword 0 (hlen _)]
    rfl
  · rw [hword 12 rfl, hword 8 hversion, hword 4 (hlen _), hword 0 (hlen _), hword 16 rfl,
      hword 12 hversion, hword 8 (hlen _), hword 4 (hlen _), hword 0 (hlen _)]
    rfl
  · intro r hr
    obtain rfl : region? = some r := hr
    dsimp only
    constructor
    · rw [hword 16 rfl, hword 12 hversion, hword 8 (hlen _), hword 4 (hlen _), hword 0 (hlen _),
        hword 20 rfl, hword 16 hversion, hword 12 (hlen _), hword 8 (hlen _), hword 4 (hlen _),
        hword 0 (hlen _)]
      rfl
    · rw [hword 20 rfl, hword 16 hversion, hword 12 (hlen _), hword 8 (hlen _), hword 4 (hlen _),
        hword 0 (hlen _)]
      exact (List.append_nil _).symm

theorem readDimension_range (h : readDimension bs offset field = .ok n) : 0 < n ∧ n ≤ maxInt32 := by
  rw [readDimension] at h
  split at h
  · cases h
  · next hpos =>
    have hle := Bytes.toInt32_le (bs.drop offset)
    rw [← Except.ok.inj h]
    omega

theorem readDimension_mismatch {e : Error} (h : readDimension bs offset field = .error e) :
    IsMismatch e := by
  rw [readDimension] at h
  split at h
  · rw [← Except.error.inj h]
    trivial
  · cases h

theorem readDimension_append (hlen : offset + 4 ≤ bs.length) (field : Dimension) (rest : Bytes) :
    readDimension (bs ++ rest) offset field = readDimension bs offset field := by
  rw [readDimension, readDimension, Bytes.toInt32_drop_append hlen]

/-- The version is the one of the format, and the dimensions are positive signed words. -/
structure InRange (h : Header) : Prop where
  version_eq : h.version = formatVersion
  blockSize : 0 < h.blockSize ∧ h.blockSize ≤ maxInt32
  maxBlocks : 0 < h.maxBlocks ∧ h.maxBlocks ≤ maxInt32
  reserveSize : 0 < h.reserveSize ∧ h.reserveSize ≤ maxInt32
  region : ∀ r ∈ h.region?, (0 < r.blockSize ∧ r.blockSize ≤ maxInt32) ∧
    0 < r.maxBlocks ∧ r.maxBlocks ≤ maxInt32

/-- A header that is read back if it is written. -/
structure Stored (h : Header) : Prop extends Fits h where
  version_eq : h.version = formatVersion
  region_pos : ∀ r ∈ h.region?, 0 < r.maxBlocks

theorem Stored.inRange (hs : h.Stored) : h.InRange where
  version_eq := hs.version_eq
  blockSize := ⟨Nat.lt_of_lt_of_le (by decide) hs.blockSize.1, hs.blockSize.2⟩
  maxBlocks := hs.maxBlocks
  reserveSize := ⟨Nat.lt_of_lt_of_le (by decide) hs.reserveSize.1, hs.reserveSize.2⟩
  region r hr :=
    have hregion := hs.region r hr
    ⟨⟨Nat.lt_of_lt_of_le (by decide) hregion.1.1, hregion.1.2⟩, hs.region_pos r hr, hregion.2⟩

/-- The header of accepted options is read back. -/
theorem stored_of_fits {o : Options} (ho : o.Fits)
    (hmade : plain o = .ok h ∨ Header.split o = .ok h) :
    h.Stored := by
  refine ⟨ho.header hmade, ?_, fun r hr => ?_⟩
  · rw [plain_eq ho, split_eq ho] at hmade
    rcases hmade with hmade | hmade <;> rw [← Except.ok.inj hmade]
  · rw [plain_eq ho, split_eq ho] at hmade
    rcases hmade with hmade | hmade <;> rw [← Except.ok.inj hmade] at hr
    · cases hr
    · rw [← Option.mem_some.1 hr]
      exact ho.regionMaxBlocks.1

/-- A header is read back. -/
theorem decode_encode (hr : h.InRange) : decode h.encode h.region?.isSome = .ok h := by
  obtain ⟨hmagic, hversion, hblock, hmax, hreserve, hregion⟩ := h.encode_drop
  have hlen : ¬ h.encode.length < size h.region?.isSome := by
    rw [length_encode]
    exact Nat.lt_irrefl _
  have hv : Bytes.toInt32 (h.encode.drop 4) = formatVersion := by
    rw [hversion, hr.version_eq]
    exact Bytes.toInt32_ofInt32_append (by decide) (by decide) _
  unfold decode
  rw [if_neg hlen, if_neg (not_not.2 hmagic), hv, if_neg (not_not.2 rfl),
    readDimension_eq hr.blockSize.1 hr.blockSize.2 hblock,
    readDimension_eq hr.maxBlocks.1 hr.maxBlocks.2 hmax,
    readDimension_eq hr.reserveSize.1 hr.reserveSize.2 hreserve]
  change (if h.region?.isSome = true then _ else _) = _
  cases hcase : h.region? with
  | none =>
    rw [if_neg (by exact Bool.false_ne_true), ← hr.version_eq, ← hcase]
    rfl
  | some r =>
    obtain ⟨hrblock, hrmax⟩ := hregion r hcase
    obtain ⟨⟨hrpos, hrle⟩, hrmax_pos, hrmax_le⟩ := hr.region r hcase
    rw [if_pos (by rfl), readDimension_eq hrpos hrle hrblock,
      readDimension_eq hrmax_pos hrmax_le hrmax, ← hr.version_eq]
    change Except.ok _ = Except.ok h
    rw [← hcase]

/-- What a header is read from is what would be written of it. -/
theorem eq_encode (hlen : bs.length = size split) (h : decode bs split = .ok found) :
    bs = found.encode ∧ found.region?.isSome = split ∧ found.InRange := by
  have hsize : 20 ≤ size split ∧ (split = true → 28 ≤ size split) := by cases split <;> decide
  unfold decode at h
  rw [if_neg (by omega)] at h
  dsimp only at h
  split at h
  · cases h
  next hmagic =>
  split at h
  · cases h
  next hversion =>
  rw [not_not] at hmagic hversion
  rw [hversion] at h
  have hv : bs.drop 4 = Bytes.ofInt32 formatVersion ++ bs.drop 8 := by
    have htake := Bytes.take_of_toInt32 (v := 1) (by rw [List.length_drop]; omega) hversion
    rw [Bytes.drop_eq, htake]
    rfl
  obtain ⟨blockSize, hblock, h⟩ := exists_of_bind_eq_ok h
  obtain ⟨maxBlocks, hmax, h⟩ := exists_of_bind_eq_ok h
  obtain ⟨reserveSize, hreserve, h⟩ := exists_of_bind_eq_ok h
  have hblock_range := readDimension_range hblock
  have hmax_range := readDimension_range hmax
  have hreserve_range := readDimension_range hreserve
  have hblock := take_of_readDimension (by omega) hblock
  have hmax := take_of_readDimension (by omega) hmax
  have hreserve := take_of_readDimension (by omega) hreserve
  have hbs : bs = magic split ++ (Bytes.ofInt32 formatVersion ++ (Bytes.ofNat 4 blockSize ++
      (Bytes.ofNat 4 maxBlocks ++ (Bytes.ofNat 4 reserveSize ++ bs.drop 20)))) := by
    rw [← hreserve, ← hmax, ← hblock, ← hv, ← hmagic, List.take_append_drop]
  cases split with
  | false =>
    obtain rfl := Except.ok.inj h
    have hend : bs.drop 20 = [] := List.drop_eq_nil_of_le (Nat.le_of_eq hlen)
    refine ⟨hbs.trans ?_, rfl, rfl, hblock_range, hmax_range, hreserve_range, nofun⟩
    rw [hend]
    simp only [encode, List.append_assoc]
    rfl
  | true =>
    obtain ⟨regionBlockSize, hrblock, h⟩ := exists_of_bind_eq_ok h
    obtain ⟨regionMaxBlocks, hrmax, h⟩ := exists_of_bind_eq_ok h
    have hregion_range := And.intro (readDimension_range hrblock) (readDimension_range hrmax)
    have hrblock := take_of_readDimension (by have := hsize.2 rfl; omega) hrblock
    have hrmax := take_of_readDimension (by have := hsize.2 rfl; omega) hrmax
    obtain rfl := Except.ok.inj h
    have hend : bs.drop 28 = [] := List.drop_eq_nil_of_le (Nat.le_of_eq hlen)
    refine ⟨hbs.trans ?_, rfl, rfl, hblock_range, hmax_range, hreserve_range, fun r hr => ?_⟩
    · rw [hrblock, hrmax, hend, List.append_nil]
      simp only [encode, List.append_assoc]
      rfl
    · rw [← Option.mem_some.1 hr]
      exact hregion_range

/-- A plain file is no split file, nor the other way. -/
theorem decode_other (hlen : size split ≤ bs.length) (hmagic : bs.take 4 = magic !split) :
    ∃ e, decode bs split = .error e ∧ IsMismatch e := by
  have hne : bs.take 4 ≠ magic split := by
    rw [hmagic]
    cases split <;> decide
  unfold decode
  rw [if_neg (Nat.not_lt.2 hlen), if_pos hne]
  exact ⟨_, rfl, trivial⟩

/-! ### What a header is read from -/

/-- What is behind the header does not change it. -/
theorem decode_append (hlen : size split ≤ bs.length) (rest : Bytes) :
    decode (bs ++ rest) split = decode bs split := by
  have hsize : 20 ≤ size split := by cases split <;> decide
  have hmagic : (bs ++ rest).take 4 = bs.take 4 := List.take_append_of_le_length (by omega)
  unfold decode
  rw [if_neg (by rw [List.length_append]; omega), if_neg (Nat.not_lt.2 hlen), hmagic,
    Bytes.toInt32_drop_append (by omega), readDimension_append (by omega),
    readDimension_append (by omega), readDimension_append (by omega)]
  cases split with
  | false => simp only [Bool.false_eq_true, ↓reduceIte]
  | true =>
    have hlong : 28 ≤ bs.length := hlen
    have hblock : 20 + 4 ≤ bs.length := by omega
    simp only [↓reduceIte, readDimension_append hblock, readDimension_append hlong]

/-- What is not read as a header is a mismatch. -/
theorem decode_mismatch {e : Error} (h : decode bs split = .error e) : IsMismatch e := by
  have hbind {x : Except Error Nat} {f : Nat → Except Error Header}
      (h : x >>= f = .error e) (hx : x = .error e → IsMismatch e)
      (hf : ∀ n, f n = .error e → IsMismatch e) : IsMismatch e := by
    cases x with
    | error e' => exact hx (congrArg Except.error (Except.error.inj h))
    | ok n => exact hf n h
  unfold decode at h
  by_cases hlen : bs.length < size split
  · rw [if_pos hlen] at h
    rw [← Except.error.inj h]
    trivial
  rw [if_neg hlen] at h
  dsimp only at h
  split at h
  · rw [← Except.error.inj h]
    trivial
  split at h
  · rw [← Except.error.inj h]
    trivial
  refine hbind h readDimension_mismatch fun blockSize h => ?_
  refine hbind h readDimension_mismatch fun maxBlocks h => ?_
  refine hbind h readDimension_mismatch fun reserveSize h => ?_
  split at h
  · refine hbind h readDimension_mismatch fun regionBlockSize h => ?_
    exact hbind h readDimension_mismatch fun regionMaxBlocks h => nomatch h
  · cases h

/-- The bytes begin with what would be written of the header that is read. -/
theorem of_decode (h : decode bs split = .ok found) :
    bs.take found.encodedLength = found.encode ∧ found.region?.isSome = split ∧ found.InRange := by
  have hlen : size split ≤ bs.length := by
    by_contra hshort
    unfold decode at h
    rw [if_pos (Nat.not_le.1 hshort)] at h
    cases h
  have htake : (bs.take (size split)).length = size split := List.length_take_of_le hlen
  rw [← List.take_append_drop (size split) bs, decode_append (Nat.le_of_eq htake.symm)] at h
  obtain ⟨hencode, hkind, hrange⟩ := eq_encode htake h
  rw [encodedLength, hkind]
  exact ⟨hencode, rfl, hrange⟩

/-- **A header is read from what is written of it and from nothing else.** Every header whose
dimensions are positive signed words is read back, whatever follows, and is no header of the other
kind. From any bytes either such a header is read, of the kind expected, and then the bytes begin
with what would be written of it; or the bytes are refused as a mismatch. -/
theorem decode_exact :
    (∀ h : Header, h.InRange → ∀ rest,
      decode (h.encode ++ rest) h.region?.isSome = .ok h ∧
      ∃ e, decode (h.encode ++ rest) (!h.region?.isSome) = .error e ∧ IsMismatch e) ∧
    ∀ bs split,
      (∃ h : Header, decode bs split = .ok h ∧ h.region?.isSome = split ∧ h.InRange ∧
        h.encode = bs.take h.encodedLength) ∨
      ∃ e, decode bs split = .error e ∧ IsMismatch e := by
  constructor
  · intro h hr rest
    constructor
    · rw [decode_append (Nat.le_of_eq h.length_encode.symm), decode_encode hr]
    · cases hdecode : decode (h.encode ++ rest) !h.region?.isSome with
      | error e => exact ⟨e, rfl, decode_mismatch hdecode⟩
      | ok found =>
        -- its first letters would be those of both kinds
        obtain ⟨hencode, hkind, -⟩ := of_decode hdecode
        have hfour : 4 ≤ found.encodedLength ∧ 4 ≤ h.encode.length := by
          rw [length_encode, encodedLength, encodedLength]
          cases found.region?.isSome <;> cases h.region?.isSome <;> decide
        have hmagic := congrArg (List.take 4) hencode
        rw [List.take_take, Nat.min_eq_left hfour.1, List.take_append_of_le_length hfour.2,
          h.encode_drop.1, found.encode_drop.1, hkind] at hmagic
        exact absurd hmagic (by cases h.region?.isSome <;> decide)
  · intro bs split
    cases hdecode : decode bs split with
    | error e => exact .inr ⟨e, rfl, decode_mismatch hdecode⟩
    | ok found =>
      obtain ⟨hencode, hkind, hrange⟩ := of_decode hdecode
      exact .inl ⟨found, rfl, hkind, hrange, hencode.symm⟩

/-- A split file's header of the greatest dimensions is read back with a byte behind it, and is no
header of a plain file, although that is shorter. -/
theorem decode_exact_greatest :
    let h : Header :=
      ⟨formatVersion, maxInt32, maxInt32, maxInt32, some ⟨maxInt32, maxInt32⟩⟩
    h.InRange ∧ decode (h.encode ++ [7]) true = .ok h ∧
      ∃ e, decode (h.encode ++ [7]) false = .error e ∧ IsMismatch e := by
  intro h
  have hr : h.InRange := by
    refine ⟨rfl, by decide, by decide, by decide, fun r hr => ?_⟩
    rw [← Option.mem_some.1 hr]
    decide
  obtain ⟨hsame, hother⟩ := decode_exact.1 h hr [7]
  exact ⟨hr, hsame, hother⟩

/-! ### The shape wanted -/

theorem requireSame_eq (field : Dimension) (a b : Nat) :
    requireSame field a b = .ok () ∧ a = b ∨
      a ≠ b ∧ ∃ e, requireSame field a b = .error e ∧ IsMismatch e := by
  rw [requireSame]
  by_cases hab : a = b
  · exact .inl ⟨if_pos hab, hab⟩
  · exact .inr ⟨hab, _, if_neg hab, trivial⟩

/-- Of headers of one kind only the one that is wanted is accepted. -/
theorem requireShape_spec (hversion : found.version = wanted.version)
    (hkind : found.region?.isSome = wanted.region?.isSome) :
    found.requireShape wanted = .ok () ∧ found = wanted ∨
      found ≠ wanted ∧ ∃ e, found.requireShape wanted = .error e ∧ IsMismatch e := by
  obtain ⟨version, blockSize, maxBlocks, reserveSize, region?⟩ := found
  obtain ⟨version', blockSize', maxBlocks', reserveSize', region?'⟩ := wanted
  obtain rfl : version = version' := hversion
  -- a dimension that differs ends the comparison
  have hbind {a b : Nat} {P : Prop} {rest : Unit → Except Error Unit} (field : Dimension)
      (hne : a ≠ b → ¬ P) (hrest : a = b → rest () = .ok () ∧ P ∨
        ¬ P ∧ ∃ e, rest () = .error e ∧ IsMismatch e) :
      requireSame field a b >>= rest = .ok () ∧ P ∨
        ¬ P ∧ ∃ e, requireSame field a b >>= rest = .error e ∧ IsMismatch e := by
    rcases requireSame_eq field a b with ⟨heq, hab⟩ | ⟨hab, e, heq, he⟩
    · rw [heq]
      exact hrest hab
    · rw [heq]
      exact .inr ⟨hne hab, e, rfl, he⟩
  refine hbind .blockSize (by simp_all) fun hblock => ?_
  refine hbind .maxBlocks (by simp_all) fun hmax => ?_
  refine hbind .reserveSize (by simp_all) fun hreserve => ?_
  subst hblock hmax hreserve
  cases region? with
  | none =>
    cases region?' with
    | none => exact .inl ⟨rfl, rfl⟩
    | some r => cases hkind
  | some r =>
    cases region?' with
    | none => cases hkind
    | some r' =>
      obtain ⟨rblock, rmax⟩ := r
      obtain ⟨rblock', rmax'⟩ := r'
      refine hbind .regionBlockSize (by simp_all) fun hblock => ?_
      subst hblock
      rcases requireSame_eq .regionMaxBlocks rmax rmax' with ⟨heq, rfl⟩ | ⟨hne, e, heq, he⟩
      · exact .inl ⟨heq, rfl⟩
      · exact .inr ⟨by simp_all, e, heq, he⟩

end Header

end PagedMap
