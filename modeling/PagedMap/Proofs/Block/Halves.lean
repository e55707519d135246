/-
# Blocks are halved as evenly as can be

A block that is split loses none of its entries, and no other cut between two of them would leave
the halves more alike (`Block.split_halves`). An index block gives up one separator besides: the
child of this separator becomes the last of the lower half, and the last child of the block that
of the upper half, so that no child is lost (`Index.promote_halves`). If no entry is longer than
a third of the room and the block is overfull by no more than one entry, the halves fit.

Key theorems: `Block.abs_cut_le`, `Block.split_halves`, `Index.exists_parts`,
`Index.abs_promoted_le`, `Index.promote_halves`.
-/
import PagedMap.Proofs.Block.Cut
import PagedMap.Proofs.Codec.Kinds

namespace PagedMap

namespace Block

variable {κ π : Type} {K : OrderedCodec κ} {P : Codec π}

theorem gap_eq_abs (m n : Nat) : (gap m n : ℤ) = |(m : ℤ) - n| := by
  unfold gap
  rcases Nat.le_total m n with hle | hle
  · rw [abs_of_nonpos (by omega)]
    omega
  · rw [abs_of_nonneg (by omega)]
    omega

/-- No cut between two entries is nearer the middle. -/
theorem abs_cut_le {b : Block K P} (hlen : 2 ≤ b.length) {xs ys : List Bytes}
    (hcut : b.entries = xs ++ ys) (hxs : xs ≠ []) (hys : ys ≠ []) :
    |2 * (mass (b.entries.take b.cut) : ℤ) - b.entryBytes| ≤
      |2 * (mass xs : ℤ) - b.entryBytes| := by
  have hlength : b.length = xs.length + ys.length := by rw [length, hcut, List.length_append]
  have hxs' := List.length_pos_iff.2 hxs
  have hys' := List.length_pos_iff.2 hys
  have htake : b.entries.take xs.length = xs := by rw [hcut, List.take_left]
  have hgap := Int.ofNat_le.2 ((cut_spec hlen).2.2 xs.length hxs' (by omega))
  rw [htake, gap_eq_abs, gap_eq_abs] at hgap
  push_cast at hgap
  exact hgap

/-- **A block is split as evenly as can be.** The entries of the halves are those of the block, in
order; neither half is empty; and no cut between two entries is nearer the middle. An overfull
block whose entries are no longer than a third of the room, and which is overfull by no more than
that, is split, into halves that are larger than a third of the room. -/
theorem split_halves {b : Block K P} (hlen : 2 ≤ b.length) (hne : ∀ e ∈ b.entries, e ≠ []) :
    (∀ lower upper, split b = (.ok upper, lower) →
      b.entries = lower.entries ++ upper.entries ∧ lower.entries ≠ [] ∧ upper.entries ≠ [] ∧
      ∀ xs ys, b.entries = xs ++ ys → xs ≠ [] → ys ≠ [] →
        |2 * (lower.entryBytes : ℤ) - b.entryBytes| ≤ |2 * (mass xs : ℤ) - b.entryBytes|) ∧
    ((∀ e ∈ b.entries, e.length ≤ (b.capacity - 8) / 3) → b.isOverflowed = true →
      b.entryBytes ≤ (b.capacity - 8) + (b.capacity - 8) / 3 →
      ∃ lower upper, split b = (.ok upper, lower) ∧
        b.capacity - 8 < 3 * lower.entryBytes ∧ b.capacity - 8 < 3 * upper.entryBytes) := by
  constructor
  · intro lower upper h
    rw [split_run hlen] at h
    obtain ⟨hanswer, rfl⟩ := Prod.mk.inj h
    split at hanswer
    · cases hanswer
    obtain rfl := Except.ok.inj hanswer
    obtain ⟨hpos, hlt, -⟩ := cut_spec hlen
    refine ⟨(List.take_append_drop ..).symm, ?_, ?_,
      fun xs ys hcut hxs hys => abs_cut_le hlen hcut hxs hys⟩
    · rw [← List.length_pos_iff, splitAt, List.length_take, ← length]
      omega
    · rw [← List.length_pos_iff, splitAt, List.length_drop, ← length]
      omega
  · intro hlimit hover hbound
    rw [isOverflowed_iff] at hover
    have hroom : 8 ≤ b.capacity := by
      obtain ⟨e, he⟩ : ∃ e, e ∈ b.entries := List.exists_mem_of_length_pos (by
        rw [length] at hlen
        omega)
      have hpos := List.length_pos_iff.2 (hne e he)
      have := hlimit e he
      omega
    obtain ⟨-, -, hlower, hupper, hlarge, hlarge'⟩ :=
      cut_halves (Nat.mul_div_le (b.capacity - 8) 3) hlimit (by omega) hbound
    have hlowerFits : (b.splitAt b.cut).1.isOverflowed = false := isOverflowed_of_le hroom hlower
    have hupperFits : (b.splitAt b.cut).2.isOverflowed = false := isOverflowed_of_le hroom hupper
    have hrun := split_run hlen
    rw [hlowerFits, hupperFits] at hrun
    exact ⟨_, _, hrun, hlarge, hlarge'⟩

/-- A block of 32 bytes with entries of eight, five, eight and six: both halves are larger than
eight bytes, and no cut is nearer to the middle than that with thirteen bytes below it. -/
theorem split_halves_overfull :
    ∃ lower upper : Block KeyKind.byteString.codec word32.toCodec,
      split (⟨32, [8, 5, 8, 6].map (List.replicate · 0), 0⟩ :
        Block KeyKind.byteString.codec word32.toCodec) = (.ok upper, lower) ∧
      [8, 5, 8, 6].map (List.replicate · 0) = lower.entries ++ upper.entries ∧
      24 < 3 * lower.entryBytes ∧ 24 < 3 * upper.entryBytes ∧
      |2 * (lower.entryBytes : ℤ) - 27| ≤ |2 * (13 : ℤ) - 27| := by
  obtain ⟨hsplit, hfits⟩ := split_halves (K := KeyKind.byteString.codec) (P := word32.toCodec)
    (b := ⟨32, [8, 5, 8, 6].map (List.replicate · 0), 0⟩) (by decide) (by decide)
  obtain ⟨lower, upper, hrun, hlower, hupper⟩ := hfits (by decide) (by decide) (by decide)
  obtain ⟨hentries, -, -, hbest⟩ := hsplit lower upper hrun
  exact ⟨lower, upper, hrun, hentries, hlower, hupper,
    hbest ([8, 5].map (List.replicate · 0)) ([8, 6].map (List.replicate · 0)) rfl (by decide)
      (by decide)⟩

end Block

namespace Index

open Block (mass)

variable {κ : Type} {K : OrderedCodec κ} {b : Index K} {ks : List Bytes} {cs : List BlockNumber}

theorem four_le_of_decode {bs : Bytes} {c : BlockNumber} (h : word32.decode bs = .ok c) :
    4 ≤ bs.length := by
  change (WordType.digits _ bs).map _ = _ at h
  rw [WordType.digits, Bytes.window?_eq] at h
  split at h
  next hwindow =>
    by_contra hshort
    rw [if_neg hshort] at hwindow
    cases hwindow
  next => cases h

/-- An entry with a child has the four bytes of it. -/
theorem four_le_of_readPayload {e : Bytes} {c : BlockNumber}
    (h : Block.readPayload K word32.toCodec e = .ok c) : 4 ≤ e.length := by
  obtain ⟨payload, hpayload, hword⟩ := exists_of_bind_eq_ok h
  have hlong := four_le_of_decode hword
  cases hcut : Block.cutEntry K e with
  | error err =>
    rw [Block.payloadOf, hcut] at hpayload
    cases hpayload
  | ok r =>
    rw [Block.payloadOf, hcut] at hpayload
    obtain rfl := Except.ok.inj hpayload
    obtain ⟨n, -, hcut⟩ := exists_of_bind_eq_ok hcut
    split at hcut
    · rw [← Except.ok.inj hcut, List.length_drop] at hlong
      omega
    · cases hcut

/-- What is read of all separators is read of those below one, of it, and of those above it. -/
theorem exists_parts {es fs : List Bytes} {e : Bytes} (hks : b.keys = .ok ks)
    (hcs : children b = .ok cs) (hentries : b.entries = es ++ e :: fs) :
    ∃ ks₁ key ks₂ cs₁ c cs₂, Block.keyOf K e = .ok key ∧
      Block.readPayload K word32.toCodec e = .ok c ∧
      es.mapM (Block.keyOf K) = .ok ks₁ ∧ fs.mapM (Block.keyOf K) = .ok ks₂ ∧
      es.mapM (Block.readPayload K word32.toCodec) = .ok cs₁ ∧
      fs.mapM (Block.readPayload K word32.toCodec) = .ok cs₂ ∧
      ks = ks₁ ++ key :: ks₂ ∧ cs = (cs₁ ++ [c]) ++ (cs₂ ++ [b.last]) := by
  rw [Block.keys, hentries] at hks
  obtain ⟨ks₁, ks', hks₁, hks', rfl⟩ := exists_of_mapM_append hks
  obtain ⟨key, ks₂, hkey, hks₂, rfl⟩ := exists_of_mapM_cons hks'
  rw [children, hentries] at hcs
  obtain ⟨before, hbefore, hcs⟩ := exists_of_bind_eq_ok hcs
  obtain ⟨cs₁, cs', hcs₁, hcs', rfl⟩ := exists_of_mapM_append hbefore
  obtain ⟨c, cs₂, hc, hcs₂, rfl⟩ := exists_of_mapM_cons hcs'
  refine ⟨ks₁, key, ks₂, cs₁, c, cs₂, hkey, hc, hks₁, hks₂, hcs₁, hcs₂, rfl, ?_⟩
  rw [← Except.ok.inj hcs]
  simp

/-- No separator but the first and the last would leave the halves more alike. -/
theorem abs_promoted_le (hlen : 3 ≤ b.length) {es fs : List Bytes} {e : Bytes}
    (hcut : b.entries = es ++ e :: fs) (hes : es ≠ []) (hfs : fs ≠ []) :
    |(mass (b.entries.take (promoted b)) : ℤ) - mass (b.entries.drop (promoted b + 1))| ≤
      |(mass es : ℤ) - mass fs| := by
  have hlength : b.length = es.length + (fs.length + 1) := by
    rw [Block.length, hcut, List.length_append, List.length_cons]
  have hes' := List.length_pos_iff.2 hes
  have hfs' := List.length_pos_iff.2 hfs
  have htake : b.entries.take es.length = es := by rw [hcut, List.take_left]
  have hdrop : b.entries.drop (es.length + 1) = fs := by
    rw [← List.drop_drop, hcut, List.drop_left]
    rfl
  have hgap := Int.ofNat_le.2 ((promoted_spec hlen).2.2 es.length hes' (by omega))
  rw [imbalance_eq, imbalance_eq, htake, hdrop, Block.gap_eq_abs, Block.gap_eq_abs] at hgap
  exact hgap

/-- **An index block gives up a separator so that the halves are as even as can be.** The keys
below the separator, its own and those above it are the keys of the block, in order; the children
of the halves are all its children; neither half is without a separator; and none but the first
and the last would leave the halves more alike. An overfull block whose separators are no longer
than a third of the room, and which is overfull by no more than that, has four of them and gives
one up. -/
theorem promote_halves (hlen : 3 ≤ b.length) (hks : b.keys = .ok ks) (hcs : children b = .ok cs) :
    (∀ key lower upper, promote b = (.ok (key, upper), lower) →
      (∃ ks₁ ks₂ cs₁ cs₂, lower.keys = .ok ks₁ ∧ upper.keys = .ok ks₂ ∧
        children lower = .ok cs₁ ∧ children upper = .ok cs₂ ∧
        ks = ks₁ ++ key :: ks₂ ∧ cs = cs₁ ++ cs₂) ∧
      1 ≤ lower.length ∧ 1 ≤ upper.length ∧
      ∀ es e fs, b.entries = es ++ e :: fs → es ≠ [] → fs ≠ [] →
        |(lower.entryBytes : ℤ) - upper.entryBytes| ≤ |(mass es : ℤ) - mass fs|) ∧
    ((∀ e ∈ b.entries, e.length ≤ (b.capacity - 8) / 3) → b.isOverflowed = true →
      b.entryBytes ≤ (b.capacity - 8) + (b.capacity - 8) / 3 →
      4 ≤ b.length ∧ ∃ key lower upper, promote b = (.ok (key, upper), lower)) := by
  obtain ⟨hpos, hlast, -⟩ := promoted_spec hlen
  obtain ⟨e, he⟩ : ∃ e, b.entries[promoted b]? = some e := ⟨_, List.getElem?_eq_getElem (by
    rw [Block.length] at hlast
    omega)⟩
  have hentries := eq_take_append_of_getElem? he
  obtain ⟨ks₁, key, ks₂, cs₁, c, cs₂, hkey, hchild, hks₁, hks₂, hcs₁, hcs₂, hkeys, hchildren⟩ :=
    exists_parts hks hcs hentries
  have hlower : (b.entries.take (promoted b)).length = promoted b := by
    rw [Block.length] at hlast
    exact List.length_take_of_le (by omega)
  have hupper : (b.entries.drop (promoted b + 1)).length = b.length - (promoted b + 1) := by
    rw [List.length_drop, Block.length]
  have hrun := promote_run hlen hentries hlower.symm hkey hchild
  constructor
  · intro key' lower upper h
    rw [hrun] at h
    obtain ⟨hanswer, rfl⟩ := Prod.mk.inj h
    split at hanswer
    · cases hanswer
    · obtain ⟨rfl, rfl⟩ := Prod.mk.inj (Except.ok.inj hanswer)
      refine ⟨⟨ks₁, ks₂, cs₁ ++ [c], cs₂ ++ [b.last], hks₁, hks₂, ?_, ?_, hkeys, hchildren⟩,
        ?_, ?_, fun es f fs hcut hes hfs => abs_promoted_le hlen hcut hes hfs⟩
      · rw [children, hcs₁]
        rfl
      · rw [children, hcs₂]
        rfl
      · change 1 ≤ (b.entries.take (promoted b)).length
        omega
      · change 1 ≤ (b.entries.drop (promoted b + 1)).length
        omega
  · intro hlimit hover hbound
    rw [Block.isOverflowed_iff] at hover
    have hroom : 8 ≤ b.capacity := by
      have hlong := four_le_of_readPayload hchild
      have hshort := hlimit e (List.mem_of_getElem? he)
      omega
    have hthird := Nat.mul_div_le (b.capacity - 8) 3
    have hover' : b.capacity - 8 < b.entryBytes := by omega
    obtain ⟨-, -, hbelow, habove, -, -⟩ := promoted_halves hthird hlimit hover' hbound
    have hlowerFits : Block.isOverflowed
        (⟨b.capacity, b.entries.take (promoted b), c⟩ : Index K) = false :=
      Block.isOverflowed_of_le hroom hbelow
    have hupperFits : Block.isOverflowed
        (⟨b.capacity, b.entries.drop (promoted b + 1), b.last⟩ : Index K) = false :=
      Block.isOverflowed_of_le hroom habove
    rw [hlowerFits, hupperFits] at hrun
    exact ⟨Block.four_le_length hthird hlimit hover', key, _, _, hrun⟩

/-- An index block of 44 bytes with separators of eight, twelve, nine and twelve gives one up, and
its halves are at least as alike as the third would leave them. -/
theorem promote_halves_overfull :
    ∃ (key : Bytes) (lower upper : Index KeyKind.byteString.codec) (ks₁ ks₂ : List Bytes)
      (cs₁ cs₂ : List BlockNumber),
      promote (ofParts KeyKind.byteString.codec 44
        [[], [97, 97, 97, 97], [98], [99, 99, 99, 99]] [10, 11, 12, 13, 14]) =
          (.ok (key, upper), lower) ∧
      children lower = .ok cs₁ ∧ children upper = .ok cs₂ ∧ [10, 11, 12, 13, 14] = cs₁ ++ cs₂ ∧
      [[0, 0, 0, 0], [0, 0, 0, 4, 97, 97, 97, 97], [0, 0, 0, 1, 98],
        [0, 0, 0, 4, 99, 99, 99, 99]] = ks₁ ++ key :: ks₂ ∧
      |(lower.entryBytes : ℤ) - upper.entryBytes| ≤ |(20 : ℤ) - 12| := by
  let keys : List KeyKind.byteString.Item := [[], [97, 97, 97, 97], [98], [99, 99, 99, 99]]
  let b := ofParts KeyKind.byteString.codec 44 keys [10, 11, 12, 13, 14]
  have hks : b.keys = .ok [[0, 0, 0, 0], [0, 0, 0, 4, 97, 97, 97, 97], [0, 0, 0, 1, 98],
      [0, 0, 0, 4, 99, 99, 99, 99]] := by decide
  have hcs : children b = .ok [10, 11, 12, 13, 14] := by decide
  obtain ⟨hpromote, hfits⟩ := promote_halves (b := b) (by decide) hks hcs
  obtain ⟨-, key, lower, upper, hrun⟩ := hfits (by decide) (by decide) (by decide)
  obtain ⟨⟨ks₁, ks₂, cs₁, cs₂, -, -, hlower, hupper, hkeys, hchildren⟩, -, -, hbest⟩ :=
    hpromote key lower upper hrun
  have hentries : b.entries = (b.entries.take 2) ++ [0, 0, 0, 1, 98, 0, 0, 0, 12] ::
      b.entries.drop 3 := by decide
  have hnear := hbest _ _ _ hentries (by decide) (by decide)
  exact ⟨key, lower, upper, ks₁, ks₂, cs₁, cs₂, hrun, hlower, hupper, hchildren, hkeys, hnear⟩

end Index

end PagedMap
