/-
# What rotating keeps

Since rotating only moves the border between two blocks, their keys with the one between them and
their children are in sequence what they were, and no byte is gained or lost
(`Index.rotate_conserves`). Blocks of keys and children stay such blocks (`Index.rotate_ofParts`).

Key definition: `Index.Reads`.
Key theorems: `Index.rotate_ofParts`, `Index.rotate_conserves`.
-/
import PagedMap.Proofs.Block.Rotate
import PagedMap.Proofs.Codec.Kinds

namespace PagedMap.Index

open Block (mass)
open Rotated

variable {κ : Type} {K : OrderedCodec κ} {b : Index K} {r : Rotated K}

/-! ### Blocks of keys and children -/

section Parts

variable {capacity room : Nat} {ks ls : List κ} {cs ds : List BlockNumber}

theorem zip_parts {α β : Type} : ∀ (ps : List (α × β)) (y : β),
    (ps.map Prod.fst).zip (ps.map Prod.snd ++ [y]) = ps
  | [], _ => rfl
  | p :: ps, y => by
    rw [List.map_cons, List.map_cons, List.cons_append, List.zip_cons_cons, zip_parts ps y]

theorem map_snd_zip_concat (hcs : cs.length = ks.length + 1) :
    (ks.zip cs).map Prod.snd ++ [cs.getLastD noBlock] = cs := by
  obtain rfl | ⟨before, c, rfl⟩ := List.eq_nil_or_concat' cs
  · cases hcs
  · have hlen : before.length = ks.length := by simpa using hcs
    rw [← List.append_nil ks, List.zip_append hlen.symm, List.zip_nil_left, List.append_nil,
      List.map_snd_zip (Nat.le_of_eq hlen), List.getLastD_concat]

theorem joined_ofParts (k : κ) (moved : Nat) (hcs : cs.length = ks.length + 1) :
    joined ⟨ofParts K capacity ks cs, ofParts K capacity ls ds, K.bytes k, moved⟩ =
      ((ks ++ k :: ls).zip (cs ++ ds)).map (Block.record K word32.toCodec) := by
  rw [zip_join k ls ds hcs, List.map_append, List.map_cons]
  rfl

/-- The blocks that a border in the list of keys and children makes. -/
theorem exists_border (hcs : cs.length = ks.length + 1)
    (hjoined : r.joined = (ks.zip cs).map (Block.record K word32.toCodec))
    (hlast : r.upper.last = cs.getLastD noBlock) :
    ∃ as k bs ms ns, as ++ k :: bs = ks ∧ ms ++ ns = cs ∧ ms.length = as.length + 1 ∧
      ns.length = bs.length + 1 ∧ as.length = r.lower.length ∧
      r = ⟨ofParts K r.lower.capacity as ms, ofParts K r.upper.capacity bs ns, K.bytes k,
        r.moved⟩ := by
  obtain ⟨⟨capacity, es, c⟩, ⟨capacity', fs, d⟩, key, moved⟩ := r
  obtain ⟨ps, qs, hzip, rfl, hqs⟩ := List.map_eq_append_iff.1 hjoined.symm
  obtain ⟨q, qs, rfl, hq, rfl⟩ := List.map_eq_cons_iff.1 hqs
  obtain ⟨rfl, rfl⟩ : K.bytes q.1 = key ∧ q.2 = c := separatorEntry_inj hq
  obtain rfl : d = cs.getLastD noBlock := hlast
  have hkeys := congrArg (List.map Prod.fst) hzip
  have hchildren := map_snd_zip_concat hcs
  rw [map_fst_zip hcs, List.map_append, List.map_cons] at hkeys
  rw [hzip, List.map_append, List.map_cons] at hchildren
  refine ⟨ps.map Prod.fst, q.1, qs.map Prod.fst, ps.map Prod.snd ++ [q.2],
    qs.map Prod.snd ++ [cs.getLastD noBlock], hkeys.symm, ?_, by simp, by simp,
    by simp [Block.length], ?_⟩
  · refine Eq.trans ?_ hchildren
    simp only [List.append_assoc, List.cons_append, List.nil_append]
  · rw [ofParts, ofParts, zip_parts, zip_parts, List.getLastD_concat, List.getLastD_concat]
    rfl

variable [LinearOrder κ] [K.Lawful] {k : κ}

theorem wellFormed_ofParts (hw : ∀ a ∈ ks, K.Writes a) : (ofParts K capacity ks cs).WellFormed := by
  rw [WellFormed, ofParts, Block.entries_ofItems, List.forall_mem_map]
  exact fun i hi => ⟨K.bytes i.1, i.2, isKey_bytes (hw _ (List.of_mem_zip hi).1), rfl⟩

/-- Two blocks are evened out through the key between them until they are
poised; the keys and the children stay what they were. -/
theorem rotate_ofParts (hroom : capacity = 8 + room) (hcs : cs.length = ks.length + 1)
    (hds : ds.length = ls.length + 1) (hw : ∀ a ∈ ks ++ k :: ls, K.Writes a)
    (hks : weight K ks ≤ room) (hls : weight K ls ≤ room) :
    ∃ ks' k' ls' cs' ds' n, ks' ++ k' :: ls' = ks ++ k :: ls ∧ cs' ++ ds' = cs ++ ds ∧
      cs'.length = ks'.length + 1 ∧ ds'.length = ls'.length + 1 ∧
      rotate (ofParts K capacity ks cs) (ofParts K capacity ls ds) (K.bytes k) =
        .ok ⟨ofParts K capacity ks' cs', ofParts K capacity ls' ds', K.bytes k', n⟩ ∧
      weight K ks' ≤ room ∧ weight K ls' ≤ room ∧
      Poised room (weight K ks') (K.width k' + 4) (weight K ls') ∧
      (n = 0 → ks' = ks ∧ k' = k ∧ ls' = ls ∧ cs' = cs ∧ ds' = ds) := by
  rw [List.forall_mem_append, List.forall_mem_cons] at hw
  have hs : Separated ⟨ofParts K capacity ks cs, ofParts K capacity ls ds, K.bytes k, 0⟩ :=
    separated_iff.2 ⟨wellFormed_ofParts hw.1, isKey_bytes hw.2.1, wellFormed_ofParts hw.2.2⟩
  obtain ⟨r, hrun, lowers, hsettles⟩ := rotate_settled hs
  obtain ⟨hkeeps, hs', -, hsame⟩ := hsettles.keeps hs
  have hlast : (ofParts K capacity ls ds).last = (cs ++ ds).getLastD noBlock := by
    obtain ⟨d, ds, rfl⟩ := List.exists_cons_of_length_eq_add_one hds
    rw [getLastD_append_cons, last_ofParts]
  obtain ⟨as, a, bs, ms, ns, hkeys, hchildren, hms, hns, hlength, heq⟩ := exists_border
    (by simp only [List.length_append, List.length_cons]; omega)
    (hkeeps.joined_eq.trans (joined_ofParts k 0 hcs)) (hkeeps.last_eq.trans hlast)
  have hlower : r.lower.capacity = capacity := hkeeps.lower_capacity
  have hupper : r.upper.capacity = capacity := hkeeps.upper_capacity
  have hpoised := poised_of_stopped hs' hsettles.stopped hroom hlower hupper
  have hlower_le := hkeeps.lower_le (by
    rw [occupied_ofParts hcs, capacity_ofParts]
    omega)
  have hupper_le := hkeeps.upper_le (by
    rw [occupied_ofParts hds, capacity_ofParts]
    omega)
  rw [heq, hlower, hupper] at hpoised hlower_le hupper_le hrun
  rw [entryBytes_ofParts hms, entryBytes_ofParts hns] at hpoised
  rw [occupied_ofParts hms, capacity_ofParts] at hlower_le
  rw [occupied_ofParts hns, capacity_ofParts] at hupper_le
  refine ⟨as, a, bs, ms, ns, r.moved, hkeys, hchildren, hms, hns, hrun, by omega, by omega, hpoised,
    fun hzero => ?_⟩
  -- nothing has rotated, and the border is where it was
  rw [hsame hzero, length_ofParts hcs] at hlength
  obtain ⟨rfl, hrest⟩ := List.append_inj hkeys hlength
  obtain ⟨rfl, rfl⟩ := List.cons.inj hrest
  obtain ⟨rfl, rfl⟩ := List.append_inj hchildren (hms.trans hcs.symm)
  exact ⟨rfl, rfl, rfl, rfl, rfl⟩

end Parts

/-! ### Keys and children in sequence -/

/-- The block consists of separators, and is read as these keys and these children. -/
structure Reads (b : Index K) (ks : List Bytes) (cs : List BlockNumber) : Prop where
  wellFormed : b.WellFormed
  keys_eq : b.keys = .ok ks
  children_eq : children b = .ok cs

theorem exists_mapM : ∀ {es : List Bytes}, (∀ e ∈ es, IsSeparator K e) →
    ∃ ks cs, es.mapM (Block.keyOf K) = .ok ks ∧
      es.mapM (Block.readPayload K word32.toCodec) = .ok cs
  | [], _ => ⟨[], [], rfl, rfl⟩
  | e :: es, h => by
    obtain ⟨k, c, hk, rfl⟩ := h e (List.mem_cons_self ..)
    obtain ⟨ks, cs, hks, hcs⟩ := exists_mapM fun f hf => h f (List.mem_cons_of_mem _ hf)
    refine ⟨k :: ks, c :: cs, ?_, ?_⟩
    · rw [List.mapM_cons, hk c, hks]
      rfl
    · rw [List.mapM_cons, hk.readPayload c, hcs]
      rfl

theorem WellFormed.exists_reads (h : b.WellFormed) : ∃ ks cs, b.Reads ks cs := by
  obtain ⟨ks, cs, hks, hcs⟩ := exists_mapM h
  refine ⟨ks, cs ++ [b.last], h, hks, ?_⟩
  rw [children, hcs]
  rfl

theorem reads_ofParts [LinearOrder κ] [K.Lawful] {capacity : Nat} {ks : List κ}
    {cs : List BlockNumber} (hcs : cs.length = ks.length + 1) (hw : ∀ k ∈ ks, K.Writes k) :
    (ofParts K capacity ks cs).Reads (ks.map K.bytes) cs :=
  ⟨wellFormed_ofParts hw, keys_ofParts hcs hw, children_ofParts hcs hw⟩

/-- The keys and the children of both blocks in sequence are those of all entries. -/
theorem mapM_joined {ks ls : List Bytes} {cs ds : List BlockNumber} (hs : r.Separated)
    (hlower : r.lower.Reads ks cs) (hupper : r.upper.Reads ls ds) :
    r.joined.mapM (Block.keyOf K) = .ok (ks ++ r.key :: ls) ∧
      ∃ ms, r.joined.mapM (Block.readPayload K word32.toCodec) = .ok ms ∧
        cs ++ ds = ms ++ [r.upper.last] := by
  have hkey := (separated_iff.1 hs).2.1
  obtain ⟨before, hbefore, hcs⟩ := exists_of_bind_eq_ok hlower.children_eq
  obtain ⟨behind, hbehind, hds⟩ := exists_of_bind_eq_ok hupper.children_eq
  have hks := hlower.keys_eq
  have hls := hupper.keys_eq
  rw [Block.keys] at hks hls
  constructor
  · rw [joined, List.mapM_append, List.mapM_cons, hks, hls, hkey]
    rfl
  · refine ⟨before ++ r.lower.last :: behind, ?_, ?_⟩
    · rw [joined, List.mapM_append, List.mapM_cons, hbefore, hbehind, hkey.readPayload]
      rfl
    · rw [← Except.ok.inj hcs, ← Except.ok.inj hds]
      simp

theorem isEmpty_of_pos (h : 0 < b.entryBytes) : b.isEmpty = false := by
  cases hentries : b.entries with
  | nil =>
    rw [Block.entryBytes, hentries] at h
    cases h
  | cons e es =>
    rw [Block.isEmpty, hentries]
    rfl

/-- **Rotating moves the border between the separators of two blocks**, all in one direction and
until no more can rotate; the limit is not what ends it. The keys in sequence with the one between
the blocks, and the children in sequence, stay what they were, and so does the number of bytes;
neither block becomes larger than its capacity. Of two blocks that are too large to be one, with
separators no longer than a third of the room, none is left empty. -/
theorem rotate_conserves {lower upper : Index K} {key : Bytes} {ks ls : List Bytes}
    {cs ds : List BlockNumber} (hlower : lower.Reads ks cs) (hupper : upper.Reads ls ds)
    (hkey : IsKey K key) (hlower_le : lower.occupied ≤ lower.capacity)
    (hupper_le : upper.occupied ≤ upper.capacity) :
    ∃ r, rotate lower upper key = .ok r ∧
      (∃ ks' ls' cs' ds', r.lower.Reads ks' cs' ∧ r.upper.Reads ls' ds' ∧
        ks' ++ r.key :: ls' = ks ++ key :: ls ∧ cs' ++ ds' = cs ++ ds) ∧
      r.lower.entryBytes + r.upper.entryBytes + r.key.length + 4 =
        lower.entryBytes + upper.entryBytes + key.length + 4 ∧
      (r.lower.capacity = lower.capacity ∧ r.lower.occupied ≤ lower.capacity) ∧
      (r.upper.capacity = upper.capacity ∧ r.upper.occupied ≤ upper.capacity) ∧
      (∃ lowers, Settles lowers ⟨lower, upper, key, 0⟩ r) ∧
      (∀ lowers r', Settles lowers ⟨lower, upper, key, 0⟩ r' → r' = r) ∧
      (lower.capacity = upper.capacity →
        (∀ e ∈ lower.entries ++ upper.entries, e.length ≤ (lower.capacity - 8) / 3) →
        key.length + 4 ≤ (lower.capacity - 8) / 3 →
        lower.capacity - 8 < lower.entryBytes + upper.entryBytes + key.length + 4 →
        r.lower.isEmpty = false ∧ r.upper.isEmpty = false) := by
  have hs : Separated ⟨lower, upper, key, 0⟩ :=
    separated_iff.2 ⟨hlower.wellFormed, hkey, hupper.wellFormed⟩
  obtain ⟨r, hrun, lowers, hsettles⟩ := rotate_settled hs
  obtain ⟨hkeeps, hs', -⟩ := hsettles.keeps hs
  obtain ⟨hlower', -, hupper'⟩ := separated_iff.1 hs'
  obtain ⟨ks', cs', hks'⟩ := hlower'.exists_reads
  obtain ⟨ls', ds', hls'⟩ := hupper'.exists_reads
  obtain ⟨hkeys, ms, hms, hchildren⟩ := mapM_joined hs hlower hupper
  obtain ⟨hkeys', ms', hms', hchildren'⟩ := mapM_joined hs' hks' hls'
  rw [hkeeps.joined_eq] at hkeys' hms'
  rw [hkeeps.last_eq, ← Except.ok.inj (hms.symm.trans hms'), ← hchildren] at hchildren'
  have hmass : r.lower.entryBytes + (r.key.length + 4) + r.upper.entryBytes =
      lower.entryBytes + (key.length + 4) + upper.entryBytes := by
    rw [← mass_joined, hkeeps.joined_eq]
    exact mass_joined _
  refine ⟨r, hrun, ⟨ks', ls', cs', ds', hks', hls', Except.ok.inj (hkeys'.symm.trans hkeys),
    hchildren'⟩, by omega, ⟨hkeeps.lower_capacity, hkeeps.lower_le hlower_le⟩,
    ⟨hkeeps.upper_capacity, hkeeps.upper_le hupper_le⟩, ⟨lowers, hsettles⟩,
    fun _ _ h => hsettles.unique h, fun hcapacity hentries hbetween hover => ?_⟩
  -- the separator that ends up between the blocks is one of those there were
  have hlimit : ∀ e ∈ r.joined, e.length ≤ (lower.capacity - 8) / 3 := by
    rw [List.forall_mem_append] at hentries
    rw [hkeeps.joined_eq, joined, List.forall_mem_append, List.forall_mem_cons, length_separator]
    exact ⟨hentries.1, hbetween, hentries.2⟩
  have hnew := hlimit (separatorEntry r.key r.lower.last) (by simp [joined])
  rw [length_separator] at hnew
  have hroom : lower.capacity = 8 + (lower.capacity - 8) := by
    rw [Block.occupied, Block.headerSize] at hlower_le
    omega
  have hpoised := poised_of_stopped hs' hsettles.stopped hroom hkeeps.lower_capacity
    (hkeeps.upper_capacity.trans hcapacity.symm)
  obtain ⟨hlarge, hlarge'⟩ := hpoised.large hnew (Nat.mul_div_le ..) (by omega)
  exact ⟨isEmpty_of_pos (by omega), isEmpty_of_pos (by omega)⟩

/-- A block with a short separator takes one from a block with three; the key that comes down is
shorter than the one that goes up. -/
theorem rotate_conserves_short :
    let K := KeyKind.byteString.codec
    let lower : Index K := ofParts K 44 [[]] [10, 11]
    let upper : Index K :=
      ofParts K 44 [[97, 97, 97, 97], [98], [99, 99, 99, 99]] [12, 13, 14, 15]
    ∃ r, rotate lower upper (K.bytes [96]) = .ok r ∧ r.lower.length = 2 ∧
      r.lower.entryBytes + r.upper.entryBytes + r.key.length + 4 = 50 ∧
      (∃ lowers, Settles lowers ⟨lower, upper, K.bytes [96], 0⟩ r) ∧
      r.lower.isEmpty = false ∧ r.upper.isEmpty = false := by
  intro K lower upper
  have hlower : lower.Reads ([[]].map K.bytes) [10, 11] :=
    reads_ofParts rfl (List.forall_mem_singleton.2 rfl)
  have hupper : upper.Reads ([[97, 97, 97, 97], [98], [99, 99, 99, 99]].map K.bytes)
      [12, 13, 14, 15] :=
    reads_ofParts rfl (List.forall_mem_cons.2 ⟨rfl, List.forall_mem_cons.2
      ⟨rfl, List.forall_mem_singleton.2 rfl⟩⟩)
  have hkey : IsKey K (K.bytes [96]) := isKey_bytes (by rfl)
  obtain ⟨r, hrun, -, hbytes, -, -, hsettles, -, hlarge⟩ := rotate_conserves hlower hupper hkey
    (by decide) (by decide)
  obtain ⟨hlower', hupper'⟩ := hlarge rfl (by decide) (by decide) (by decide)
  refine ⟨r, hrun, ?_, hbytes, hsettles, hlower', hupper'⟩
  obtain rfl := Except.ok.inj hrun
  decide

end PagedMap.Index
