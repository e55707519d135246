/-
# Blocks in memory are cut in two as blocks of entries are

A block in memory is cut where an entry begins, and the entries behind the cut move to the front
of a block of their own (`Packed.Lays.splitOff`). The table has the bytes below each cut, so that
the search for the best cut finds the same one as on the block of the entries, and so does the
search for the separator that moves up. So cutting a block in memory in two, or taking a separator
out between two halves, answers the same and leaves the same entries, also where the halves do not
fit (`Packed.Lays.split_result`, `PackedIndex.promote_result`).

Both halves lay out their entries (`Packed.Lays.split_lays`), and those of a block of keys and
children are blocks of the keys and the children on either side of the key that moves up
(`PackedIndex.Forks.promote_forks`).

Key definition: `Packed.result`.
Key theorems: `Packed.Lays.splitOff`, `Packed.Lays.split_result`, `Packed.Lays.split_lays`,
`PackedIndex.promote_result`, `PackedIndex.promote_ok`, `PackedIndex.Forks.promote_forks`.
-/
import PagedMap.Proofs.Block.Cut
import PagedMap.Proofs.Block.Separators

namespace PagedMap

open Block (headerSize mass record WritesItem)

namespace Packed

variable {κ π : Type} {K : OrderedCodec κ} {P : Codec π} {p : Packed K P} {es xs ys : List Bytes}

/-- What an operation answers, told by `f`, and the entries that the block has then, also if the
operation fails. -/
def result {α β : Type} (f : α → β) (act : Action (Packed K P) α) (p : Packed K P) :
    Except Error β × Block K P :=
  ((act p).1.map f, (act p).2.unpack)

/-- The search for a cut goes by the offsets as by the lengths of the entries. -/
theorem cutFrom_startsFrom (total : Nat) (es : List Bytes) (i below best bestGap : Nat) :
    cutFrom total (startsFrom (headerSize + below) es) i best bestGap =
      Block.cutFrom total es i below best bestGap := by
  induction es generalizing i below best bestGap with
  | nil => rfl
  | cons e es ih =>
    rw [startsFrom_cons, cutFrom, Block.cutFrom, Nat.add_sub_cancel_left, Nat.add_assoc]
    simp only [ih]

namespace Lays

theorem entryBytes_eq (h : p.Lays es) : p.entryBytes = mass es := by
  rw [entryBytes, h.occupied_eq, Nat.add_sub_cancel_left]

theorem isOverflowed_unpack (h : p.Lays es) : p.unpack.isOverflowed = p.isOverflowed := by
  rw [Block.isOverflowed, h.occupied_unpack, isOverflowed, unpack]

/-- Where an entry begins tells how many bytes of entries are before it. -/
theorem start_sub_headerSize (h : p.Lays es) (i : Nat) :
    p.start i - headerSize = mass (es.take i) := by
  rcases Nat.le_total i es.length with hle | hle
  · have hsplit := h
    rw [← List.take_append_drop i es] at hsplit
    have hstart := hsplit.start_eq
    rw [List.length_take_of_le hle] at hstart
    rw [hstart, Nat.add_sub_cancel_left]
  · have hout : p.start i = p.occupied := by
      have hnone : p.starts[i]? = none :=
        List.getElem?_eq_none (by rw [← length, h.length_eq]; exact hle)
      rw [start, List.getD_eq_getElem?_getD, hnone, Option.getD_none, occupied]
    rw [hout, List.take_of_length_le hle, h.occupied_eq, Nat.add_sub_cancel_left]

theorem cut_unpack (h : p.Lays es) : p.unpack.cut = p.cut := by
  rw [cut, h.start_sub_headerSize, h.entryBytes_eq, h.starts_eq, h.unpack_eq, Block.cut]
  cases es with
  | nil => rfl
  | cons e es =>
    have hfirst : mass ((e :: es).take 1) = e.length := by simp
    rw [startsFrom_cons, List.tail_cons, cutFrom_startsFrom, hfirst]
    rfl

/-- The bytes and the table are cut at the same entry. -/
theorem splitOff (h : p.Lays (xs ++ ys)) :
    (p.splitOff xs.length).1.Lays xs ∧ (p.splitOff xs.length).2.Lays ys := by
  refine ⟨h.of_data h.take_start h.take_starts, (lays_empty p.capacity).of_data ?_ ?_⟩
  · rw [Packed.splitOff, h.drop_start]
    rfl
  · have hback := map_sub_startsFrom (headerSize + mass xs) 0 ys
    have hforth := map_add_startsFrom headerSize 0 ys
    rw [Nat.zero_add] at hback hforth
    rw [Packed.splitOff, h.drop_starts, h.start_eq, ← hforth, ← hback, List.map_map]
    rfl

theorem splitOff_take_drop (h : p.Lays es) {i : Nat} (hi : i ≤ es.length) :
    (p.splitOff i).1.Lays (es.take i) ∧ (p.splitOff i).2.Lays (es.drop i) := by
  rw [← List.take_append_drop i es] at h
  have hhalves := h.splitOff
  rwa [List.length_take_of_le hi] at hhalves

theorem unpack_splitOff (h : p.Lays es) {i : Nat} (hi : i ≤ es.length) :
    p.unpack.splitAt i = ((p.splitOff i).1.unpack, (p.splitOff i).2.unpack) := by
  obtain ⟨hlower, hupper⟩ := h.splitOff_take_drop hi
  rw [hlower.unpack_eq, hupper.unpack_eq, h.unpack_eq]
  rfl

theorem cut_le (h : p.Lays es) (hlen : 2 ≤ p.length) : p.cut ≤ es.length := by
  rw [← h.length_unpack] at hlen
  have hcut := (Block.cut_spec hlen).2.1
  rw [h.cut_unpack, h.length_unpack, h.length_eq] at hcut
  exact Nat.le_of_lt hcut

/-- A block in memory is cut where the block of its entries is, with the same answer and the same
entries below the cut. -/
theorem split_result (h : p.Lays es) : result unpack split p = Block.split p.unpack := by
  simp only [result, split, bind_eq, get_eq]
  by_cases hlen : p.length < 2
  · rw [if_pos hlen, Block.split, h.length_unpack, if_pos hlen]
    rfl
  · have hlen' : 2 ≤ p.length := Nat.not_lt.1 hlen
    have hle := h.cut_le hlen'
    obtain ⟨hlower, hupper⟩ := h.splitOff_take_drop hle
    rw [if_neg hlen, Block.split_run (h.length_unpack.symm ▸ hlen'), h.cut_unpack,
      h.unpack_splitOff hle]
    simp only [bind_eq, set_eq, hlower.isOverflowed_unpack, hupper.isOverflowed_unpack]
    split
    · rfl
    · rfl

/-- The halves lay out the entries, those of the lower half first. -/
theorem split_lays {lower upper : Packed K P} (h : p.Lays es)
    (hrun : split p = (.ok upper, lower)) :
    ∃ xs ys, es = xs ++ ys ∧ lower.Lays xs ∧ upper.Lays ys := by
  simp only [split, bind_eq, get_eq] at hrun
  split at hrun
  · cases hrun
  next hlen =>
    simp only [bind_eq, set_eq] at hrun
    split at hrun
    · cases hrun
    · obtain ⟨hanswer, rfl⟩ := Prod.mk.inj hrun
      obtain rfl := Except.ok.inj hanswer
      obtain ⟨hlower, hupper⟩ := h.splitOff_take_drop (h.cut_le (Nat.not_lt.1 hlen))
      exact ⟨_, _, (List.take_append_drop ..).symm, hlower, hupper⟩

end Lays

end Packed

namespace PackedIndex

variable {κ : Type} {K : OrderedCodec κ} {p : PackedIndex K} {es : List Bytes}

/-! ### A separator moves up -/

theorem imbalance_unpack (h : p.Lays es) (i : Nat) :
    Index.imbalance p.unpack i = imbalance p i := by
  rw [imbalance, h.start_sub_headerSize, h.start_sub_headerSize, h.entryBytes_eq, h.unpack_eq]
  rfl

/-- The same separator moves up. -/
theorem promoted_unpack (h : p.Lays es) : Index.promoted p.unpack = promoted p := by
  have hbetter : Index.moreBalanced p.unpack = moreBalanced p := by
    funext i j
    rw [Index.moreBalanced, moreBalanced, imbalance_unpack h, imbalance_unpack h]
  rw [Index.promoted, promoted, hbetter, h.length_unpack]

/-- The separator that moves up stands between those that the halves keep. -/
theorem exists_promoted (h : p.Lays es) (hlen : 3 ≤ p.length) :
    ∃ xs e ys, es = xs ++ e :: ys ∧ promoted p = xs.length := by
  rw [← h.length_unpack] at hlen
  obtain ⟨-, hlast, -⟩ := Index.promoted_spec hlen
  rw [promoted_unpack h, h.length_unpack, h.length_eq] at hlast
  have hlt : promoted p < es.length := by omega
  exact ⟨es.take (promoted p), es[promoted p], es.drop (promoted p + 1),
    eq_take_append_of_getElem? (List.getElem?_eq_getElem hlt),
    (List.length_take_of_le (Nat.le_of_lt hlt)).symm⟩

/-- The block is cut behind the separator that moves up, which is then taken out of the lower
half. -/
theorem splitOff_promoted {xs ys : List Bytes} {e : Bytes} (h : p.Lays (xs ++ e :: ys)) :
    (p.splitOff (xs.length + 1)).1.Lays (xs ++ [e]) ∧ (p.splitOff (xs.length + 1)).2.Lays ys ∧
      ((p.splitOff (xs.length + 1)).1.eraseIdx xs.length).Lays xs := by
  have hjoin : p.Lays ((xs ++ [e]) ++ ys) := by simpa using h
  have hhalves := hjoin.splitOff
  rw [List.length_append, List.length_singleton] at hhalves
  have herase := hhalves.1.eraseIdx
  rw [List.append_nil] at herase
  exact ⟨hhalves.1, hhalves.2, herase⟩

/-- Whether a block fits does not depend on its pointer. -/
theorem isOverflowed_withLast (h : p.Lays es) (c : BlockNumber) :
    Block.isOverflowed ({ p.unpack with last := c } : Index K) =
      Packed.isOverflowed ({ p with last := c } : PackedIndex K) :=
  h.isOverflowed_unpack

/-- How a separator moves up, once it is known which. Its child and its key are read after the
block has been cut. -/
theorem promote_run {xs ys : List Bytes} {e : Bytes} (h : p.Lays (xs ++ e :: ys))
    (hlen : ¬ p.length < 3) (hpos : promoted p = xs.length) :
    promote p =
      match Block.readPayload K word32.toCodec e with
      | .error err => (.error err, (p.splitOff (xs.length + 1)).1)
      | .ok c =>
        match Block.keyOf K e with
        | .error err => (.error err, (p.splitOff (xs.length + 1)).1)
        | .ok key =>
          let lower : PackedIndex K :=
            { (p.splitOff (xs.length + 1)).1.eraseIdx xs.length with last := c }
          let upper : PackedIndex K := { (p.splitOff (xs.length + 1)).2 with last := p.last }
          if lower.isOverflowed || upper.isOverflowed then
            (.error (.internal .promoteTooLarge), lower)
          else (.ok (key, upper), lower) := by
  obtain ⟨hlower, -, -⟩ := splitOff_promoted h
  have hentry : (p.splitOff (xs.length + 1)).1.entry xs.length = .ok e :=
    hlower.entry_eq_iff.2 (by simp)
  simp only [promote, bind_eq, get_eq, if_neg hlen, hpos, set_eq, lift_eq, hentry]
  cases hchild : Block.readPayload K word32.toCodec e with
  | error err => rfl
  | ok c =>
    cases hkey : Block.keyOf K e with
    | error err => rfl
    | ok key =>
      simp only [Packed.removeAt_of_entry hentry]
      split
      · rfl
      · rfl

/-- Of a block in memory the same separator moves up as of the block of its entries, with the same
answer and the same entries below the cut. -/
theorem promote_result (h : p.Lays es) :
    Packed.result (fun r => (r.1, r.2.unpack)) promote p = Index.promote p.unpack := by
  by_cases hlen : p.length < 3
  · simp only [Packed.result, promote, Index.promote, bind_eq, get_eq, h.length_unpack,
      if_pos hlen]
    rfl
  obtain ⟨xs, e, ys, rfl, hpos⟩ := exists_promoted h (Nat.not_lt.1 hlen)
  obtain ⟨hlower, hupper, hrest⟩ := splitOff_promoted h
  have hle : xs.length + 1 ≤ (xs ++ e :: ys).length := by simp
  have hentry : (p.splitOff (xs.length + 1)).1.entry xs.length = .ok e :=
    hlower.entry_eq_iff.2 (by simp)
  have hremove : Block.removeAt (p.splitOff (xs.length + 1)).1.unpack xs.length =
      .ok (e, ((p.splitOff (xs.length + 1)).1.eraseIdx xs.length).unpack) := by
    rw [← hlower.removeAt_outcome, Packed.outcome, Packed.removeAt_of_entry hentry]
    rfl
  have hlast : (Packed.unpack p).last = p.last := rfl
  rw [Packed.result, promote_run h hlen hpos]
  simp only [Index.promote, bind_eq, get_eq, h.length_unpack, if_neg hlen, promoted_unpack h, hpos,
    h.unpack_splitOff hle, set_eq, lift_eq, Block.payload, Block.keyBytes, hlower.entry_unpack,
    hentry, ok_bind, hremove]
  cases hchild : Block.readPayload K word32.toCodec e with
  | error err => rfl
  | ok c =>
    cases hkey : Block.keyOf K e with
    | error err => rfl
    | ok key =>
      simp only [hlast, isOverflowed_withLast hrest, isOverflowed_withLast hupper]
      split
      · rfl
      · rfl

/-- What is left of a block of which a separator moves up. -/
theorem promote_ok {key : Bytes} {lower upper : PackedIndex K} (h : p.Lays es)
    (hrun : promote p = (.ok (key, upper), lower)) :
    ∃ xs e ys c, es = xs ++ e :: ys ∧ promoted p = xs.length ∧
      Block.readPayload K word32.toCodec e = .ok c ∧ Block.keyOf K e = .ok key ∧
      lower = { (p.splitOff (xs.length + 1)).1.eraseIdx xs.length with last := c } ∧
      upper = { (p.splitOff (xs.length + 1)).2 with last := p.last } := by
  by_cases hlen : p.length < 3
  · simp only [promote, bind_eq, get_eq, if_pos hlen] at hrun
    cases hrun
  obtain ⟨xs, e, ys, rfl, hpos⟩ := exists_promoted h (Nat.not_lt.1 hlen)
  rw [promote_run h hlen hpos] at hrun
  split at hrun
  · cases hrun
  next c hchild =>
    split at hrun
    · cases hrun
    next key' hkey =>
      dsimp only at hrun
      split at hrun
      · cases hrun
      · obtain ⟨hanswer, rfl⟩ := Prod.mk.inj hrun
        obtain ⟨rfl, rfl⟩ := Prod.mk.inj (Except.ok.inj hanswer)
        exact ⟨xs, e, ys, c, rfl, hpos, hchild, hkey, rfl, rfl⟩

/-! ### Keys and children of the halves -/

/-- The lower half keeps the bytes in front of the entries; those of the upper half are new. -/
theorem Wide.splitOff {head : Bytes} {xs ys : List Bytes} (h : p.Wide head (xs ++ ys)) :
    Wide (p.splitOff xs.length).1 head xs ∧
      Wide (p.splitOff xs.length).2 (List.replicate headerSize 0) ys := by
  obtain ⟨hlower, hupper⟩ := h.toLays.splitOff
  have hall := h.four_le
  rw [List.forall_mem_append] at hall
  exact ⟨h.of_take hlower (headerSize_le_start h.toLays) (List.append_nil _).symm hall.1,
    hupper, List.take_left' (List.length_replicate ..), hall.2⟩

theorem Wide.withLast {head : Bytes} (h : p.Wide head es) (c : BlockNumber) :
    Wide ({ p with last := c } : PackedIndex K) head es :=
  ⟨⟨h.headerSize_le, h.drop_eq, h.starts_eq⟩, h.take_eq, h.four_le⟩

variable [LinearOrder κ] [K.Lawful]

/-- **The halves of a block of keys and children are such blocks**, with the keys on either side
of the one that moves up. Its left child is the last of the lower half. -/
theorem Forks.promote_forks {capacity : Nat} {head key : Bytes} {ks : List κ}
    {cs : List BlockNumber} {lower upper : PackedIndex K} (h : p.Forks capacity head ks cs)
    (hrun : promote p = (.ok (key, upper), lower)) :
    ∃ ks₁ k ks₂ cs₁ cs₂, ks = ks₁ ++ k :: ks₂ ∧ cs = cs₁ ++ cs₂ ∧ key = K.bytes k ∧
      lower.Forks capacity head ks₁ cs₁ ∧
      upper.Forks capacity (List.replicate headerSize 0) ks₂ cs₂ := by
  obtain ⟨xs, e, ys, c, hentries, hpos, hchild, hkey, rfl, rfl⟩ := promote_ok h.wide.toLays hrun
  have hlt : xs.length < ks.length := by
    have hlength := congrArg List.length hentries
    rw [List.length_map, List.length_zip, h.length_eq, List.length_append,
      List.length_cons] at hlength
    omega
  obtain ⟨ks₁, k, ks₂, rfl, hks₁⟩ := exists_split_of_lt hlt
  have hcs : cs.length = ((ks₁ ++ [k]) ++ ks₂).length + 1 := by simpa using h.length_eq
  obtain ⟨cs₁, d, cs₂, rfl, hcs₁, hcs₂⟩ := exists_child hcs
  rw [List.length_append, List.length_singleton] at hcs₁
  have hwide := h.wide
  rw [Index.zip_join k ks₂ (d :: cs₂) hcs₁, List.map_append, List.map_cons] at hentries hwide
  have hlength : ((ks₁.zip cs₁).map (record K word32.toCodec)).length = xs.length := by
    rw [List.length_map, List.length_zip]
    omega
  obtain ⟨rfl, hrest⟩ := List.append_inj hentries hlength
  obtain ⟨rfl, rfl⟩ := List.cons.inj hrest
  have hitem : WritesItem K word32.toCodec (k, cs₁.getLastD noBlock) :=
    ⟨h.writes k (by simp), word32_writes _⟩
  obtain rfl := Except.ok.inj ((Block.readPayload_record hitem).symm.trans hchild)
  obtain rfl := Except.ok.inj ((Block.keyOf_record hitem).symm.trans hkey)
  have hw := h.writes
  rw [List.forall_mem_append, List.forall_mem_cons] at hw
  -- the separator that moves up is the last of those below the cut
  rw [List.append_cons] at hwide
  obtain ⟨hlower, hupper⟩ := hwide.splitOff
  rw [List.length_append, List.length_singleton] at hlower hupper
  have herase := hlower.eraseIdx
  rw [List.append_nil] at herase
  refine ⟨ks₁, k, ks₂, cs₁, d :: cs₂, rfl, rfl, rfl,
    ⟨herase.withLast _, h.capacity_eq, rfl, hcs₁, hw.1⟩,
    ⟨hupper.withLast _, h.capacity_eq, ?_, congrArg (· + 1) hcs₂, hw.2.2⟩⟩
  exact h.last_eq.trans (Index.getLastD_append_cons cs₁ d cs₂)

end PackedIndex

end PagedMap
