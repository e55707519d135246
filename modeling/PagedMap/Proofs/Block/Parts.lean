/-
# Index blocks of keys and children

An index block of `n` keys has `n + 1` children, the child `i` to the left of
the key `i`. On the keys and the children the separator edits are list edits:
putting a separator in puts the new child after the one it splits from, taking
one out takes out the child to its right.

Key definitions: `Index.ofParts`, `Index.weight`.
Key theorems: `Index.child_ofParts`, `Index.searchBytes_ofParts`,
`Index.insertSeparator_ofParts`, `Index.removeSeparator_ofParts`,
`Index.replaceSeparator_ofParts`.
-/
import Mathlib.Data.List.Basic
import PagedMap.Block.Index
import PagedMap.Proofs.Block.Search
import PagedMap.Proofs.Codec.Word

namespace PagedMap.Index

open Block (ofItems record WritesItem bytesOf)

variable {κ : Type} {K : OrderedCodec κ}

/-- The index block of keys and one child more. -/
def ofParts (K : OrderedCodec κ) (capacity : Nat) (keys : List κ) (children : List BlockNumber) :
    Index K :=
  ofItems K word32.toCodec capacity (keys.zip children) (children.getLastD noBlock)

/-- The number of bytes of the separators of keys. -/
def weight (K : OrderedCodec κ) (keys : List κ) : Nat := (keys.map fun k => K.width k + 4).sum

@[simp]
theorem weight_nil : weight K [] = 0 := rfl

@[simp]
theorem weight_cons (k : κ) (keys : List κ) :
    weight K (k :: keys) = K.width k + 4 + weight K keys := by
  simp [weight]

@[simp]
theorem weight_append (ks ls : List κ) : weight K (ks ++ ls) = weight K ks + weight K ls := by
  simp [weight]

/-- Of keys of one length fewer have no more bytes. -/
theorem weight_le_of_length_le (h : K.Uniform) {ks ls : List κ} (hle : ks.length ≤ ls.length) :
    weight K ks ≤ weight K ls := by
  obtain ⟨n, hn⟩ := h.exists_width
  simp only [weight, hn, List.map_const', List.sum_replicate_nat]
  exact Nat.mul_le_mul_right _ hle

theorem separatorEntry_eq (k : κ) (n : BlockNumber) :
    separatorEntry (K.bytes k) n = record K word32.toCodec (k, n) := rfl

theorem length_separatorEntry (k : κ) (n : BlockNumber) :
    (separatorEntry (K.bytes k) n).length = K.width k + 4 := by
  simp [separatorEntry, Codec.width]

/-! ### Keys and the children to their left -/

/-- The last child of the lower part is the one to the left of the key between
two parts. -/
theorem zip_join : ∀ {ks : List κ} {cs : List BlockNumber} (k : κ) (ls : List κ)
    (ds : List BlockNumber), cs.length = ks.length + 1 →
    (ks ++ k :: ls).zip (cs ++ ds) = ks.zip cs ++ (k, cs.getLastD noBlock) :: ls.zip ds
  | [], [c], k, ls, ds, _ => rfl
  | a :: ks, c :: d :: cs, k, ls, ds, h => by
    have ih := zip_join k ls ds (Nat.succ.inj h)
    rw [List.cons_append, List.cons_append, List.zip_cons_cons, ih, List.zip_cons_cons,
      List.cons_append]
    rfl
  | [], [], _, _, _, h => by simp at h
  | [], _ :: _ :: _, _, _, _, h => by simp at h
  | _ :: _, [], _, _, _, h => by simp at h
  | _ :: _, [_], _, _, _, h => by simp at h

theorem getLastD_append_cons (cs : List BlockNumber) (d : BlockNumber) (ds : List BlockNumber) :
    (cs ++ d :: ds).getLastD noBlock = (d :: ds).getLastD noBlock := by
  simp [List.getLastD_eq_getLast?, List.getLast?_cons]

theorem map_fst_zip {ks : List κ} {cs : List BlockNumber} (h : cs.length = ks.length + 1) :
    (ks.zip cs).map Prod.fst = ks :=
  List.map_fst_zip (by omega)

theorem bytesOf_zip : ∀ {ks : List κ} {cs : List BlockNumber}, ks.length ≤ cs.length →
    bytesOf K word32.toCodec (ks.zip cs) = weight K ks
  | [], _, _ => by simp
  | k :: ks, c :: cs, h => by
    have ih := bytesOf_zip (Nat.le_of_succ_le_succ h)
    simp [ih, Block.length_record]
  | _ :: _, [], h => by simp at h

theorem writesItem_zip {ks : List κ} {cs : List BlockNumber} (h : ∀ k ∈ ks, K.Writes k) :
    ∀ i ∈ ks.zip cs, WritesItem K word32.toCodec i :=
  fun i hi => ⟨h i.1 (List.of_mem_zip hi).1, word32_writes i.2⟩

theorem ascending_zip [LinearOrder κ] {ks : List κ} {cs : List BlockNumber}
    (hlen : cs.length = ks.length + 1) (h : ks.Pairwise (· < ·)) : Ascending (ks.zip cs) := by
  rw [Ascending, ← List.pairwise_map (f := Prod.fst) (R := (· < ·)), map_fst_zip hlen]
  exact h

section ofParts

variable {capacity : Nat} {ks : List κ} {cs : List BlockNumber}

@[simp]
theorem capacity_ofParts : (ofParts K capacity ks cs).capacity = capacity := rfl

theorem last_ofParts : (ofParts K capacity ks cs).last = cs.getLastD noBlock := rfl

theorem length_ofParts (h : cs.length = ks.length + 1) :
    (ofParts K capacity ks cs).length = ks.length := by
  rw [ofParts, Block.length_ofItems, List.length_zip]
  omega

theorem entryBytes_ofParts (h : cs.length = ks.length + 1) :
    (ofParts K capacity ks cs).entryBytes = weight K ks := by
  rw [ofParts, Block.entryBytes_ofItems, bytesOf_zip (by omega)]

theorem occupied_ofParts (h : cs.length = ks.length + 1) :
    (ofParts K capacity ks cs).occupied = 8 + weight K ks := by
  rw [Block.occupied, entryBytes_ofParts h, Block.headerSize]

theorem isEmpty_ofParts (h : cs.length = ks.length + 1) :
    (ofParts K capacity ks cs).isEmpty = ks.isEmpty := by
  cases ks with
  | nil => rfl
  | cons k ks =>
    cases cs with
    | nil => simp at h
    | cons c cs => rfl

variable [LinearOrder κ] [K.Lawful]

/-- The child at a position. -/
theorem child_ofParts {i : Nat} {c : BlockNumber} (h : cs.length = ks.length + 1)
    (hw : ∀ k ∈ ks, K.Writes k) (hc : cs[i]? = some c) :
    child (ofParts K capacity ks cs) i = .ok c := by
  obtain ⟨hi, rfl⟩ := List.getElem?_eq_some_iff.1 hc
  rw [child, length_ofParts h]
  by_cases hlt : i < ks.length
  · have hz : (ks.zip cs)[i]? = some (ks[i], cs[i]) := by
      rw [List.getElem?_zip_eq_some]
      exact ⟨List.getElem?_eq_getElem hlt, hc⟩
    rw [if_pos hlt, ofParts,
      Block.payload_ofItems hz (writesItem_zip hw _ (List.mem_of_getElem? hz))]
  · obtain rfl : i = ks.length := by omega
    rw [if_neg hlt, if_pos rfl, last_ofParts, List.getLastD_eq_getLast?, List.getLast?_eq_getElem?,
      h, Nat.add_sub_cancel, hc]
    rfl

/-- All children in order. -/
theorem children_ofParts (h : cs.length = ks.length + 1) (hw : ∀ k ∈ ks, K.Writes k) :
    children (ofParts K capacity ks cs) = .ok cs := by
  have hread : ((ks.zip cs).map (record K word32.toCodec)).mapM
      (Block.readPayload K word32.toCodec) = .ok ((ks.zip cs).map Prod.snd) :=
    mapM_map_ok fun i hi => Block.readPayload_record (writesItem_zip hw i hi)
  obtain ⟨ds, d, rfl⟩ : ∃ ds d, cs = ds ++ [d] := by
    rcases List.eq_nil_or_concat cs with rfl | ⟨ds, d, hcs⟩
    · simp at h
    · exact ⟨ds, d, by rw [hcs, List.concat_eq_append]⟩
  have hds : ds.length = ks.length := by simpa using h
  have hsnd : (ks.zip (ds ++ [d])).map Prod.snd = ds := by
    rw [← List.append_nil ks, List.zip_append hds.symm, List.zip_nil_left, List.append_nil,
      List.map_snd_zip (by omega)]
  simp only [children, ofParts, Block.entries_ofItems, Block.last_ofItems,
    hread, bind, Except.bind, pure, Except.pure, hsnd]
  simp

omit [LinearOrder κ] [K.Lawful] in
theorem getElem?_zip_of_key {i : Nat} {k : κ} (h : cs.length = ks.length + 1)
    (hk : ks[i]? = some k) : ∃ c, (ks.zip cs)[i]? = some (k, c) := by
  have hi : i < cs.length := by
    have := (List.getElem?_eq_some_iff.1 hk).1
    omega
  exact ⟨cs[i], by rw [List.getElem?_zip_eq_some]; exact ⟨hk, List.getElem?_eq_getElem hi⟩⟩

theorem keyBytes_ofParts {i : Nat} {k : κ} (h : cs.length = ks.length + 1)
    (hw : ∀ k ∈ ks, K.Writes k) (hk : ks[i]? = some k) :
    (ofParts K capacity ks cs).keyBytes i = .ok (K.bytes k) := by
  obtain ⟨c, hc⟩ := getElem?_zip_of_key h hk
  rw [ofParts, Block.keyBytes_ofItems hc (writesItem_zip hw _ (List.mem_of_getElem? hc))]

/-- All keys in order. -/
theorem keys_ofParts (h : cs.length = ks.length + 1) (hw : ∀ k ∈ ks, K.Writes k) :
    Block.keys (ofParts K capacity ks cs) = .ok (ks.map K.bytes) := by
  have hkeys := @Block.keys_ofItems _ _ K word32.toCodec _ _ (ks.zip cs) capacity
    (cs.getLastD noBlock) (writesItem_zip hw)
  have hmap : (ks.zip cs).map (fun i => K.bytes i.1) = ks.map K.bytes :=
    List.map_map.symm.trans (congrArg (List.map K.bytes) (map_fst_zip h))
  rw [hmap] at hkeys
  exact hkeys

theorem readKeys_ofParts (h : cs.length = ks.length + 1) (hw : ∀ k ∈ ks, K.Writes k) :
    (ofParts K capacity ks cs).entries.mapM (Block.readKey K) = .ok ks := by
  have hkeys : ((ks.zip cs).map (record K word32.toCodec)).mapM (Block.readKey K) =
      .ok ((ks.zip cs).map Prod.fst) :=
    mapM_map_ok fun i hi => Block.readKey_record (writesItem_zip hw i hi)
  rw [map_fst_zip h] at hkeys
  exact hkeys

/-- The search gives the child under which a key belongs: the keys before it are
not larger, those after it are. -/
theorem searchBytes_ofParts {k : κ} (h : cs.length = ks.length + 1)
    (hw : ∀ k ∈ ks, K.Writes k) (hs : ks.Pairwise (· < ·)) (hk : K.Writes k) :
    ∃ place, (ofParts K capacity ks cs).searchBytes (K.bytes k) = .ok place ∧
      ∃ as bs, ks = as ++ bs ∧ as.length = place.child ∧ (∀ a ∈ as, a ≤ k) ∧ ∀ b ∈ bs, k < b := by
  obtain ⟨place, hplace, hamong⟩ := Block.searchBytes_ofItems
    (writesItem_zip hw) hk (ascending_zip h hs)
  obtain ⟨xs, ys, heq, hlen, hxs, hys⟩ := hamong.child (ascending_zip h hs)
  refine ⟨place, hplace, xs.map Prod.fst, ys.map Prod.fst, ?_, by rw [List.length_map, hlen],
    List.forall_mem_map.2 hxs, List.forall_mem_map.2 hys⟩
  rw [← List.map_append, ← heq, map_fst_zip h]

end ofParts

/-! ### Joining parts -/

section Join

variable {capacity : Nat} {ks ls : List κ} {cs : List BlockNumber} {d : BlockNumber}
  {ds : List BlockNumber}

/-- Two parts and the key between them are the entries of the lower part, the
key with the lower part's last child, and the entries of the upper part. -/
theorem ofParts_join (k : κ) (h : cs.length = ks.length + 1) :
    ofParts K capacity (ks ++ k :: ls) (cs ++ d :: ds) =
      ofItems K word32.toCodec capacity
        (ks.zip cs ++ (k, cs.getLastD noBlock) :: ls.zip (d :: ds))
        ((d :: ds).getLastD noBlock) := by
  rw [ofParts, zip_join k ls (d :: ds) h, getLastD_append_cons]

theorem merge_ofParts (k : κ) (h : cs.length = ks.length + 1)
    (hfit : 8 + weight K (ks ++ k :: ls) ≤ capacity) (hds : (d :: ds).length = ls.length + 1) :
    Block.merge (Block.insertIdx (ofParts K capacity ks cs) (ofParts K capacity ks cs).length
        (separatorEntry (K.bytes k) (ofParts K capacity ks cs).last))
      (ofParts K capacity ls (d :: ds)) =
      .ok (ofParts K capacity (ks ++ k :: ls) (cs ++ d :: ds)) := by
  have hzip : (ks.zip cs).length = ks.length := by rw [List.length_zip]; omega
  have hput := @Block.insertIdx_ofItems _ _ K word32.toCodec capacity
    (cs.getLastD noBlock) (ks.zip cs) [] (k, cs.getLastD noBlock)
  rw [List.append_nil, hzip] at hput
  have hbytes : bytesOf K word32.toCodec (ks.zip cs ++ [(k, cs.getLastD noBlock)] ++
      ls.zip (d :: ds)) = weight K (ks ++ k :: ls) := by
    have := @bytesOf_zip _ K ks cs (by omega)
    have := @bytesOf_zip _ K ls (d :: ds) (by omega)
    simp only [Block.bytesOf_append, Block.bytesOf_cons, Block.bytesOf_nil, weight_append,
      weight_cons, Block.length_record, word32_width]
    omega
  rw [ofParts_join k h, length_ofParts h, last_ofParts, separatorEntry_eq, ofParts, hput, ofParts,
    Block.merge_ofItems, if_pos (by rw [hbytes]; exact hfit)]
  simp

end Join

/-! ### Edits of separators -/

section Edits

variable {capacity : Nat} {as bs : List κ} {cs ds : List BlockNumber}

theorem ofParts_focus (c : BlockNumber) (h : cs.length = as.length) :
    ofParts K capacity (as ++ bs) (cs ++ c :: ds) =
      ofItems K word32.toCodec capacity (as.zip cs ++ bs.zip (c :: ds))
        ((c :: ds).getLastD noBlock) := by
  rw [ofParts, List.zip_append h.symm, getLastD_append_cons]

/-- The word at the end of an entry that has room for it is replaced. -/
theorem setChild_entries {b : Index K} {xs ys : List Bytes} {e : Bytes}
    (hb : b.entries = xs ++ e :: ys) (he : 4 ≤ e.length) (c : BlockNumber) :
    setChild b xs.length c =
      .ok { b with entries := xs ++ (e.take (e.length - 4) ++ Bytes.ofWord c) :: ys } := by
  have htake : b.entries.take (xs.length + 1) = xs ++ [e] := by
    rw [hb, List.append_cons]
    exact List.take_left' List.length_append
  have hdrop : b.entries.drop (xs.length + 1) = ys := by
    rw [hb, List.append_cons]
    exact List.drop_left' List.length_append
  have hlt : xs.length < b.length := by
    rw [Block.length, hb, List.length_append, List.length_cons]
    omega
  rw [setChild, if_pos hlt, htake, hdrop, List.reverse_append, List.reverse_singleton,
    List.singleton_append, overwriteEnd, if_pos (by rwa [Bytes.length_ofWord]),
    Bytes.length_ofWord]
  simp

/-- The word at the end of a separator's entry is its child. -/
theorem take_record (k : κ) (c : BlockNumber) :
    4 ≤ (record K word32.toCodec (k, c)).length ∧
      (record K word32.toCodec (k, c)).take ((record K word32.toCodec (k, c)).length - 4) =
        K.bytes k := by
  have hlen : (record K word32.toCodec (k, c)).length = K.width k + 4 := Block.length_record (k, c)
  rw [hlen, Nat.add_sub_cancel]
  exact ⟨Nat.le_add_left .., List.take_left' rfl⟩

theorem setChild_ofItems {xs ys : List (κ × BlockNumber)} {last : BlockNumber} (k : κ)
    (c c' : BlockNumber) :
    setChild (ofItems K word32.toCodec capacity (xs ++ (k, c) :: ys) last) xs.length c' =
      .ok (ofItems K word32.toCodec capacity (xs ++ (k, c') :: ys) last) := by
  have hentries : (ofItems K word32.toCodec capacity (xs ++ (k, c) :: ys) last).entries =
      xs.map (record K word32.toCodec) ++ record K word32.toCodec (k, c) ::
        ys.map (record K word32.toCodec) := by
    rw [Block.entries_ofItems, List.map_append, List.map_cons]
  have hset := setChild_entries hentries (take_record k c).1 c'
  rw [List.length_map, (take_record k c).2] at hset
  rw [hset]
  simp only [ofItems, List.map_append, List.map_cons]
  rfl

/-- The child at a position is replaced. -/
theorem setChild_ofParts {c c' : BlockNumber} (hcs : cs.length = as.length)
    (hds : ds.length = bs.length) :
    setChild (ofParts K capacity (as ++ bs) (cs ++ c :: ds)) as.length c' =
      .ok (ofParts K capacity (as ++ bs) (cs ++ c' :: ds)) := by
  rw [ofParts_focus c hcs, ofParts_focus c' hcs]
  have hzip : (as.zip cs).length = as.length := by rw [List.length_zip]; omega
  match bs, ds, hds with
  | [], [], _ =>
    rw [setChild, Block.length_ofItems, List.zip_nil_left, List.append_nil, hzip,
      if_neg (Nat.lt_irrefl _), if_pos rfl, List.zip_nil_left, List.append_nil]
    rfl
  | b :: bs, d :: ds, _ =>
    rw [List.zip_cons_cons, List.zip_cons_cons, ← hzip, setChild_ofItems]
    simp

variable [LinearOrder κ] [K.Lawful] {k : κ} {c c' : BlockNumber}

/-- A separator is put in where its key belongs, the new child behind it. -/
theorem insertSeparator_ofParts (hcs : cs.length = as.length) (hds : ds.length = bs.length)
    (hw : ∀ a ∈ as ++ bs, K.Writes a) (hk : K.Writes k) (hs : (as ++ bs).Pairwise (· < ·))
    (has : ∀ a ∈ as, a < k) (hbs : ∀ b ∈ bs, k < b) :
    insertSeparator (ofParts K capacity (as ++ bs) (cs ++ c :: ds)) (K.bytes k) c c' =
      .ok (as.length, ofParts K capacity (as ++ k :: bs) (cs ++ c :: c' :: ds)) := by
  have hzip : (as.zip cs).length = as.length := by rw [List.length_zip]; omega
  have hlen : (cs ++ c :: ds).length = (as ++ bs).length + 1 := by simp; omega
  have hitems : (as ++ bs).zip (cs ++ c :: ds) = as.zip cs ++ bs.zip (c :: ds) :=
    List.zip_append hcs.symm
  have hput : Block.insertOverfull (ofParts K capacity (as ++ bs) (cs ++ c :: ds))
      (separatorEntry (K.bytes k) c) =
        .ok (as.length, ofParts K capacity (as ++ k :: bs) (cs ++ c :: c :: ds)) := by
    rw [ofParts_focus c hcs, ofParts_focus c hcs, List.zip_cons_cons, separatorEntry_eq,
      Block.insertOverfull_ofItems (hitems ▸ writesItem_zip hw) ⟨hk, word32_writes c⟩
        (hitems ▸ ascending_zip hlen hs) (fun x hx => has x.1 (List.of_mem_zip hx).1)
        (fun y hy => hbs y.1 (List.of_mem_zip hy).1), hzip]
    simp
  have hset := @setChild_ofParts _ K capacity (as ++ [k]) bs (cs ++ [c]) ds c c'
    (by simp [hcs]) hds
  simp only [List.append_assoc, List.singleton_append, List.length_append, List.length_singleton]
    at hset
  simp only [insertSeparator, hput, bind, Except.bind, hset, pure, Except.pure]

/-- A separator is taken out with the child behind it. -/
theorem removeSeparator_ofParts (hcs : cs.length = as.length) (hds : ds.length = bs.length)
    (hw : ∀ a ∈ as ++ k :: bs, K.Writes a) :
    removeSeparator (ofParts K capacity (as ++ k :: bs) (cs ++ c :: c' :: ds)) as.length =
      .ok (c', ofParts K capacity (as ++ bs) (cs ++ c :: ds)) := by
  have hzip : (as.zip cs).length = as.length := by rw [List.length_zip]; omega
  have hlen : (cs ++ c :: c' :: ds).length = (as ++ k :: bs).length + 1 := by simp; omega
  have hleft : child (ofParts K capacity (as ++ k :: bs) (cs ++ c :: c' :: ds)) as.length = .ok c :=
    child_ofParts hlen hw (by simp [← hcs])
  have hright : child (ofParts K capacity (as ++ k :: bs) (cs ++ c :: c' :: ds)) (as.length + 1) =
      .ok c' :=
    child_ofParts hlen hw (by simp [← hcs])
  have htake : Block.removeAt (ofParts K capacity (as ++ k :: bs) (cs ++ c :: c' :: ds)) as.length =
      .ok (record K word32.toCodec (k, c), ofParts K capacity (as ++ bs) (cs ++ c' :: ds)) := by
    rw [ofParts_focus c hcs, ofParts_focus c' hcs, List.zip_cons_cons, ← hzip,
      Block.removeAt_ofItems]
    simp
  simp only [removeSeparator, hleft, hright, htake, bind, Except.bind,
    setChild_ofParts (c := c') hcs hds, pure, Except.pure]

/-- The key of a separator is replaced. -/
theorem replaceSeparator_ofParts {k' : κ} (hcs : cs.length = as.length)
    (hds : ds.length = bs.length) (hw : ∀ a ∈ as ++ k :: bs, K.Writes a) :
    replaceSeparator (ofParts K capacity (as ++ k :: bs) (cs ++ c :: c' :: ds)) as.length
        (K.bytes k') =
      .ok (ofParts K capacity (as ++ k' :: bs) (cs ++ c :: c' :: ds)) := by
  have hzip : (as.zip cs).length = as.length := by rw [List.length_zip]; omega
  have hlen : (cs ++ c :: c' :: ds).length = (as ++ k :: bs).length + 1 := by simp; omega
  have hleft : child (ofParts K capacity (as ++ k :: bs) (cs ++ c :: c' :: ds)) as.length = .ok c :=
    child_ofParts hlen hw (by simp [← hcs])
  simp only [replaceSeparator, hleft, bind, Except.bind]
  rw [ofParts_focus c hcs, ofParts_focus c hcs, List.zip_cons_cons, List.zip_cons_cons, ← hzip,
    Block.removeAt_ofItems]
  simp only [pure, Except.pure, separatorEntry_eq, Block.insertIdx_ofItems]

end Edits

end PagedMap.Index
