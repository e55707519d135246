/-
# Separators are put in and taken out

The child after the last separator is not in the entries but the pointer of the block, so that an
edit at the last position changes the one and an edit elsewhere the other. On the keys and the
children, however, both are the same edit of a list (`PackedIndex.forks_edited`): a separator
that is put in stands where its key belongs, with the new child behind the one it splits, and if
it is taken out again all bytes, the table and the pointer are as before.

The entries of an index block have room for a child (`PackedIndex.Wide`). As long as they do, an
edit of the bytes ends as the edit of the block of the entries does (`PackedIndex.Follows`), and
the eight bytes in front of the entries, which are filled in when the block is written, stay as
they are. So what holds of edits of the block of keys and children holds of the bytes.

Key definitions: `PackedIndex.Wide`, `PackedIndex.Follows`, `PackedIndex.Forks`,
`PackedIndex.Edited`.
Key theorems: `PackedIndex.lays_overwrite`, `PackedIndex.insertSeparator_follows`,
`PackedIndex.removeSeparator_follows`, `PackedIndex.Forks.insert_run`,
`PackedIndex.forks_edited`.
-/
import PagedMap.Block.PackedIndex
import PagedMap.Proofs.Block.Parts
import PagedMap.Proofs.Block.Unpacked
import PagedMap.Proofs.Codec.Kinds

namespace PagedMap.PackedIndex

open Block (headerSize mass record WritesItem)

variable {κ α β : Type} {K : OrderedCodec κ} {p q : PackedIndex K} {head e word : Bytes}
  {es fs xs ys : List Bytes} {i : Nat}

/-! ### Lists around a position -/

theorem exists_split {es : List α} {e : α} (h : es[i]? = some e) :
    ∃ xs ys, es = xs ++ e :: ys ∧ xs.length = i :=
  ⟨es.take i, es.drop (i + 1), eq_take_append_of_getElem? h,
    List.length_take_of_le (Nat.le_of_lt (List.getElem?_eq_some_iff.1 h).1)⟩

theorem exists_split_of_lt {es : List α} (h : i < es.length) :
    ∃ xs e ys, es = xs ++ e :: ys ∧ xs.length = i := by
  obtain ⟨xs, ys, heq, hlen⟩ := exists_split (List.getElem?_eq_getElem h)
  exact ⟨xs, _, ys, heq, hlen⟩

/-! ### Entries that have room for a child -/

/-- The block lays out entries with room for a child, behind the given eight bytes. -/
structure Wide (p : PackedIndex K) (head : Bytes) (es : List Bytes) : Prop extends p.Lays es where
  take_eq : p.data.take headerSize = head
  four_le : ∀ e ∈ es, 4 ≤ e.length

/-- What keeps the first eight bytes and lays out entries with room for a child is such a block. -/
theorem Wide.of_take (h : p.Wide head es) (hq : q.Lays fs) {n : Nat} (hn : headerSize ≤ n)
    {bs : Bytes} (hdata : q.data = p.data.take n ++ bs) (hfs : ∀ e ∈ fs, 4 ≤ e.length) :
    q.Wide head fs := by
  refine ⟨hq, ?_, hfs⟩
  have hlen : headerSize ≤ (p.data.take n).length := by
    rw [List.length_take]
    exact le_min hn h.headerSize_le
  rw [hdata, List.take_append_of_le_length hlen, List.take_take, min_eq_left hn, h.take_eq]

theorem headerSize_le_start (h : p.Lays (xs ++ ys)) : headerSize ≤ p.start xs.length := by
  rw [h.start_eq]
  exact Nat.le_add_right ..

theorem Wide.insertIdx (h : p.Wide head (xs ++ ys)) (he : 4 ≤ e.length) :
    Wide (p.insertIdx xs.length e) head (xs ++ e :: ys) := by
  refine h.of_take (h.toLays.insertIdx e) (headerSize_le_start h.toLays) (List.append_assoc ..) ?_
  have hall := h.four_le
  rw [List.forall_mem_append] at hall ⊢
  exact ⟨hall.1, List.forall_mem_cons.2 ⟨he, hall.2⟩⟩

theorem Wide.insertAt (h : p.Wide head es) (hi : i ≤ es.length) (he : 4 ≤ e.length) :
    Wide (p.insertIdx i e) head (es.take i ++ e :: es.drop i) := by
  rw [← List.take_append_drop i es] at h
  have hnew := h.insertIdx he
  rwa [List.length_take_of_le hi] at hnew

theorem Wide.eraseIdx (h : p.Wide head (xs ++ e :: ys)) :
    Wide (p.eraseIdx xs.length) head (xs ++ ys) := by
  refine h.of_take h.toLays.eraseIdx (headerSize_le_start h.toLays) rfl ?_
  have hall := h.four_le
  rw [List.forall_mem_append] at hall ⊢
  exact ⟨hall.1, (List.forall_mem_cons.1 hall.2).2⟩

/-- The end of an entry is overwritten. -/
theorem lays_overwrite (h : p.Lays (xs ++ e :: ys)) (hword : word.length ≤ e.length) :
    (overwrite p (p.start (xs.length + 1)) word).Lays
      (xs ++ (e.take (e.length - word.length) ++ word) :: ys) := by
  have hnext : p.Lays ((xs ++ [e]) ++ ys) := by simpa using h
  have hbehind : p.data.drop (p.start (xs.length + 1)) = ys.flatten := by
    rw [← hnext.drop_start, List.length_append, List.length_singleton]
  have hfront : p.data.take (p.start (xs.length + 1) - word.length) =
      p.data.take headerSize ++ xs.flatten ++ e.take (e.length - word.length) := by
    rw [h.start_succ, Nat.add_sub_assoc hword, List.take_add, h.take_start, h.drop_start,
      List.flatten_cons, List.take_append_of_le_length (Nat.sub_le ..)]
  have hlen : (e.take (e.length - word.length) ++ word).length = e.length := by
    rw [List.length_append, List.length_take]
    omega
  refine h.of_data ?_ ?_
  · rw [overwrite, hfront, hbehind]
    simp
  · refine h.starts_eq.trans ?_
    rw [startsFrom_append, startsFrom_append, startsFrom_cons, startsFrom_cons, hlen]

theorem Wide.overwrite (h : p.Wide head (xs ++ e :: ys)) (hword : word.length = 4) :
    Wide (overwrite p (p.start (xs.length + 1)) word) head
      (xs ++ (e.take (e.length - word.length) ++ word) :: ys) := by
  have hall := h.four_le
  rw [List.forall_mem_append, List.forall_mem_cons] at hall
  obtain ⟨hxs, he, hys⟩ := hall
  have hstart := headerSize_le_start h.toLays
  have hsucc := h.start_succ
  refine h.of_take (lays_overwrite h.toLays (by omega))
    (n := p.start (xs.length + 1) - word.length) (by omega) (List.append_assoc ..) ?_
  rw [List.forall_mem_append, List.forall_mem_cons, List.length_append]
  exact ⟨hxs, by omega, hys⟩

/-- The entries, the bytes in front of them, the pointer and the capacity are the block. -/
theorem Wide.ext (h : p.Wide head es) (h' : q.Wide head fs) (heq : p.unpack = q.unpack) :
    p = q := by
  rw [h.unpack_eq, h'.unpack_eq, Block.mk.injEq] at heq
  obtain ⟨hcapacity, rfl, hlast⟩ := heq
  have hdata : p.data = q.data := by
    rw [← List.take_append_drop headerSize p.data, ← List.take_append_drop headerSize q.data,
      h.take_eq, h'.take_eq, h.drop_eq, h'.drop_eq]
  have hstarts : p.starts = q.starts := h.starts_eq.trans h'.starts_eq.symm
  obtain ⟨capacity, data, starts, last⟩ := p
  obtain ⟨capacity', data', starts', last'⟩ := q
  obtain rfl : capacity = capacity' := hcapacity
  obtain rfl : data = data' := hdata
  obtain rfl : starts = starts' := hstarts
  obtain rfl : last = last' := hlast
  rfl

/-! ### The same as on blocks of entries -/

/-- Run from `p`, the action ends as is said of the block of entries, and the entries go on to
have room for a child. -/
def Follows (act : Action (PackedIndex K) α) (p : PackedIndex K) (head : Bytes)
    (res : Except Error (α × Index K)) : Prop :=
  Ends act p (fun e q => res = .error e ∧ ∃ es, q.Wide head es)
    fun a q => res = .ok (a, q.unpack) ∧ ∃ es, q.Wide head es

theorem follows_of_outcome {act : Action (PackedIndex K) α} {res : Except Error (α × Index K)}
    (hout : Packed.outcome act p = res) (hwide : ∃ es, (act p).2.Wide head es) :
    Follows act p head res := by
  rw [Follows, Ends]
  cases hrun : act p with
  | mk r q =>
    rw [Packed.outcome, hrun] at hout
    rw [hrun] at hwide
    cases r <;> exact ⟨hout.symm, hwide⟩

/-- The second action goes on as is said of the block that the first has left. -/
theorem Follows.bind {act : Action (PackedIndex K) β} {f : β → Action (PackedIndex K) α}
    {res : Except Error (β × Index K)} {g : β → Index K → Except Error (α × Index K)}
    (h : Follows act p head res)
    (hf : ∀ b q es, q.Wide head es → Follows (f b) q head (g b q.unpack)) :
    Follows (act >>= f) p head (res >>= fun r => g r.1 r.2) := by
  refine Ends.bind (h.imp_error ?_) ?_
  · rintro e q ⟨rfl, hq⟩
    exact ⟨rfl, hq⟩
  · rintro b q ⟨rfl, es, hq⟩
    exact hf b q es hq

theorem Follows.bind_unit {act : Action (PackedIndex K) Unit} {f : Unit → Action (PackedIndex K) α}
    {res : Except Error (Index K)} {g : Index K → Except Error (α × Index K)}
    (h : Follows act p head (res.map fun b => ((), b)))
    (hf : ∀ q es, q.Wide head es → Follows (f ()) q head (g q.unpack)) :
    Follows (act >>= f) p head (res >>= g) := by
  have hbind := h.bind (g := fun _ b => g b) fun _ => hf
  cases res <;> exact hbind

theorem follows_pure (h : p.Wide head es) (a : α) :
    Follows (pure a : Action (PackedIndex K) α) p head (.ok (a, p.unpack)) :=
  ends_pure ⟨rfl, es, h⟩

theorem follows_compute {x : Except Error β} {f : β → Action (PackedIndex K) α}
    {res : β → Except Error (α × Index K)} (h : p.Wide head es)
    (hf : ∀ b, Follows (f b) p head (res b)) : Follows (liftM x >>= f) p head (x >>= res) := by
  cases x with
  | ok b => exact hf b
  | error e => exact ⟨rfl, es, h⟩

theorem Follows.outcome_eq {act : Action (PackedIndex K) α} {res : Except Error (α × Index K)}
    (h : Follows act p head res) : Packed.outcome act p = res := by
  rw [Follows, Ends] at h
  rw [Packed.outcome]
  split at h <;> next hrun =>
    rw [hrun]
    exact h.1.symm

theorem Follows.exists_ok {act : Action (PackedIndex K) α} {a : α} {b : Index K}
    (h : Follows act p head (.ok (a, b))) :
    ∃ q, act p = (.ok a, q) ∧ q.unpack = b ∧ ∃ es, q.Wide head es := by
  rw [Follows, Ends] at h
  split at h
  · next a' q hrun =>
    obtain ⟨rfl, rfl⟩ := Prod.mk.inj (Except.ok.inj h.1)
    exact ⟨q, hrun, rfl, h.2⟩
  · next hrun => cases h.1

theorem four_le_separatorEntry (key : Bytes) (left : BlockNumber) :
    4 ≤ (Index.separatorEntry key left).length := by
  rw [Index.separatorEntry, List.length_append, Bytes.length_ofWord]
  exact Nat.le_add_left ..

section Primitives

variable (h : p.Wide head es)
include h

theorem child_unpack (i : Nat) : child p i = Index.child p.unpack i := by
  rw [child, Index.child, h.length_unpack, Block.payload, h.entry_unpack]
  rfl

theorem key_unpack (i : Nat) : key p i = p.unpack.key i := by
  rw [key, Block.key, h.entry_unpack]

theorem insertOverfull_follows (he : 4 ≤ e.length) :
    Follows (Packed.insertOverfull e) p head (p.unpack.insertOverfull e) := by
  refine follows_of_outcome (h.insertOverfull_outcome e) ?_
  simp only [Packed.insertOverfull, bind_eq, get_eq, lift_eq]
  cases hcut : Block.cutEntry K e with
  | error err => exact ⟨es, h⟩
  | ok r =>
    cases hsearch : p.unpack.searchBytes r.1 with
    | error err =>
      simp only [hsearch]
      exact ⟨es, h⟩
    | ok place =>
      simp only [hsearch]
      cases place with
      | found i => exact ⟨es, h⟩
      | absent i =>
        have hle : i ≤ es.length := by
          have hin := Block.index_le_of_searchBetween (Nat.zero_le _) hsearch
          rw [h.unpack_eq] at hin
          exact hin
        exact ⟨_, h.insertAt hle he⟩

/-- An entry is taken out, and at its index another one can be put in. -/
theorem removeAt_ends (i : Nat) : Ends (Packed.removeAt i) p
    (fun err q => p.unpack.removeAt i = .error err ∧ ∃ fs, Wide q head fs)
    fun a q => p.unpack.removeAt i = .ok (a, q.unpack) ∧ ∃ fs, Wide q head fs ∧ i ≤ fs.length := by
  rw [← h.removeAt_outcome]
  cases hentry : p.entry i with
  | error err =>
    have hrun : Packed.removeAt i p = (.error err, p) := by
      simp only [Packed.removeAt, bind_eq, get_eq, lift_eq, hentry]
    rw [Ends, Packed.outcome, hrun]
    exact ⟨rfl, es, h⟩
  | ok e =>
    obtain ⟨xs, ys, rfl, rfl⟩ := exists_split (h.entry_eq_iff.1 hentry)
    rw [Ends, Packed.outcome, Packed.removeAt_of_entry hentry]
    exact ⟨rfl, _, h.eraseIdx, by rw [List.length_append]; exact Nat.le_add_right ..⟩

theorem removeAt_follows (i : Nat) : Follows (Packed.removeAt i) p head (p.unpack.removeAt i) :=
  (removeAt_ends h i).imp fun _ _ ⟨hres, fs, hq, _⟩ => ⟨hres, fs, hq⟩

theorem setChild_follows (i : Nat) (c : BlockNumber) :
    Follows (setChild i c) p head ((Index.setChild p.unpack i c).map fun b => ((), b)) := by
  refine ends_bind_get ?_
  by_cases hlt : i < p.length
  · -- the child is at the end of an entry
    rw [if_pos hlt]
    rw [h.length_eq] at hlt
    obtain ⟨xs, ys, heq, rfl⟩ := exists_split (List.getElem?_eq_getElem hlt)
    have hroom := h.four_le _ (List.getElem_mem hlt)
    rw [heq] at h
    have hnew := h.overwrite (Bytes.length_ofWord c)
    rw [h.unpack_eq, Index.setChild_entries rfl hroom]
    exact ⟨by rw [hnew.unpack_eq]; rfl, _, hnew⟩
  · rw [if_neg hlt, Index.setChild, h.length_unpack, if_neg hlt]
    by_cases heq : i = p.length
    · -- the child is the pointer, and the bytes stay as they are
      rw [if_pos heq, if_pos heq]
      exact ⟨rfl, es, ⟨h.headerSize_le, h.drop_eq, h.starts_eq⟩, h.take_eq, h.four_le⟩
    · rw [if_neg heq, if_neg heq]
      exact ⟨rfl, es, h⟩

/-! ### Separators -/

theorem insertSeparator_follows (key : Bytes) (left right : BlockNumber) :
    Follows (insertSeparator key left right) p head
      (Index.insertSeparator p.unpack key left right) :=
  (insertOverfull_follows h (four_le_separatorEntry key left)).bind
    (g := fun i b => Index.setChild b (i + 1) right >>= fun b => .ok (i, b)) fun i _ _ hq =>
      (setChild_follows hq (i + 1) right).bind_unit fun _ _ hq' => follows_pure hq' i

theorem removeSeparator_follows (i : Nat) :
    Follows (removeSeparator i) p head (Index.removeSeparator p.unpack i) := by
  refine ends_bind_get ?_
  rw [Index.removeSeparator, child_unpack h, child_unpack h]
  refine follows_compute h fun left => follows_compute h fun right => ?_
  exact (removeAt_follows h i).bind
    (g := fun _ b => Index.setChild b i left >>= fun b => .ok (right, b)) fun _ _ _ hq =>
      (setChild_follows hq i left).bind_unit fun _ _ hq' => follows_pure hq' right

theorem replaceSeparator_follows (i : Nat) (key : Bytes) :
    Follows (replaceSeparator i key) p head
      ((Index.replaceSeparator p.unpack i key).map fun b => ((), b)) := by
  have hres : (Index.replaceSeparator p.unpack i key).map (fun b => ((), b)) =
      Index.child p.unpack i >>= fun left => p.unpack.removeAt i >>= fun r =>
        .ok ((), r.2.insertIdx i (Index.separatorEntry key left)) := by
    rw [Index.replaceSeparator]
    cases Index.child p.unpack i with
    | error err => rfl
    | ok left => cases p.unpack.removeAt i <;> rfl
  refine ends_bind_get ?_
  rw [hres, child_unpack h]
  refine follows_compute h fun left => ?_
  refine Ends.bind ((removeAt_ends h i).imp_error ?_) ?_
  · rintro err q ⟨hremove, hq⟩
    exact ⟨by rw [hremove]; rfl, hq⟩
  · rintro e q ⟨hremove, fs, hq, hle⟩
    refine ends_modify ⟨?_, _, hq.insertAt hle (four_le_separatorEntry key left)⟩
    rw [hremove, hq.unpack_insertIdx hle]
    rfl

end Primitives

/-! ### Keys and children -/

variable {capacity n : Nat} {ks : List κ} {cs : List BlockNumber} {k : κ} {c : BlockNumber}

/-- The block in memory of keys and one child more. -/
structure Forks (p : PackedIndex K) (capacity : Nat) (head : Bytes) (ks : List κ)
    (cs : List BlockNumber) : Prop where
  wide : p.Wide head ((ks.zip cs).map (record K word32.toCodec))
  capacity_eq : p.capacity = capacity
  last_eq : p.last = cs.getLastD noBlock
  length_eq : cs.length = ks.length + 1
  writes : ∀ k ∈ ks, K.Writes k

namespace Forks

theorem unpack_eq (h : p.Forks capacity head ks cs) :
    p.unpack = Index.ofParts K capacity ks cs := by
  rw [h.wide.unpack_eq, h.capacity_eq, h.last_eq]
  rfl

theorem of_unpack (hq : q.Wide head fs) (hunpack : q.unpack = Index.ofParts K capacity ks cs)
    (hlen : cs.length = ks.length + 1) (hw : ∀ k ∈ ks, K.Writes k) :
    q.Forks capacity head ks cs := by
  have hblock := hq.unpack_eq.symm.trans hunpack
  rw [Index.ofParts, Block.ofItems, Block.mk.injEq] at hblock
  obtain ⟨hcapacity, rfl, hlast⟩ := hblock
  exact ⟨hq, hcapacity, hlast, hlen, hw⟩

/-- The keys and the children are the block. -/
theorem ext (h : p.Forks capacity head ks cs) (h' : q.Forks capacity head ks cs) : p = q :=
  h.wide.ext h'.wide (h.unpack_eq.trans h'.unpack_eq.symm)

end Forks

theorem Follows.forks {act : Action (PackedIndex K) α} {a : α}
    (h : Follows act p head (.ok (a, Index.ofParts K capacity ks cs)))
    (hlen : cs.length = ks.length + 1) (hw : ∀ k ∈ ks, K.Writes k) :
    ∃ q, act p = (.ok a, q) ∧ q.Forks capacity head ks cs := by
  obtain ⟨q, hrun, hunpack, fs, hq⟩ := h.exists_ok
  exact ⟨q, hrun, .of_unpack hq hunpack hlen hw⟩

/-- The child between two lists of keys. -/
theorem exists_child {as bs : List κ} (h : cs.length = (as ++ bs).length + 1) :
    ∃ ds c es, cs = ds ++ c :: es ∧ ds.length = as.length ∧ es.length = bs.length := by
  have hlt : as.length < cs.length := by
    rw [h, List.length_append]
    omega
  obtain ⟨ds, c, es, rfl, hds⟩ := exists_split_of_lt hlt
  rw [List.length_append, List.length_append, List.length_cons] at h
  exact ⟨ds, c, es, rfl, hds, by omega⟩

/-- The children on both sides of a key. -/
theorem exists_children {as bs : List κ} (h : cs.length = (as ++ k :: bs).length + 1) :
    ∃ ds c c' es, cs = ds ++ c :: c' :: es ∧ ds.length = as.length ∧ es.length = bs.length := by
  obtain ⟨ds, c, es, rfl, hds, hes⟩ := exists_child h
  cases es with
  | nil => cases hes
  | cons c' es => exact ⟨ds, c, c', es, rfl, hds, Nat.succ.inj hes⟩

namespace Forks

/-- The child at a position is replaced. -/
theorem setChild_run (h : p.Forks capacity head ks cs) (hn : n ≤ ks.length) (c : BlockNumber) :
    ∃ q, setChild n c p = (.ok (), q) ∧ q.Forks capacity head ks (cs.set n c) := by
  obtain ⟨as, bs, rfl, rfl⟩ : ∃ as bs, ks = as ++ bs ∧ as.length = n :=
    ⟨ks.take n, ks.drop n, (List.take_append_drop n ks).symm, List.length_take_of_le hn⟩
  obtain ⟨ds, d, es, rfl, hds, hes⟩ := exists_child h.length_eq
  have hfollows := setChild_follows h.wide as.length c
  rw [h.unpack_eq, Index.setChild_ofParts hds hes] at hfollows
  have hset : (ds ++ d :: es).set as.length c = ds ++ c :: es := by simp [← hds]
  rw [hset]
  exact hfollows.forks (by simpa using h.length_eq) h.writes

variable [LinearOrder κ] [K.Lawful]

theorem child_eq (h : p.Forks capacity head ks cs) (hc : cs[n]? = some c) :
    child p n = .ok c := by
  rw [child_unpack h.wide, h.unpack_eq]
  exact Index.child_ofParts h.length_eq h.writes hc

/-- The key of a separator is replaced. -/
theorem replace_run (h : p.Forks capacity head ks cs) (hn : n < ks.length) (hk : K.Writes k) :
    ∃ q, replaceSeparator n (K.bytes k) p = (.ok (), q) ∧
      q.Forks capacity head (ks.set n k) cs := by
  obtain ⟨as, a, bs, rfl, rfl⟩ := exists_split_of_lt hn
  obtain ⟨ds, c, c', es, rfl, hds, hes⟩ := exists_children h.length_eq
  have hfollows := replaceSeparator_follows h.wide as.length (K.bytes k)
  rw [h.unpack_eq, Index.replaceSeparator_ofParts hds hes h.writes] at hfollows
  have hset : (as ++ a :: bs).set as.length k = as ++ k :: bs := by simp
  have hw := h.writes
  rw [List.forall_mem_append, List.forall_mem_cons] at hw
  rw [hset]
  refine hfollows.forks (by simpa using h.length_eq) ?_
  rw [List.forall_mem_append, List.forall_mem_cons]
  exact ⟨hw.1, hk, hw.2.2⟩

/-- A separator is taken out with the child behind it. -/
theorem remove_run (h : p.Forks capacity head ks cs) (hn : n < ks.length) :
    ∃ right q, cs[n + 1]? = some right ∧ removeSeparator n p = (.ok right, q) ∧
      q.Forks capacity head (ks.eraseIdx n) (cs.eraseIdx (n + 1)) := by
  obtain ⟨as, a, bs, rfl, rfl⟩ := exists_split_of_lt hn
  obtain ⟨ds, c, c', es, rfl, hds, hes⟩ := exists_children h.length_eq
  have hfollows := removeSeparator_follows h.wide as.length
  rw [h.unpack_eq, Index.removeSeparator_ofParts hds hes h.writes] at hfollows
  have hkeys : (as ++ a :: bs).eraseIdx as.length = as ++ bs :=
    Block.eraseIdx_length_append as bs a
  have hchildren : (ds ++ c :: c' :: es).eraseIdx (as.length + 1) = ds ++ c :: es := by
    have htaken := Block.eraseIdx_length_append (ds ++ [c]) es c'
    rwa [List.length_append, List.length_singleton, hds, List.append_assoc,
      List.append_assoc] at htaken
  have hw := h.writes
  rw [List.forall_mem_append, List.forall_mem_cons] at hw
  rw [hkeys, hchildren]
  obtain ⟨q, hrun, hq⟩ := hfollows.forks (by simp [hds, hes]; omega)
    (List.forall_mem_append.2 ⟨hw.1, hw.2.2⟩)
  exact ⟨c', q, by simp [← hds], hrun, hq⟩

/-- A separator is put in behind the smaller keys, and a child behind the one it splits. -/
theorem insert_run (h : p.Forks capacity head ks cs) (hs : ks.Pairwise (· < ·)) (hk : K.Writes k)
    (hnew : k ∉ ks) (right : BlockNumber) :
    let n := ks.countP (· < k)
    ∃ left q, cs[n]? = some left ∧
      insertSeparator (K.bytes k) left right p = (.ok n, q) ∧
      q.Forks capacity head (ks.insertIdx n k) (cs.insertIdx (n + 1) right) ∧
      (ks.insertIdx n k).Pairwise (· < ·) := by
  intro n
  -- what the search finds out tells the smaller keys from the larger ones
  have hsearch := h.unpack_eq ▸ Index.searchBytes_ofParts h.length_eq h.writes hs hk
  obtain ⟨-, -, as, bs, rfl, -, has, hbs⟩ := hsearch
  have hlt : ∀ a ∈ as, a < k := fun a ha =>
    lt_of_le_of_ne (has a ha) fun heq => hnew (heq ▸ List.mem_append_left bs ha)
  have hcount : n = as.length := by
    have hbelow : as.countP (· < k) = as.length :=
      List.countP_eq_length.2 fun a ha => decide_eq_true (hlt a ha)
    have habove : bs.countP (· < k) = 0 :=
      List.countP_eq_zero.2 fun b hb => by simpa using le_of_lt (hbs b hb)
    calc n = as.countP (· < k) + bs.countP (· < k) := List.countP_append
      _ = as.length := by rw [hbelow, habove, Nat.add_zero]
  obtain ⟨ds, left, es, rfl, hds, hes⟩ := exists_child h.length_eq
  have hfollows := insertSeparator_follows h.wide (K.bytes k) left right
  rw [h.unpack_eq, Index.insertSeparator_ofParts hds hes h.writes hk hs hlt hbs] at hfollows
  have hkeys : (as ++ bs).insertIdx as.length k = as ++ k :: bs :=
    Block.insertIdx_length_append as bs k
  have hchildren : (ds ++ left :: es).insertIdx (as.length + 1) right =
      ds ++ left :: right :: es := by
    have hput := Block.insertIdx_length_append (ds ++ [left]) es right
    rwa [List.length_append, List.length_singleton, hds, List.append_assoc,
      List.append_assoc] at hput
  have hw := h.writes
  rw [List.forall_mem_append] at hw
  rw [hcount, hkeys, hchildren]
  obtain ⟨q, hrun, hq⟩ := hfollows.forks (by simp [hds, hes]; omega)
    (List.forall_mem_append.2 ⟨hw.1, List.forall_mem_cons.2 ⟨hk, hw.2⟩⟩)
  obtain ⟨hlower, hupper, hcross⟩ := List.pairwise_append.1 hs
  refine ⟨left, q, by simp [← hds], hrun, hq, List.pairwise_append.2
    ⟨hlower, List.pairwise_cons.2 ⟨hbs, hupper⟩, fun a ha b hb => ?_⟩⟩
  rcases List.mem_cons.1 hb with rfl | hb
  · exact hlt a ha
  · exact hcross a ha b hb

end Forks

variable [LinearOrder κ] [K.Lawful]

/-- The block is read as these keys and children, of which there is one more. -/
structure Reads (p : PackedIndex K) (ks : List κ) (cs : List BlockNumber) : Prop where
  length_eq : p.length = ks.length
  key_eq : ∀ i k, ks[i]? = some k → key p i = .ok k
  child_eq : ∀ i c, cs[i]? = some c → child p i = .ok c
  children_eq : children p = .ok cs
  count_eq : cs.length = p.length + 1

theorem Forks.reads (h : p.Forks capacity head ks cs) : p.Reads ks cs := by
  have hlength : p.length = ks.length := by
    rw [← h.wide.length_unpack, h.unpack_eq, Index.length_ofParts h.length_eq]
  have hcount : cs.length = p.length + 1 := by rw [hlength, h.length_eq]
  refine ⟨hlength, fun i k hk => ?_, fun i c hc => h.child_eq hc, ?_, hcount⟩
  · obtain ⟨c, hc⟩ := Index.getElem?_zip_of_key h.length_eq hk
    rw [key_unpack h.wide, h.unpack_eq]
    exact Block.key_ofItems hc (Index.writesItem_zip h.writes _ (List.mem_of_getElem? hc))
  · have hall : ∀ i ∈ List.range cs.length, child p (id i) = .ok (cs.getD i noBlock) := by
      intro i hi
      refine h.child_eq ?_
      rw [List.getD_eq_getElem?_getD, id, List.getElem?_eq_getElem (List.mem_range.1 hi)]
      rfl
    have hread := mapM_map_ok hall
    have hmap : (List.range cs.length).map (cs.getD · noBlock) = cs :=
      List.ext_getElem (by simp) fun i hi hi' => by
        simp [List.getD_eq_getElem?_getD, List.getElem?_eq_getElem hi']
    rw [List.map_id, hmap, hcount] at hread
    exact hread

/-- What the edits of separators do to the block of keys and children in memory. -/
structure Edited (p : PackedIndex K) (capacity : Nat) (head : Bytes) (ks : List κ)
    (cs : List BlockNumber) : Prop where
  /-- There is one child more than keys, before and after every edit. -/
  reads : ∀ {q : PackedIndex K} {ks cs}, q.Forks capacity head ks cs → q.Reads ks cs
  /-- A separator is put in where its key belongs; taking it out again gives back the block. -/
  insert : ∀ k, K.Writes k → k ∉ ks → ∀ right, ∃ left q,
    child p (ks.countP (· < k)) = .ok left ∧
    insertSeparator (K.bytes k) left right p = (.ok (ks.countP (· < k)), q) ∧
    q.Forks capacity head (ks.insertIdx (ks.countP (· < k)) k)
      (cs.insertIdx (ks.countP (· < k) + 1) right) ∧
    (ks.insertIdx (ks.countP (· < k)) k).Pairwise (· < ·) ∧
    removeSeparator (ks.countP (· < k)) q = (.ok right, p)
  remove : ∀ n < ks.length, ∃ right q, child p (n + 1) = .ok right ∧
    removeSeparator n p = (.ok right, q) ∧
    q.Forks capacity head (ks.eraseIdx n) (cs.eraseIdx (n + 1))
  replace : ∀ n < ks.length, ∀ k, K.Writes k → ∃ q,
    replaceSeparator n (K.bytes k) p = (.ok (), q) ∧ q.Forks capacity head (ks.set n k) cs
  setChild : ∀ n ≤ ks.length, ∀ c, ∃ q,
    setChild n c p = (.ok (), q) ∧ q.Forks capacity head ks (cs.set n c)
  /-- The edits of the block of the entries end in the same way. -/
  outcomes : (∀ key left right, Packed.outcome (insertSeparator key left right) p =
      Index.insertSeparator p.unpack key left right) ∧
    (∀ n, Packed.outcome (removeSeparator n) p = Index.removeSeparator p.unpack n) ∧
    ∀ n key, Packed.outcome (replaceSeparator n key) p =
      (Index.replaceSeparator p.unpack n key).map fun b => ((), b)

/-- **The edits of separators are edits of the list of keys and the list of children**, whether
the child at the position is in an entry or is the pointer of the block. Taking out the separator
that was put in gives back the block with all its bytes. -/
theorem forks_edited (h : p.Forks capacity head ks cs) (hs : ks.Pairwise (· < ·)) :
    p.Edited capacity head ks cs where
  reads := Forks.reads
  insert k hk hnew right := by
    obtain ⟨left, q, hleft, hrun, hq, hs'⟩ := h.insert_run hs hk hnew right
    refine ⟨left, q, h.child_eq hleft, hrun, hq, hs', ?_⟩
    -- what is left has the same keys and children as before, and these are the block
    have hle : ks.countP (· < k) ≤ ks.length := List.countP_le_length
    obtain ⟨right', p', hright, hrun', hp'⟩ := hq.remove_run (n := ks.countP (· < k))
      (by rw [List.length_insertIdx_of_le_length hle]; omega)
    rw [List.getElem?_insertIdx_self, if_pos (by rw [h.length_eq]; omega)] at hright
    rw [List.eraseIdx_insertIdx_self, List.eraseIdx_insertIdx_self] at hp'
    rw [hrun', h.ext hp', Option.some.inj hright]
  remove n hn := by
    obtain ⟨right, q, hright, hrun, hq⟩ := h.remove_run hn
    exact ⟨right, q, h.child_eq hright, hrun, hq⟩
  replace n hn k hk := h.replace_run hn hk
  setChild n hn c := h.setChild_run hn c
  outcomes :=
    ⟨fun key left right => (insertSeparator_follows h.wide key left right).outcome_eq,
      fun n => (removeSeparator_follows h.wide n).outcome_eq,
      fun n key => (replaceSeparator_follows h.wide n key).outcome_eq⟩

/-- A key is put in behind a shorter one, at the last position: its right child is the pointer. -/
theorem forks_edited_last :
    let p : PackedIndex KeyKind.byteString.codec :=
      ⟨64, [9, 9, 9, 9, 9, 9, 9, 9, 0, 0, 0, 1, 0x61, 0, 0, 0, 7], [8], 4⟩
    p.Edited 64 [9, 9, 9, 9, 9, 9, 9, 9] [[0x61]] [7, 4] ∧
      ∃ q, insertSeparator [0, 0, 0, 2, 0x62, 0x63] 4 5 p = (.ok 1, q) ∧ q.last = 5 ∧
        children q = .ok [7, 4, 5] ∧ removeSeparator 1 q = (.ok 5, p) := by
  intro p
  have hp : p.Forks 64 [9, 9, 9, 9, 9, 9, 9, 9]
      ([[0x61]] : List KeyKind.byteString.Item) [7, 4] := by
    refine ⟨⟨⟨?_, rfl, rfl⟩, rfl, ?_⟩, rfl, rfl, rfl, ?_⟩
    · decide
    · decide
    · intro k hk
      obtain rfl := List.mem_singleton.1 hk
      rfl
  have hnew : ([0x62, 0x63] : KeyKind.byteString.Item) ∉ [[0x61]] :=
    fun hmem => by cases List.mem_singleton.1 hmem
  have hedited := forks_edited hp (List.pairwise_singleton _ _)
  obtain ⟨left, q, hleft, hrun, hq, -, hremove⟩ := hedited.insert [0x62, 0x63] rfl hnew 5
  obtain rfl : 4 = left := Except.ok.inj hleft
  exact ⟨hedited, q, hrun, hq.last_eq, (hedited.reads hq).children_eq, hremove⟩

end PagedMap.PackedIndex
