/-
# Blocks in memory do what blocks of entries do

An operation on a block in memory whose table has where the entries begin ends as the operation
on the block of these entries does: with the same answer and the entries that come of it, or with
the same error (`Packed.outcome`). If it ends with an error, the block is as it was, whatever its
bytes and its table are.

Key definition: `Packed.outcome`.
Key theorems: `Packed.insert_keeps`, `Packed.delete_keeps`, `Packed.Lays.insert_outcome`,
`Packed.Lays.delete_outcome`, `Packed.Lays.merge_outcome`.
-/
import PagedMap.Proofs.Action
import PagedMap.Proofs.Block.Packed
import PagedMap.Proofs.Block.Search

namespace PagedMap

/-- A search gives an index of the part of the block that is searched, or the one after it. -/
theorem Block.index_le_of_searchBetween {κ π : Type} {K : OrderedCodec κ} {P : Codec π}
    {b : Block K P} {probe : Bytes} : ∀ {fuel lo hi : Nat} {place : Place}, lo ≤ hi →
    b.searchBetween probe fuel lo hi = .ok place → place.index ≤ hi
  | 0, lo, hi, place, hle, h => by
    rw [← Except.ok.inj h]
    exact hle
  | fuel + 1, lo, hi, place, hle, h => by
    rw [searchBetween] at h
    by_cases hlt : lo < hi
    · have hmid : lo + (hi - lo) / 2 < hi := by omega
      rw [if_pos hlt] at h
      obtain ⟨k, -, h⟩ := exists_of_bind_eq_ok h
      obtain ⟨o, -, h⟩ := exists_of_bind_eq_ok h
      cases o with
      | lt => exact index_le_of_searchBetween (by omega) h
      | gt => exact Nat.le_trans (index_le_of_searchBetween (by omega) h) (Nat.le_of_lt hmid)
      | eq =>
        rw [← Except.ok.inj h]
        exact Nat.le_of_lt hmid
    · rw [if_neg hlt] at h
      rw [← Except.ok.inj h]
      exact hle

namespace Packed

variable {κ π : Type} {K : OrderedCodec κ} {P : Codec π} {p q : Packed K P} {entry : Bytes}
  {es fs : List Bytes}

/-! ### What is refused -/

/-- An insertion that is refused leaves the block as it was. -/
theorem insertOverfull_keeps :
    Ends (insertOverfull entry) p (fun _ q => q = p) fun _ _ => True := by
  refine ends_bind_get (ends_bind_compute (fun _ => rfl) fun r =>
    ends_bind_compute (fun _ => rfl) fun place => ?_)
  cases place with
  | found i => exact ends_throw rfl
  | absent i => exact ends_bind_set (ends_pure trivial)

theorem insert_keeps : Ends (Packed.insert entry) p (fun _ q => q = p) fun _ _ => True := by
  refine ends_bind_get ?_
  by_cases hfits : p.fits entry = true
  · rw [if_pos hfits]
    exact insertOverfull_keeps
  · rw [if_neg hfits]
    exact ends_throw rfl

theorem removeAt_keeps (n : Nat) : Ends (removeAt n) p (fun _ q => q = p) fun _ _ => True :=
  ends_bind_get (ends_bind_compute (fun _ => rfl) fun _ => ends_bind_set (ends_pure trivial))

theorem delete_keeps (k : κ) : Ends (delete k) p (fun _ q => q = p) fun _ _ => True := by
  refine ends_bind_get (ends_bind_compute (fun _ => rfl) fun place => ?_)
  cases place with
  | found i => exact (removeAt_keeps i).bind fun _ _ _ => ends_pure trivial
  | absent i => exact ends_pure trivial

theorem merge_keeps (other : Packed K P) :
    Ends (merge other) p (fun _ q => q = p) fun _ _ => True := by
  refine ends_bind_get ?_
  by_cases hfits : p.canMerge other 0 = true
  · rw [if_pos hfits]
    exact trivial
  · rw [if_neg hfits]
    exact ends_throw rfl

/-! ### The entries that come of an operation -/

/-- What an operation answers, with the entries that the block has then. -/
def outcome {α : Type} (act : Action (Packed K P) α) (p : Packed K P) :
    Except Error (α × Block K P) :=
  (act p).1.map fun a => (a, (act p).2.unpack)

/-- An entry that is there is taken out. -/
theorem removeAt_of_entry {i : Nat} (h : p.entry i = .ok entry) :
    removeAt i p = (.ok entry, p.eraseIdx i) := by
  rw [removeAt]
  simp only [bind_eq, get_eq, lift_eq, h, set_eq]
  rfl

namespace Lays

theorem unpack_insertIdx (h : p.Lays es) {i : Nat} (hi : i ≤ es.length) (e : Bytes) :
    (p.insertIdx i e).unpack = p.unpack.insertIdx i e := by
  have hlen : (es.take i).length = i := List.length_take_of_le hi
  have hsplit := h
  rw [← List.take_append_drop i es] at hsplit
  have hnew := hsplit.insertIdx e
  have hlist := Block.insertIdx_length_append (es.take i) (es.drop i) e
  rw [hlen] at hnew hlist
  rw [List.take_append_drop] at hlist
  rw [hnew.unpack_eq, h.unpack_eq, Block.insertIdx, hlist]
  rfl

theorem unpack_eraseIdx (h : p.Lays es) {i : Nat} (hi : i < es.length) :
    (p.eraseIdx i).unpack = { p.unpack with entries := es.eraseIdx i } := by
  have hlen : (es.take i).length = i := List.length_take_of_le (Nat.le_of_lt hi)
  have hsplit := h
  rw [eq_take_append_of_getElem? (List.getElem?_eq_getElem hi)] at hsplit
  have hnew := hsplit.eraseIdx
  rw [hlen] at hnew
  rw [hnew.unpack_eq, h.unpack_eq, List.eraseIdx_eq_take_drop_succ]
  rfl

theorem unpack_append (h : p.Lays es) (h' : q.Lays fs) :
    (p.append q).unpack = { p.unpack with entries := es ++ fs, last := q.last } := by
  rw [(h.append h').unpack_eq, h.unpack_eq]
  rfl

theorem entry_unpack (h : p.Lays es) (i : Nat) : p.unpack.entry i = p.entry i := by
  rw [h.unpack_eq, Block.entry]
  cases hi : es[i]? with
  | some e => rw [h.entry_eq_iff.2 hi]
  | none =>
    rw [entry, h.length_eq, if_neg (Nat.not_lt.2 (List.getElem?_eq_none_iff.1 hi))]

theorem length_unpack (h : p.Lays es) : p.unpack.length = p.length := by
  rw [h.unpack_eq, h.length_eq, Block.length]

theorem occupied_unpack (h : p.Lays es) : p.unpack.occupied = p.occupied := by
  rw [h.occupied_eq, h.unpack_eq]
  rfl

/-- Whatever the entry is, it is put in at the same index. -/
theorem insertOverfull_outcome (h : p.Lays es) (entry : Bytes) :
    outcome (insertOverfull entry) p = p.unpack.insertOverfull entry := by
  rw [outcome, insertOverfull, Block.insertOverfull]
  simp only [bind_eq, get_eq, lift_eq]
  cases hcut : Block.cutEntry K entry with
  | error e => rfl
  | ok r =>
    cases hsearch : p.unpack.searchBytes r.1 with
    | error e => simp only [ok_bind, hsearch, Except.map, error_bind]
    | ok place =>
      simp only [ok_bind, hsearch]
      cases place with
      | found i => rfl
      | absent i =>
        have hle : i ≤ es.length := by
          have hin := Block.index_le_of_searchBetween (Nat.zero_le _) hsearch
          rw [h.unpack_eq] at hin
          exact hin
        exact congrArg (fun b => Except.ok (i, b)) (h.unpack_insertIdx hle entry)

theorem insert_outcome (h : p.Lays es) (entry : Bytes) :
    outcome (Packed.insert entry) p = p.unpack.insert entry := by
  have hfits : p.unpack.fits entry = p.fits entry := by
    rw [Block.fits, h.occupied_unpack, fits, unpack]
  have hfree : p.unpack.freeSpace = p.freeSpace := by
    rw [Block.freeSpace, h.occupied_unpack, freeSpace, unpack]
  rw [Block.insert, hfits, hfree, ← h.insertOverfull_outcome, outcome, Packed.insert]
  simp only [bind_eq, get_eq]
  by_cases hroom : p.fits entry = true
  · rw [if_pos hroom, if_pos hroom]
    rfl
  · rw [if_neg hroom, if_neg hroom]
    rfl

theorem removeAt_outcome (h : p.Lays es) (i : Nat) :
    outcome (removeAt i) p = p.unpack.removeAt i := by
  rw [outcome, removeAt, Block.removeAt, h.entry_unpack]
  simp only [bind_eq, get_eq, lift_eq]
  cases hentry : p.entry i with
  | error e => rfl
  | ok e =>
    have hi : i < es.length := (List.getElem?_eq_some_iff.1 (h.entry_eq_iff.1 hentry)).1
    have herase := h.unpack_eraseIdx hi
    rw [h.unpack_eq] at herase ⊢
    exact congrArg (fun b => Except.ok (e, b)) herase

theorem delete_outcome (h : p.Lays es) (k : κ) :
    outcome (delete k) p = p.unpack.delete k := by
  rw [outcome, delete, Block.delete]
  simp only [bind_eq, get_eq, lift_eq, Packed.search]
  cases hsearch : p.unpack.search k with
  | error e => rfl
  | ok place =>
    cases place with
    | absent i => rfl
    | found i =>
      simp only [ok_bind, bind_eq, ← h.removeAt_outcome, outcome]
      cases removeAt i p with
      | mk r q => cases r <;> rfl

theorem merge_outcome (h : p.Lays es) (h' : q.Lays fs) :
    outcome (merge q) p = (p.unpack.merge q.unpack).map fun b => ((), b) := by
  have hroom : p.unpack.canMerge q.unpack 0 = p.canMerge q 0 := by
    have hother : q.unpack.entryBytes = q.occupied - Block.headerSize := by
      rw [← h'.occupied_unpack, Block.occupied, Nat.add_sub_cancel_left]
    rw [Block.canMerge, h.occupied_unpack, hother, canMerge, unpack]
  rw [outcome, merge, Block.merge, hroom]
  simp only [bind_eq, get_eq]
  by_cases hfits : p.canMerge q 0 = true
  · have happend := h.unpack_append h'
    rw [if_pos hfits, if_pos hfits]
    rw [h.unpack_eq] at happend ⊢
    rw [h'.unpack_eq]
    exact congrArg (fun b => Except.ok ((), b)) happend
  · rw [if_neg hfits, if_neg hfits]
    rfl

end Lays

end Packed

end PagedMap
