/-
# A block in memory is a sorted map

Whatever is done to a block in memory that has been made from written items, its bytes and its
table stay those of the items that the same operations make of a sorted list
(`Packed.Built.holds`). From this a search tells where a key stands, or else how many keys are
smaller, and every operation answers, or is refused, as the list says (`Packed.built_isMap`).

Key definitions: `putIfNew`, `Packed.Built`, `Packed.Holds`, `Packed.IsMap`.
Key theorems: `Packed.Holds.search_eq`, `Packed.Holds.insertOverfull_run`,
`Packed.Holds.delete_run`, `Packed.Holds.merge_run`, `Packed.Built.holds`,
`Packed.built_isMap`.
-/
import Mathlib.Data.List.Sort
import PagedMap.Proofs.Block.Unpacked
import PagedMap.Proofs.Codec.Kinds

namespace PagedMap

/-! ### A sorted list -/

section Lists

variable {κ π : Type} [LinearOrder κ] {k : κ} {v : π} {i : κ × π} {items xs ys : List (κ × π)}

/-- Puts an item among others by its key, if none of them has the key. -/
def putIfNew (i : κ × π) (items : List (κ × π)) : List (κ × π) :=
  if items.any fun j => j.1 = i.1 then items else items.orderedInsert (fun a b => a.1 ≤ b.1) i

theorem any_key_iff : (items.any fun j => j.1 = k) = true ↔ k ∈ items.map Prod.fst := by
  rw [List.any_eq_true, List.mem_map]
  simp only [decide_eq_true_eq]

theorem putIfNew_of_mem (h : i.1 ∈ items.map Prod.fst) : putIfNew i items = items :=
  if_pos (any_key_iff.2 h)

/-- No item has a key that stands between those before and those after it. -/
theorem notMem_keys (hxs : ∀ x ∈ xs, x.1 < k) (hys : ∀ y ∈ ys, k < y.1) :
    k ∉ (xs ++ ys).map Prod.fst := by
  intro hmem
  obtain ⟨j, hj, rfl⟩ := List.mem_map.1 hmem
  rcases List.mem_append.1 hj with hj | hj
  · exact lt_irrefl _ (hxs j hj)
  · exact lt_irrefl _ (hys j hj)

/-- A new item stands between those with smaller and those with larger keys. -/
theorem putIfNew_between (hxs : ∀ x ∈ xs, x.1 < i.1) (hys : ∀ y ∈ ys, i.1 < y.1) :
    putIfNew i (xs ++ ys) = xs ++ i :: ys := by
  rw [putIfNew, if_neg fun hany => notMem_keys hxs hys (any_key_iff.1 hany)]
  induction xs with
  | nil =>
    cases ys with
    | nil => rfl
    | cons y ys =>
      exact List.orderedInsert_cons_of_le _ _ (le_of_lt (hys y (List.mem_cons_self ..)))
  | cons x xs ih =>
    have hx : ¬ i.1 ≤ x.1 := not_le_of_gt (hxs x (List.mem_cons_self ..))
    rw [List.cons_append, List.orderedInsert_cons, if_neg hx,
      ih fun y hy => hxs y (List.mem_cons_of_mem x hy)]
    rfl

theorem Ascending.insert_between (hs : Ascending (xs ++ ys)) (hxs : ∀ x ∈ xs, x.1 < i.1)
    (hys : ∀ y ∈ ys, i.1 < y.1) : Ascending (xs ++ i :: ys) := by
  obtain ⟨hlower, hupper, hcross⟩ := ascending_append.1 hs
  refine ascending_append.2 ⟨hlower, ascending_cons.2 ⟨hys, hupper⟩, fun x hx y hy => ?_⟩
  rcases List.mem_cons.1 hy with rfl | hy
  · exact hxs x hx
  · exact hcross x hx y hy

/-- The item of a key is the only one with it. -/
theorem Ascending.find?_eq (hs : Ascending (xs ++ (k, v) :: ys)) :
    (xs ++ (k, v) :: ys).find? (fun i => i.1 = k) = some (k, v) := by
  have hbelow : xs.find? (fun i => i.1 = k) = none :=
    List.find?_eq_none.2 fun x hx => by simpa using ne_of_lt (hs.around.1 x hx)
  rw [List.find?_append, hbelow, Option.none_or]
  exact List.find?_cons_of_pos (by simp)

theorem Ascending.filter_ne_eq (hs : Ascending (xs ++ (k, v) :: ys)) :
    (xs ++ (k, v) :: ys).filter (fun i => i.1 ≠ k) = xs ++ ys := by
  have hbelow : xs.filter (fun i => i.1 ≠ k) = xs :=
    List.filter_eq_self.2 fun x hx => by simpa using ne_of_lt (hs.around.1 x hx)
  have habove : ys.filter (fun i => i.1 ≠ k) = ys :=
    List.filter_eq_self.2 fun y hy => by simpa using ne_of_gt (hs.around.2 y hy)
  rw [List.filter_append, hbelow, List.filter_cons_of_neg (by simp), habove]

omit [LinearOrder κ] in
theorem filter_ne_eq_self [DecidableEq κ] (h : k ∉ items.map Prod.fst) :
    items.filter (fun i => i.1 ≠ k) = items :=
  List.filter_eq_self.2 fun _ hj => decide_eq_true fun heq => h (heq ▸ List.mem_map_of_mem hj)

omit [LinearOrder κ] in
theorem find?_eq_none [DecidableEq κ] (h : k ∉ items.map Prod.fst) :
    items.find? (fun i => i.1 = k) = none :=
  List.find?_eq_none.2 fun _ hj heq => h (of_decide_eq_true heq ▸ List.mem_map_of_mem hj)

end Lists

namespace Packed

open Block (bytesOf headerSize record WritesItem)

variable {κ π : Type} {K : OrderedCodec κ} {P : Codec π}

/-! ### What each operation does -/

/-- The block has the items: its bytes are their entries, and they ascend. -/
structure Holds (p : Packed K P) (items : List (κ × π)) [LinearOrder κ] : Prop where
  lays : p.Lays (items.map (record K P))
  writes : ∀ i ∈ items, WritesItem K P i
  ascending : Ascending items

section Steps

variable [LinearOrder κ] {p q : Packed K P} {items xs ys : List (κ × π)} {i : κ × π} {k : κ}

theorem holds_empty (capacity : Nat) : (empty K P capacity).Holds [] :=
  ⟨lays_empty capacity, fun _ h => absurd h List.not_mem_nil, List.Pairwise.nil⟩

namespace Holds

theorem occupied_eq (h : p.Holds items) : p.occupied = 8 + bytesOf K P items := by
  rw [h.lays.occupied_eq, Block.mass_records, headerSize]

theorem unpack_eq (h : p.Holds items) : p.unpack = .ofItems K P p.capacity items p.last :=
  h.lays.unpack_eq

theorem fits_eq (h : p.Holds items) :
    p.fits (record K P i) = decide (8 + bytesOf K P (i :: items) ≤ p.capacity) := by
  rw [fits, h.occupied_eq, Block.bytesOf_cons, Nat.add_assoc, Nat.add_comm (bytesOf K P items)]

theorem canMerge_eq (h : p.Holds xs) (h' : q.Holds ys) :
    p.canMerge q 0 = decide (8 + bytesOf K P (xs ++ ys) ≤ p.capacity) := by
  rw [canMerge, h.occupied_eq, h'.occupied_eq, headerSize, Block.bytesOf_append,
    Nat.add_sub_cancel_left, Nat.add_zero, Nat.add_assoc]

/-- An item whose entry is put between those with smaller and those with larger keys. -/
theorem insertIdx (h : p.Holds (xs ++ ys)) (hi : WritesItem K P i) (hxs : ∀ x ∈ xs, x.1 < i.1)
    (hys : ∀ y ∈ ys, i.1 < y.1) :
    (p.insertIdx xs.length (record K P i)).Holds (xs ++ i :: ys) := by
  have hlays := h.lays
  rw [List.map_append] at hlays
  refine ⟨?_, fun j hj => ?_, h.ascending.insert_between hxs hys⟩
  · rw [List.map_append, List.map_cons, ← List.length_map (record K P)]
    exact hlays.insertIdx (record K P i)
  · rcases List.mem_append.1 hj with hj | hj
    · exact h.writes j (List.mem_append_left ys hj)
    · rcases List.mem_cons.1 hj with rfl | hj
      · exact hi
      · exact h.writes j (List.mem_append_right xs hj)

/-- An item whose entry is taken out. -/
theorem eraseIdx (h : p.Holds (xs ++ i :: ys)) : (p.eraseIdx xs.length).Holds (xs ++ ys) := by
  have hlays := h.lays
  rw [List.map_append, List.map_cons] at hlays
  have hsub : (xs ++ ys).Sublist (xs ++ i :: ys) :=
    (List.Sublist.refl xs).append (List.sublist_cons_self i ys)
  refine ⟨?_, fun j hj => h.writes j (hsub.subset hj), h.ascending.sublist hsub⟩
  rw [List.map_append, ← List.length_map (record K P)]
  exact hlays.eraseIdx

theorem append (h : p.Holds xs) (h' : q.Holds ys) (hlt : ∀ x ∈ xs, ∀ y ∈ ys, x.1 < y.1) :
    (p.append q).Holds (xs ++ ys) := by
  refine ⟨?_, fun j hj => (List.mem_append.1 hj).elim (h.writes j) (h'.writes j),
    ascending_append.2 ⟨h.ascending, h'.ascending, hlt⟩⟩
  rw [List.map_append]
  exact h.lays.append h'.lays

theorem removeAt_between (h : p.Holds (xs ++ i :: ys)) :
    removeAt xs.length p = (.ok (record K P i), p.eraseIdx xs.length) := by
  have hentry : p.entry xs.length = .ok (record K P i) := h.lays.entry_eq_iff.2 (by simp)
  exact removeAt_of_entry hentry

/-- The item at an index is taken out. -/
theorem removeAt_run (h : p.Holds items) {n : Nat} (hn : items[n]? = some i) :
    ∃ q, removeAt n p = (.ok (record K P i), q) ∧ q.Holds (items.eraseIdx n) := by
  have hlen : (items.take n).length = n :=
    List.length_take_of_le (Nat.le_of_lt (List.getElem?_eq_some_iff.1 hn).1)
  rw [eq_take_append_of_getElem? hn] at h
  have hrun := h.removeAt_between
  have hholds := h.eraseIdx
  rw [hlen] at hrun hholds
  rw [List.eraseIdx_eq_take_drop_succ]
  exact ⟨_, hrun, hholds⟩

/-- Blocks merge if they fit together. -/
theorem merge_run (h : p.Holds xs) (h' : q.Holds ys) :
    merge q p =
      if 8 + bytesOf K P (xs ++ ys) ≤ p.capacity then (.ok (), p.append q)
      else (.error (.invalidState .mergeDoesNotFit), p) := by
  rw [merge]
  simp only [bind_eq, get_eq, h.canMerge_eq h', decide_eq_true_eq]
  by_cases hfits : 8 + bytesOf K P (xs ++ ys) ≤ p.capacity
  · rw [if_pos hfits, if_pos hfits]
    rfl
  · rw [if_neg hfits, if_neg hfits]
    rfl

variable [K.Lawful]

theorem searchBytes_among (h : p.Holds items) (hk : K.Writes k) :
    ∃ place, p.unpack.searchBytes (K.bytes k) = .ok place ∧ place.Among k items := by
  rw [h.unpack_eq]
  exact Block.searchBytes_ofItems h.writes hk h.ascending

/-- A search tells where a key stands, or how many keys are smaller. -/
theorem search_eq (h : p.Holds items) (k : κ) :
    p.search k = (K.encode k).map fun _ =>
      if k ∈ items.map Prod.fst then .found (smallerIn k items)
      else .absent (smallerIn k items) := by
  unfold Packed.search Block.search
  cases hk : K.encode k with
  | error e => rfl
  | ok bs =>
    obtain ⟨place, hplace, hamong⟩ := h.searchBytes_among (Codec.writes_of_encode hk)
    rw [Codec.bytes_of_encode hk] at hplace
    rw [ok_bind, hplace, hamong.eq_ite h.ascending]
    rfl

/-- What is found is the index of the key. -/
theorem search_found_iff (h : p.Holds items) (hk : K.Writes k) {n : Nat} :
    p.search k = .ok (.found n) ↔ (items.map Prod.fst)[n]? = some k := by
  have hencode : K.encode k = .ok (K.bytes k) := hk
  rw [h.search_eq, hencode, List.getElem?_map]
  constructor
  · intro hfound
    by_cases hmem : k ∈ items.map Prod.fst
    · obtain ⟨i, hi, rfl⟩ := List.mem_map.1 hmem
      simp only [Except.map, if_pos hmem, Except.ok.injEq, Place.found.injEq] at hfound
      rw [← hfound, h.ascending.getElem?_smallerIn hi]
      rfl
    · simp only [Except.map, if_neg hmem] at hfound
      cases hfound
  · intro hn
    obtain ⟨i, hi, rfl⟩ := Option.map_eq_some_iff.1 hn
    have hmem : i.1 ∈ items.map Prod.fst := List.mem_map_of_mem (List.mem_of_getElem? hi)
    rw [Except.map, if_pos hmem, h.ascending.smallerIn_eq hi]

/-- An item is put in, unless one of the items has its key. -/
theorem insertOverfull_run (h : p.Holds items) (hi : WritesItem K P i) :
    ∃ q, insertOverfull (record K P i) p =
        (if i.1 ∈ items.map Prod.fst then .error (.invalidArgument .duplicateKey)
          else .ok (smallerIn i.1 items), q) ∧
      q.Holds (putIfNew i items) := by
  obtain ⟨place, hplace, hamong⟩ := h.searchBytes_among hi.1
  obtain ⟨hindex, hfound⟩ := hamong.eq_smallerIn h.ascending
  rw [insertOverfull]
  simp only [bind_eq, get_eq, lift_eq, Block.cutEntry_record hi, hplace]
  cases place with
  | found n =>
    have hmem := hfound.1 rfl
    rw [if_pos hmem, putIfNew_of_mem hmem]
    exact ⟨p, rfl, h⟩
  | absent n =>
    obtain ⟨xs, ys, rfl, rfl, hxs, hys⟩ := hamong
    rw [if_neg (notMem_keys hxs hys), putIfNew_between hxs hys, ← hindex]
    exact ⟨_, rfl, h.insertIdx hi hxs hys⟩

/-- An item is put in if it fits, unless one of the items has its key. -/
theorem insert_run (h : p.Holds items) (hi : WritesItem K P i) :
    ∃ q, Packed.insert (record K P i) p =
        (if 8 + bytesOf K P (i :: items) ≤ p.capacity then
          if i.1 ∈ items.map Prod.fst then .error (.invalidArgument .duplicateKey)
          else .ok (smallerIn i.1 items)
        else .error (.invalidState (.entryDoesNotFit (record K P i).length
          (p.capacity - (8 + bytesOf K P items)))), q) ∧
      q.Holds (if 8 + bytesOf K P (i :: items) ≤ p.capacity then putIfNew i items else items) := by
  rw [Packed.insert]
  simp only [bind_eq, get_eq, h.fits_eq, decide_eq_true_eq]
  by_cases hfits : 8 + bytesOf K P (i :: items) ≤ p.capacity
  · simp only [if_pos hfits]
    exact h.insertOverfull_run hi
  · simp only [if_neg hfits, freeSpace, h.occupied_eq]
    exact ⟨p, rfl, h⟩

/-- The item of a key is taken out, if there is one. -/
theorem delete_run (h : p.Holds items) (k : κ) :
    ∃ q, delete k p =
        ((K.encode k).map fun _ => (items.find? fun i => i.1 = k).map (record K P), q) ∧
      q.Holds (items.filter fun i => i.1 ≠ k) := by
  rw [delete]
  simp only [bind_eq, get_eq, lift_eq]
  cases hk : K.encode k with
  | error e =>
    have hnot : k ∉ items.map Prod.fst := by
      intro hmem
      obtain ⟨i, hi, rfl⟩ := List.mem_map.1 hmem
      exact Codec.not_writes_of_error hk (h.writes i hi).1
    rw [h.search_eq, hk, filter_ne_eq_self hnot]
    exact ⟨p, rfl, h⟩
  | ok bs =>
    obtain ⟨place, hplace, hamong⟩ := h.searchBytes_among (Codec.writes_of_encode hk)
    rw [Codec.bytes_of_encode hk] at hplace
    have hsearch : p.search k = .ok place := by
      rw [Packed.search, Block.search, hk, ok_bind, hplace]
    rw [hsearch]
    cases place with
    | found n =>
      obtain ⟨xs, v, ys, rfl, rfl⟩ := hamong
      rw [h.ascending.find?_eq, h.ascending.filter_ne_eq]
      simp only [bind_eq, h.removeAt_between]
      exact ⟨_, rfl, h.eraseIdx⟩
    | absent n =>
      obtain ⟨xs, ys, rfl, -, hxs, hys⟩ := hamong
      rw [find?_eq_none (notMem_keys hxs hys), filter_ne_eq_self (notMem_keys hxs hys)]
      exact ⟨p, rfl, h⟩

end Holds

/-- A block that is read from entries of items has these items. -/
theorem holds_read {bs : Bytes} {capacity : Nat} (hread : ofBytes K P bs capacity = .ok p)
    (hentries : p.unpack.entries = items.map (record K P)) (hw : ∀ i ∈ items, WritesItem K P i)
    (hs : Ascending items) : p.Holds items :=
  ⟨hentries ▸ lays_of_ofBytes hread, hw, hs⟩

end Steps

/-! ### Any number of operations -/

section Runs

variable [LinearOrder κ]

/-- A block that begins without entries, or with those of items that it was read from, and then
goes through operations, each of which may be refused; and what the same operations make of the
list of its items. -/
inductive Built : Packed K P → List (κ × π) → Prop where
  | empty (capacity : Nat) : Built (.empty K P capacity) []
  | read {bs : Bytes} {capacity : Nat} {p : Packed K P} {items : List (κ × π)}
      (hread : ofBytes K P bs capacity = .ok p)
      (hentries : p.unpack.entries = items.map (record K P))
      (hw : ∀ i ∈ items, WritesItem K P i) (hs : Ascending items) : Built p items
  | insert {p : Packed K P} {items : List (κ × π)} (h : Built p items) (i : κ × π)
      (hi : WritesItem K P i) :
      Built (Packed.insert (record K P i) p).2
        (if 8 + bytesOf K P (i :: items) ≤ p.capacity then putIfNew i items else items)
  | insertOverfull {p : Packed K P} {items : List (κ × π)} (h : Built p items) (i : κ × π)
      (hi : WritesItem K P i) :
      Built (Packed.insertOverfull (record K P i) p).2 (putIfNew i items)
  | delete {p : Packed K P} {items : List (κ × π)} (h : Built p items) (k : κ) :
      Built (Packed.delete k p).2 (items.filter fun i => i.1 ≠ k)
  | removeAt {p : Packed K P} {items : List (κ × π)} (h : Built p items) (n : Nat)
      (hn : n < items.length) : Built (Packed.removeAt n p).2 (items.eraseIdx n)
  | merge {p q : Packed K P} {xs ys : List (κ × π)} (h : Built p xs) (h' : Built q ys)
      (hlt : ∀ x ∈ xs, ∀ y ∈ ys, x.1 < y.1) :
      Built (Packed.merge q p).2
        (if 8 + bytesOf K P (xs ++ ys) ≤ p.capacity then xs ++ ys else xs)

/-- The block is the sorted map of the items. -/
structure IsMap (p : Packed K P) (items : List (κ × π)) : Prop where
  items_eq : p.unpack.items = items.map .ok
  ascending : items.Pairwise fun a b => a.1 < b.1
  occupied_eq : p.occupied = 8 + (items.map fun i => (record K P i).length).sum
  /-- The table has where the entries begin. -/
  starts_eq : p.starts = startsFrom 8 (items.map (record K P))
  /-- The bytes from a beginning to the next are an entry. -/
  entry_eq : ∀ n e, p.entry n = .ok e ↔ (items.map (record K P))[n]? = some e
  search_found : ∀ k n, K.Writes k →
    (p.search k = .ok (.found n) ↔ (items.map Prod.fst)[n]? = some k)
  search_absent : ∀ k, K.Writes k → k ∉ items.map Prod.fst →
    p.search k = .ok (.absent (smallerIn k items))
  search_refused : ∀ k e, K.encode k = .error e → p.search k = .error e
  insert_answers : ∀ i, WritesItem K P i → (Packed.insert (record K P i) p).1 =
    if 8 + bytesOf K P (i :: items) ≤ p.capacity then
      if i.1 ∈ items.map Prod.fst then .error (.invalidArgument .duplicateKey)
      else .ok (smallerIn i.1 items)
    else .error (.invalidState (.entryDoesNotFit (record K P i).length
      (p.capacity - (8 + bytesOf K P items))))
  insertOverfull_answers : ∀ i, WritesItem K P i → (insertOverfull (record K P i) p).1 =
    if i.1 ∈ items.map Prod.fst then .error (.invalidArgument .duplicateKey)
    else .ok (smallerIn i.1 items)
  delete_answers : ∀ k, (delete k p).1 =
    (K.encode k).map fun _ => (items.find? fun i => i.1 = k).map (record K P)
  removeAt_answers : ∀ n i, items[n]? = some i → (removeAt n p).1 = .ok (record K P i)
  merge_answers : ∀ q ys, Built q ys → (∀ x ∈ items, ∀ y ∈ ys, x.1 < y.1) → (merge q p).1 =
    if 8 + bytesOf K P (items ++ ys) ≤ p.capacity then .ok ()
    else .error (.invalidState .mergeDoesNotFit)
  /-- An operation that is refused leaves the block as it was. -/
  keeps : ∀ e q, (∀ entry, Packed.insert entry p = (.error e, q) → q = p) ∧
    (∀ entry, insertOverfull entry p = (.error e, q) → q = p) ∧
    (∀ k, delete k p = (.error e, q) → q = p) ∧ (∀ n, removeAt n p = (.error e, q) → q = p) ∧
    ∀ other, merge other p = (.error e, q) → q = p
  /-- The operations on the block of the entries end in the same way. -/
  outcomes : (∀ entry, outcome (Packed.insert entry) p = p.unpack.insert entry) ∧
    (∀ entry, outcome (insertOverfull entry) p = p.unpack.insertOverfull entry) ∧
    (∀ k, outcome (delete k) p = p.unpack.delete k) ∧
    (∀ n, outcome (removeAt n) p = p.unpack.removeAt n) ∧
    ∀ q ys, Built q ys → outcome (merge q) p = (p.unpack.merge q.unpack).map fun b => ((), b)

variable [K.Lawful] {p : Packed K P} {items : List (κ × π)}

/-- Every operation keeps the bytes and the table those of the items. -/
theorem Built.holds (h : Built p items) : p.Holds items := by
  induction h with
  | empty capacity => exact holds_empty capacity
  | read hread hentries hw hs => exact holds_read hread hentries hw hs
  | insert _ i hi ih =>
    obtain ⟨q, hrun, hholds⟩ := ih.insert_run hi
    rw [hrun]
    exact hholds
  | insertOverfull _ i hi ih =>
    obtain ⟨q, hrun, hholds⟩ := ih.insertOverfull_run hi
    rw [hrun]
    exact hholds
  | delete _ k ih =>
    obtain ⟨q, hrun, hholds⟩ := ih.delete_run k
    rw [hrun]
    exact hholds
  | removeAt _ n hn ih =>
    obtain ⟨q, hrun, hholds⟩ := ih.removeAt_run (List.getElem?_eq_getElem hn)
    rw [hrun]
    exact hholds
  | merge _ _ hlt ih ih' =>
    rw [ih.merge_run ih']
    split
    · exact ih.append ih' hlt
    · exact ih

/-- **A block in memory is a sorted map.** Whatever operations it goes through, its entries are
those of the items that the same operations make of a sorted list, they ascend, they occupy their
bytes and eight more, and the table has where they begin. A search finds the index of a key, or
tells how many keys are smaller. Every operation answers what the list tells, is refused if the
entries do not fit or the key is there, and then leaves the block as it was; and it ends as the
operation on the block of the entries does. -/
theorem built_isMap [P.Lawful] (h : Built p items) : p.IsMap items where
  items_eq := by
    rw [h.holds.unpack_eq]
    exact Block.items_ofItems h.holds.writes
  ascending := h.holds.ascending
  occupied_eq := h.holds.occupied_eq
  starts_eq := h.holds.lays.starts_eq
  entry_eq _ _ := h.holds.lays.entry_eq_iff
  search_found _ _ hk := h.holds.search_found_iff hk
  search_absent k hk hmem := by
    have hencode : K.encode k = .ok (K.bytes k) := hk
    rw [h.holds.search_eq, hencode, Except.map, if_neg hmem]
  search_refused k e he := by
    rw [h.holds.search_eq, he]
    rfl
  insert_answers i hi := by
    obtain ⟨q, hrun, -⟩ := h.holds.insert_run hi
    rw [hrun]
  insertOverfull_answers i hi := by
    obtain ⟨q, hrun, -⟩ := h.holds.insertOverfull_run hi
    rw [hrun]
  delete_answers k := by
    obtain ⟨q, hrun, -⟩ := h.holds.delete_run k
    rw [hrun]
  removeAt_answers n i hn := by
    obtain ⟨q, hrun, -⟩ := h.holds.removeAt_run hn
    rw [hrun]
  merge_answers q ys h' hlt := by
    rw [h.holds.merge_run h'.holds]
    split <;> rfl
  keeps e q :=
    ⟨fun _ hrun => insert_keeps.of_error hrun, fun _ hrun => insertOverfull_keeps.of_error hrun,
      fun k hrun => (delete_keeps k).of_error hrun, fun n hrun => (removeAt_keeps n).of_error hrun,
      fun other hrun => (merge_keeps other).of_error hrun⟩
  outcomes :=
    ⟨h.holds.lays.insert_outcome, h.holds.lays.insertOverfull_outcome,
      h.holds.lays.delete_outcome, h.holds.lays.removeAt_outcome,
      fun _ _ h' => h.holds.lays.merge_outcome h'.holds.lays⟩

/-- A block of 30 bytes with two keys of different lengths, of which the smaller one was put in
last: the other entry has moved by its eight bytes, and an entry of nine bytes does not fit. -/
theorem built_isMap_small :
    ∃ p : Packed KeyKind.byteString.codec word32.toCodec, Built p [([], 9), ([0x62], 7)] ∧
      p.occupied = 25 ∧ p.starts = [8, 16] ∧ p.search [0x62] = .ok (.found 1) ∧
      p.search [0x61] = .ok (.absent 1) ∧ (delete [] p).1 = .ok (some [0, 0, 0, 0, 0, 0, 0, 9]) ∧
      (Packed.insert (record KeyKind.byteString.codec word32.toCodec ([0x61], 5)) p).1 =
        .error (.invalidState (.entryDoesNotFit 9 5)) := by
  let K := KeyKind.byteString.codec
  let x : KeyKind.byteString.Item × UInt32 := ([], 9)
  let y : KeyKind.byteString.Item × UInt32 := ([0x62], 7)
  let z : KeyKind.byteString.Item × UInt32 := ([0x61], 5)
  have hx : WritesItem K word32.toCodec x := ⟨rfl, rfl⟩
  have hy : WritesItem K word32.toCodec y := ⟨rfl, rfl⟩
  have hz : WritesItem K word32.toCodec z := ⟨rfl, rfl⟩
  have hlarge : Built (insertOverfull (record K word32.toCodec y) (empty K word32.toCodec 30)).2
      [y] := (Built.empty 30).insertOverfull y hy
  have hboth := hlarge.insert x hx
  have hitems : putIfNew x [y] = [x, y] := by decide
  rw [if_pos (by decide), hitems] at hboth
  have hmap := built_isMap hboth
  have hdelete := (hmap.delete_answers x.1).trans
    (show _ = .ok (some [0, 0, 0, 0, 0, 0, 0, 9]) by decide)
  have hinsert := (hmap.insert_answers z hz).trans
    (show _ = .error (.invalidState (.entryDoesNotFit 9 5)) by decide)
  exact ⟨_, hboth, hmap.occupied_eq, hmap.starts_eq, (hmap.search_found y.1 1 hy.1).2 rfl,
    hmap.search_absent z.1 hz.1 (by decide), hdelete, hinsert⟩

end Runs

end Packed

end PagedMap
