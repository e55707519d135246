/-
# The binary search finds a key's place

A key's place among items in ascending order is the item with the key, or the
gap between the items with smaller and those with larger keys; either way its
index is the number of smaller keys (`Place.Among.eq_smallerIn`). The search keeps
two bounds: all items before the lower one have smaller keys, all from the upper
one on have larger keys (`Block.searchBetween_ofItems`).

Key definitions: `Ascending`, `Place.Among`, `smallerIn`.
Key theorems: `Ascending.getElem?_smallerIn`, `Block.searchBytes_ofItems`,
`Block.insertOverfull_ofItems`.
-/
import PagedMap.Proofs.Block.Items

namespace PagedMap

variable {κ π : Type} [LinearOrder κ]

/-- The keys of the items ascend. -/
def Ascending (items : List (κ × π)) : Prop := items.Pairwise fun a b => a.1 < b.1

theorem ascending_append {xs ys : List (κ × π)} :
    Ascending (xs ++ ys) ↔ Ascending xs ∧ Ascending ys ∧ ∀ x ∈ xs, ∀ y ∈ ys, x.1 < y.1 :=
  List.pairwise_append

theorem ascending_cons {x : κ × π} {xs : List (κ × π)} :
    Ascending (x :: xs) ↔ (∀ y ∈ xs, x.1 < y.1) ∧ Ascending xs :=
  List.pairwise_cons

/-- The items around one that ascends among them. -/
theorem Ascending.around {xs ys : List (κ × π)} {i : κ × π} (h : Ascending (xs ++ i :: ys)) :
    (∀ x ∈ xs, x.1 < i.1) ∧ ∀ y ∈ ys, i.1 < y.1 :=
  ⟨fun x hx => (ascending_append.1 h).2.2 x hx i (List.mem_cons_self ..),
    (ascending_cons.1 (ascending_append.1 h).2.1).1⟩

theorem eq_take_append_of_getElem? {α : Type} {xs : List α} {n : Nat} {x : α}
    (h : xs[n]? = some x) : xs = xs.take n ++ x :: xs.drop (n + 1) := by
  obtain ⟨hn, rfl⟩ := List.getElem?_eq_some_iff.1 h
  rw [← List.drop_eq_getElem_cons hn, List.take_append_drop]

/-- The place is that of a key among items. -/
def Place.Among (k : κ) (items : List (κ × π)) : Place → Prop
  | found i => ∃ xs v ys, items = xs ++ (k, v) :: ys ∧ xs.length = i
  | absent i => ∃ xs ys, items = xs ++ ys ∧ xs.length = i ∧ (∀ x ∈ xs, x.1 < k) ∧
      ∀ y ∈ ys, k < y.1

/-- So many items as the place's index have smaller keys. -/
theorem Place.Among.index {place : Place} {items : List (κ × π)} {k : κ}
    (h : place.Among k items) (hs : Ascending items) :
    ∃ xs ys, items = xs ++ ys ∧ xs.length = place.index ∧ (∀ x ∈ xs, x.1 < k) ∧
      ∀ y ∈ ys, k ≤ y.1 := by
  cases place with
  | found i =>
    obtain ⟨xs, v, ys, rfl, hlen⟩ := h
    have haround := Ascending.around hs
    refine ⟨xs, (k, v) :: ys, rfl, hlen, haround.1, fun y hy => ?_⟩
    rcases List.mem_cons.1 hy with rfl | hy
    · exact le_rfl
    · exact le_of_lt (haround.2 y hy)
  | absent i =>
    obtain ⟨xs, ys, heq, hlen, hxs, hys⟩ := h
    exact ⟨xs, ys, heq, hlen, hxs, fun y hy => le_of_lt (hys y hy)⟩

/-- So many items as the place's child have keys that are not larger. -/
theorem Place.Among.child {place : Place} {items : List (κ × π)} {k : κ}
    (h : place.Among k items) (hs : Ascending items) :
    ∃ xs ys, items = xs ++ ys ∧ xs.length = place.child ∧ (∀ x ∈ xs, x.1 ≤ k) ∧
      ∀ y ∈ ys, k < y.1 := by
  cases place with
  | found i =>
    obtain ⟨xs, v, ys, rfl, rfl⟩ := h
    have haround := Ascending.around hs
    refine ⟨xs ++ [(k, v)], ys, by simp, by simp [Place.child], fun x hx => ?_, haround.2⟩
    rcases List.mem_append.1 hx with hx | hx
    · exact le_of_lt (haround.1 x hx)
    · rw [List.mem_singleton.1 hx]
  | absent i =>
    obtain ⟨xs, ys, heq, hlen, hxs, hys⟩ := h
    exact ⟨xs, ys, heq, hlen, fun x hx => le_of_lt (hxs x hx), hys⟩

section Count

variable {k : κ} {xs ys : List (κ × π)}

/-- The number of items with keys smaller than a key. -/
def smallerIn (k : κ) (items : List (κ × π)) : Nat := items.countP fun i => i.1 < k

theorem smallerIn_append : smallerIn k (xs ++ ys) = smallerIn k xs + smallerIn k ys :=
  List.countP_append

theorem smallerIn_eq_length (h : ∀ i ∈ xs, i.1 < k) : smallerIn k xs = xs.length :=
  List.countP_eq_length.2 fun i hi => decide_eq_true (h i hi)

theorem smallerIn_eq_zero (h : ∀ i ∈ xs, k ≤ i.1) : smallerIn k xs = 0 :=
  List.countP_eq_zero.2 fun i hi => by simpa using h i hi

/-- The index of a key's place among items is the number of those with smaller keys, and the
key is found if one of them has it. -/
theorem Place.Among.eq_smallerIn {place : Place} (h : place.Among k xs) (hs : Ascending xs) :
    place.index = smallerIn k xs ∧ (place.isFound = true ↔ k ∈ xs.map Prod.fst) := by
  constructor
  · obtain ⟨as, bs, rfl, hlen, has, hbs⟩ := h.index hs
    rw [smallerIn_append, smallerIn_eq_length has, smallerIn_eq_zero hbs, hlen, Nat.add_zero]
  · cases place with
    | found i =>
      obtain ⟨as, v, bs, rfl, -⟩ := h
      exact ⟨fun _ => by simp, fun _ => rfl⟩
    | absent i =>
      obtain ⟨as, bs, rfl, -, has, hbs⟩ := h
      refine ⟨fun hfound => Bool.noConfusion hfound, fun hmem => ?_⟩
      obtain ⟨j, hj, rfl⟩ := List.mem_map.1 hmem
      rcases List.mem_append.1 hj with hj | hj
      · exact absurd (has j hj) (lt_irrefl _)
      · exact absurd (hbs j hj) (lt_irrefl _)

/-- What a key's place is. -/
theorem Place.Among.eq_ite {place : Place} (h : place.Among k xs) (hs : Ascending xs) :
    place = if k ∈ xs.map Prod.fst then .found (smallerIn k xs) else .absent (smallerIn k xs) := by
  obtain ⟨hindex, hfound⟩ := h.eq_smallerIn hs
  cases place with
  | found i => rw [if_pos (hfound.1 rfl), ← hindex, Place.index]
  | absent i => rw [if_neg fun hmem => Bool.noConfusion (hfound.2 hmem), ← hindex, Place.index]

/-- The index of an item is the number of items with smaller keys. -/
theorem Ascending.smallerIn_eq {n : Nat} {i : κ × π} (hs : Ascending xs) (hn : xs[n]? = some i) :
    smallerIn i.1 xs = n := by
  have hsplit := eq_take_append_of_getElem? hn
  have hlt : n < xs.length := (List.getElem?_eq_some_iff.1 hn).1
  obtain ⟨hbelow, habove⟩ := Ascending.around (hsplit ▸ hs)
  have hrest : ∀ j ∈ i :: xs.drop (n + 1), i.1 ≤ j.1 := by
    intro j hj
    rcases List.mem_cons.1 hj with rfl | hj
    · exact le_refl _
    · exact le_of_lt (habove j hj)
  rw [hsplit, smallerIn_append, smallerIn_eq_length hbelow, smallerIn_eq_zero hrest,
    List.length_take]
  omega

/-- The item of a key is at the index that is the number of items with smaller keys. -/
theorem Ascending.getElem?_smallerIn {v : π} (hs : Ascending xs) (hk : (k, v) ∈ xs) :
    xs[smallerIn k xs]? = some (k, v) := by
  obtain ⟨n, hn⟩ := List.mem_iff_getElem?.1 hk
  rw [hs.smallerIn_eq hn, hn]

end Count

namespace Block

variable {K : OrderedCodec κ} {P : Codec π} [K.Lawful] {capacity : Nat} {last : BlockNumber}

/-- The search closes in on the key's place. -/
theorem searchBetween_ofItems {items : List (κ × π)} {k : κ}
    (hw : ∀ i ∈ items, WritesItem K P i) (hk : K.Writes k) (hs : Ascending items) :
    ∀ {fuel lo hi : Nat}, hi - lo ≤ fuel → lo ≤ hi → hi ≤ items.length →
      (∀ x ∈ items.take lo, x.1 < k) → (∀ y ∈ items.drop hi, k < y.1) →
      ∃ place, (ofItems K P capacity items last).searchBetween (K.bytes k) fuel lo hi =
        .ok place ∧ place.Among k items
  | 0, lo, hi, hfuel, hle, _, hlo, hhi => by
    obtain rfl : lo = hi := by omega
    exact ⟨.absent lo, rfl, items.take lo, items.drop lo, (List.take_append_drop ..).symm,
      by rw [List.length_take]; omega, hlo, hhi⟩
  | fuel + 1, lo, hi, hfuel, hle, hlen, hlo, hhi => by
    by_cases hlt : lo < hi
    · have hmid : lo + (hi - lo) / 2 < items.length := by omega
      obtain ⟨i, hi'⟩ : ∃ i, items[lo + (hi - lo) / 2]? = some i :=
        ⟨_, List.getElem?_eq_getElem hmid⟩
      have hsplit : items = items.take (lo + (hi - lo) / 2) ++
          i :: items.drop (lo + (hi - lo) / 2 + 1) := eq_take_append_of_getElem? hi'
      have hwi : WritesItem K P i := hw i (List.mem_of_getElem? hi')
      have haround := Ascending.around (hsplit ▸ hs)
      rw [searchBetween, if_pos hlt]
      simp only [keyBytes_ofItems hi' hwi, OrderedCodec.compareEncoded_bytes hwi.1 hk, bind,
        Except.bind]
      cases hcmp : Ord.compare i.1 k with
      | lt =>
        have hik : i.1 < k := compare_lt_iff_lt.1 hcmp
        refine searchBetween_ofItems hw hk hs (by omega) (by omega) hlen (fun x hx => ?_) hhi
        rw [List.take_add_one, hi', List.mem_append] at hx
        rcases hx with hx | hx
        · exact lt_trans (haround.1 x hx) hik
        · rw [List.mem_singleton.1 hx]
          exact hik
      | gt =>
        have hki : k < i.1 := compare_gt_iff_gt.1 hcmp
        refine searchBetween_ofItems hw hk hs (by omega) (by omega) (by omega) hlo
          (fun y hy => ?_)
        rw [List.drop_eq_getElem_cons hmid, List.mem_cons,
          (List.getElem?_eq_some_iff.1 hi').2] at hy
        rcases hy with rfl | hy
        · exact hki
        · exact lt_trans hki (haround.2 y hy)
      | eq =>
        obtain rfl : i.1 = k := compare_eq_iff_eq.1 hcmp
        exact ⟨.found _, rfl, _, i.2, _, hsplit, by rw [List.length_take]; omega⟩
    · obtain rfl : lo = hi := by omega
      rw [searchBetween, if_neg hlt]
      exact ⟨.absent lo, rfl, items.take lo, items.drop lo, (List.take_append_drop ..).symm,
        by rw [List.length_take]; omega, hlo, hhi⟩

/-- The search gives the key's place. -/
theorem searchBytes_ofItems {items : List (κ × π)} {k : κ} (hw : ∀ i ∈ items, WritesItem K P i)
    (hk : K.Writes k) (hs : Ascending items) :
    ∃ place, (ofItems K P capacity items last).searchBytes (K.bytes k) = .ok place ∧
      place.Among k items :=
  searchBetween_ofItems hw hk hs (by simp) (Nat.zero_le _) (by simp) (by simp) (by simp)

/-- A key that stands between the items before and after it is found to be
absent there. -/
theorem searchBytes_absent {xs ys : List (κ × π)} {k : κ}
    (hw : ∀ i ∈ xs ++ ys, WritesItem K P i) (hk : K.Writes k) (hs : Ascending (xs ++ ys))
    (hxs : ∀ x ∈ xs, x.1 < k) (hys : ∀ y ∈ ys, k < y.1) :
    (ofItems K P capacity (xs ++ ys) last).searchBytes (K.bytes k) = .ok (.absent xs.length) := by
  obtain ⟨place, hplace, hamong⟩ : ∃ place, (ofItems K P capacity (xs ++ ys) last).searchBytes
    (K.bytes k) = .ok place ∧ place.Among k (xs ++ ys) := searchBytes_ofItems hw hk hs
  rw [hplace]
  cases place with
  | found i =>
    obtain ⟨as, v, bs, heq, -⟩ := hamong
    have hmem : (k, v) ∈ xs ++ ys := by rw [heq]; exact List.mem_append_cons_self
    rcases List.mem_append.1 hmem with h | h
    · exact absurd (hxs _ h) (lt_irrefl k)
    · exact absurd (hys _ h) (lt_irrefl k)
  | absent i =>
    obtain ⟨as, bs, heq, rfl, has, hbs⟩ := hamong
    rcases List.append_eq_append_iff.1 heq with ⟨cs, rfl, rfl⟩ | ⟨cs, rfl, rfl⟩
    · cases cs with
      | nil => rw [List.append_nil]
      | cons c cs => exact absurd (has c (by simp)) (not_lt_of_gt (hys c (by simp)))
    · cases cs with
      | nil => rw [List.append_nil]
      | cons c cs => exact absurd (hxs c (by simp)) (not_lt_of_gt (hbs c (by simp)))

/-! ### Changing the entries -/

theorem insertIdx_length_append {α : Type} : ∀ (xs ys : List α) (a : α),
    (xs ++ ys).insertIdx xs.length a = xs ++ a :: ys
  | [], _, _ => List.insertIdx_zero
  | x :: xs, ys, a => by
    rw [List.cons_append, List.length_cons, List.insertIdx_succ_cons, insertIdx_length_append xs,
      List.cons_append]

theorem eraseIdx_length_append {α : Type} (xs ys : List α) (a : α) :
    (xs ++ a :: ys).eraseIdx xs.length = xs ++ ys := by
  rw [List.eraseIdx_append_of_length_le (Nat.le_refl _), Nat.sub_self]
  rfl

omit [LinearOrder κ] [K.Lawful] in
theorem insertIdx_ofItems (xs ys : List (κ × π)) (i : κ × π) :
    (ofItems K P capacity (xs ++ ys) last).insertIdx xs.length (record K P i) =
      ofItems K P capacity (xs ++ i :: ys) last := by
  have h : ((xs ++ ys).map (record K P)).insertIdx xs.length (record K P i) =
      (xs ++ i :: ys).map (record K P) := by
    rw [List.map_append, List.map_append, List.map_cons,
      ← insertIdx_length_append (xs.map (record K P)), List.length_map]
  rw [insertIdx, entries_ofItems, h]
  rfl

omit [LinearOrder κ] [K.Lawful] in
theorem removeAt_ofItems (xs ys : List (κ × π)) (i : κ × π) :
    (ofItems K P capacity (xs ++ i :: ys) last).removeAt xs.length =
      .ok (record K P i, ofItems K P capacity (xs ++ ys) last) := by
  have hentry : (ofItems K P capacity (xs ++ i :: ys) last).entry xs.length =
      .ok (record K P i) := entry_ofItems (by simp)
  have herase : ((xs ++ i :: ys).map (record K P)).eraseIdx xs.length =
      (xs ++ ys).map (record K P) := by
    have htaken := eraseIdx_length_append (xs.map (record K P)) (ys.map (record K P)) (record K P i)
    rw [List.length_map] at htaken
    rw [List.map_append, List.map_append, List.map_cons, htaken]
  simp only [removeAt, hentry, bind, Except.bind, pure, Except.pure, entries_ofItems, herase]
  rfl

/-- An item is put in at its key's place. -/
theorem insertOverfull_ofItems {xs ys : List (κ × π)} {i : κ × π}
    (hw : ∀ i ∈ xs ++ ys, WritesItem K P i) (hi : WritesItem K P i) (hs : Ascending (xs ++ ys))
    (hxs : ∀ x ∈ xs, x.1 < i.1) (hys : ∀ y ∈ ys, i.1 < y.1) :
    (ofItems K P capacity (xs ++ ys) last).insertOverfull (record K P i) =
      .ok (xs.length, ofItems K P capacity (xs ++ i :: ys) last) := by
  simp only [insertOverfull, cutEntry_record hi, searchBytes_absent hw hi.1 hs hxs hys, bind,
    Except.bind, pure, Except.pure, insertIdx_ofItems]

omit [LinearOrder κ] [K.Lawful] in
/-- Blocks that fit together merge into the block of all their items. -/
theorem merge_ofItems (xs ys : List (κ × π)) (last' : BlockNumber) :
    (ofItems K P capacity xs last).merge (ofItems K P capacity ys last') =
      if 8 + bytesOf K P (xs ++ ys) ≤ capacity then
        .ok (ofItems K P capacity (xs ++ ys) last')
      else .error (.invalidState .mergeDoesNotFit) := by
  simp only [merge, canMerge, occupied_ofItems, entryBytes_ofItems, capacity_ofItems, Nat.add_zero,
    bytesOf_append, Nat.add_assoc, decide_eq_true_eq]
  simp only [ofItems, List.map_append]

end Block

end PagedMap
