/-
# What a cursor visits

A lower and an upper bound cut a block of items in ascending order into three: what the
lower bound keeps out, what is within both bounds, and what the upper bound keeps out. A
cursor visits the items in the middle (`Cursor.visitAll_ofRange`,
`Block.cursor_ofItems`). If the bounds are the wrong way round nothing is in the middle,
and the cursor's range is empty and begins where the lower bound cuts.

A cursor says that the far bound cut the block short only if it kept out an item of the
block; then it keeps out all that comes after the block as well.

Key definitions: `Bound.liesBelow`, `Bound.liesAbove`, `Bound.refusal?`, `within`,
`inOrder`.
Key theorems: `Cursor.visitAll_ofRange`, `Block.cursor_ofItems`.
-/
import PagedMap.Block.Cursor
import PagedMap.Proofs.Block.Search

namespace PagedMap

/-- A list from its first element to its last, or the other way. -/
def inOrder {α : Type} (descending : Bool) (xs : List α) : List α :=
  if descending then xs.reverse else xs

namespace Bound

variable {κ : Type}

/-- The error with which the bound's key is refused. -/
def refusal? (K : OrderedCodec κ) (b : Bound κ) : Option Error :=
  match b.key?.map K.encode with
  | some (.error e) => some e
  | _ => none

/-- A bound is refused, or its key can be encoded. -/
theorem refusal?_eq_none {K : OrderedCodec κ} {b : Bound κ} :
    b.refusal? K = none ↔ ∀ k, b.key? = some k → K.Writes k := by
  rw [refusal?]
  cases b.key? with
  | none => simp
  | some k =>
    constructor
    · intro h a ha
      obtain rfl := Option.some.inj ha
      cases hencode : K.encode k with
      | ok bs => exact Codec.writes_of_encode hencode
      | error e => simp [hencode] at h
    · intro h
      have hwrite : K.encode k = .ok (K.bytes k) := h k rfl
      simp [hwrite]

theorem refusal?_eq_some {K : OrderedCodec κ} {b : Bound κ} {e : Error} :
    b.refusal? K = some e ↔ ∃ k, b.key? = some k ∧ K.encode k = .error e := by
  rw [refusal?]
  cases b.key? with
  | none => simp
  | some k => cases hencode : K.encode k <;> simp [hencode]

variable [LinearOrder κ] {a k : κ} {b : Bound κ}

/-- As a lower bound it admits the key. -/
def liesBelow : Bound κ → κ → Bool
  | unbounded, _ => true
  | included a, k => a ≤ k
  | excluded a, k => a < k

/-- As an upper bound it admits the key. -/
def liesAbove : Bound κ → κ → Bool
  | unbounded, _ => true
  | included a, k => k ≤ a
  | excluded a, k => k < a

/-- A lower bound that keeps a key out keeps all smaller ones out. -/
theorem liesBelow_anti (h : b.liesBelow k = false) (hle : a ≤ k) : b.liesBelow a = false := by
  cases b with
  | unbounded => exact h
  | included c => exact decide_eq_false (not_le_of_gt (lt_of_le_of_lt hle
      (not_le.1 (of_decide_eq_false h))))
  | excluded c => exact decide_eq_false (not_lt_of_ge (le_trans hle
      (not_lt.1 (of_decide_eq_false h))))

/-- An upper bound that keeps a key out keeps all larger ones out. -/
theorem liesAbove_mono (h : b.liesAbove k = false) (hle : k ≤ a) : b.liesAbove a = false := by
  cases b with
  | unbounded => exact h
  | included c => exact decide_eq_false (not_le_of_gt (lt_of_lt_of_le
      (not_le.1 (of_decide_eq_false h)) hle))
  | excluded c => exact decide_eq_false (not_lt_of_ge (le_trans
      (not_lt.1 (of_decide_eq_false h)) hle))

theorem liesBelow_of_lt (hb : b.key? = some k) (h : a < k) : b.liesBelow a = false := by
  cases b with
  | unbounded => cases hb
  | included c =>
    obtain rfl := Option.some.inj hb
    exact decide_eq_false (not_le_of_gt h)
  | excluded c =>
    obtain rfl := Option.some.inj hb
    exact decide_eq_false (not_lt_of_gt h)

theorem liesAbove_of_lt (hb : b.key? = some k) (h : k < a) : b.liesAbove a = false := by
  cases b with
  | unbounded => cases hb
  | included c =>
    obtain rfl := Option.some.inj hb
    exact decide_eq_false (not_le_of_gt h)
  | excluded c =>
    obtain rfl := Option.some.inj hb
    exact decide_eq_false (not_lt_of_gt h)

end Bound

/-- Both bounds admit the item's key. -/
def within {κ ν : Type} [LinearOrder κ] (lower upper : Bound κ) (i : κ × ν) : Bool :=
  lower.liesBelow i.1 && upper.liesAbove i.1

/-! ### The indices that are visited -/

namespace Cursor

/-- As many visits as there are indices, and one more, reach all of them. -/
theorem visit_eq : ∀ (n start : Nat) (descending : Bool) (current? : Option Nat) (isCut : Bool),
    (visit (n + 1) ⟨start, start + n, descending, current?, isCut⟩).1 =
      inOrder descending (List.range' start n)
  | 0, start, descending, current?, isCut => by
    have hnext : next ⟨start, start, descending, current?, isCut⟩ =
        (none, ⟨start, start, descending, none, isCut⟩) := if_neg (lt_irrefl start)
    rw [visit, Nat.add_zero, hnext]
    cases descending <;> rfl
  | n + 1, start, true, current?, isCut => by
    have hnext : next ⟨start, start + (n + 1), true, current?, isCut⟩ =
        (some (start + n), ⟨start, start + n, true, some (start + n), isCut⟩) :=
      if_pos (by dsimp only; omega)
    rw [visit, hnext]
    dsimp only
    rw [visit_eq n, List.range'_1_concat]
    simp [inOrder]
  | n + 1, start, false, current?, isCut => by
    have hstop : start + (n + 1) = start + 1 + n := by omega
    have hnext : next ⟨start, start + (n + 1), false, current?, isCut⟩ =
        (some start, ⟨start + 1, start + 1 + n, false, some start, isCut⟩) := by
      rw [← hstop]
      exact if_pos (by dsimp only; omega)
    rw [visit, hnext]
    dsimp only
    rw [visit_eq n, List.range'_succ]
    rfl

/-- A cursor visits the indices of its range. -/
theorem visitAll_ofRange (start n length : Nat) (descending : Bool) :
    (ofRange start (start + n) length descending).visitAll.1 =
      inOrder descending (List.range' start n) := by
  rw [visitAll]
  change (visit (start + n - start + 1) _).1 = _
  rw [Nat.add_sub_cancel_left]
  exact visit_eq n start descending none _

end Cursor

/-! ### The items within bounds -/

namespace Block

variable {κ π : Type} [LinearOrder κ] {K : OrderedCodec κ} {P : Codec π} [K.Lawful]
  (capacity : Nat) (last : BlockNumber) {items : List (κ × π)} {lower upper : Bound κ}

omit [LinearOrder κ] [K.Lawful] in
theorem search_eq {b : Block K P} {k : κ} (hw : K.Writes k) :
    b.search k = b.searchBytes (K.bytes k) := by
  have hencode : K.encode k = .ok (K.bytes k) := hw
  rw [search, hencode]
  rfl

omit [LinearOrder κ] [K.Lawful] in
theorem search_refused {b : Block K P} {k : κ} {e : Error} (h : K.encode k = .error e) :
    b.search k = .error e := by
  rw [search, h]
  rfl

/-- The index that the search for a key gives cuts off the items with smaller keys. -/
theorem searchIndex_ofItems {k : κ} (hw : ∀ i ∈ items, WritesItem K P i) (hs : Ascending items)
    (hk : K.Writes k) : ∃ xs ys, items = xs ++ ys ∧
      ((ofItems K P capacity items last).search k).map Place.index = .ok xs.length ∧
      (∀ x ∈ xs, x.1 < k) ∧ ∀ y ∈ ys, k ≤ y.1 := by
  obtain ⟨place, hplace, hamong⟩ : ∃ place, (ofItems K P capacity items last).searchBytes
    (K.bytes k) = .ok place ∧ place.Among k items := searchBytes_ofItems hw hk hs
  obtain ⟨xs, ys, heq, hlen, hxs, hys⟩ := hamong.index hs
  refine ⟨xs, ys, heq, ?_, hxs, hys⟩
  rw [search_eq hk, hplace, hlen]
  rfl

/-- The child that the search for a key gives cuts off the items whose keys are not larger. -/
theorem searchChild_ofItems {k : κ} (hw : ∀ i ∈ items, WritesItem K P i) (hs : Ascending items)
    (hk : K.Writes k) : ∃ xs ys, items = xs ++ ys ∧
      ((ofItems K P capacity items last).search k).map Place.child = .ok xs.length ∧
      (∀ x ∈ xs, x.1 ≤ k) ∧ ∀ y ∈ ys, k < y.1 := by
  obtain ⟨place, hplace, hamong⟩ : ∃ place, (ofItems K P capacity items last).searchBytes
    (K.bytes k) = .ok place ∧ place.Among k items := searchBytes_ofItems hw hk hs
  obtain ⟨xs, ys, heq, hlen, hxs, hys⟩ := hamong.child hs
  refine ⟨xs, ys, heq, ?_, hxs, hys⟩
  rw [search_eq hk, hplace, hlen]
  rfl

/-- A lower bound cuts the items where it begins to admit them. -/
theorem lowerIndex_ofItems (hw : ∀ i ∈ items, WritesItem K P i) (hs : Ascending items)
    (hlower : lower.refusal? K = none) : ∃ xs ys, items = xs ++ ys ∧
      (ofItems K P capacity items last).lowerIndex lower = .ok xs.length ∧
      (∀ x ∈ xs, lower.liesBelow x.1 = false) ∧ ∀ y ∈ ys, lower.liesBelow y.1 = true := by
  rw [Bound.refusal?_eq_none] at hlower
  cases lower with
  | unbounded => exact ⟨[], items, rfl, rfl, by simp, fun _ _ => rfl⟩
  | included k =>
    obtain ⟨xs, ys, heq, hindex, hxs, hys⟩ := searchIndex_ofItems capacity last hw hs (hlower k rfl)
    exact ⟨xs, ys, heq, hindex, fun x hx => decide_eq_false (not_le_of_gt (hxs x hx)),
      fun y hy => decide_eq_true (hys y hy)⟩
  | excluded k =>
    obtain ⟨xs, ys, heq, hindex, hxs, hys⟩ := searchChild_ofItems capacity last hw hs (hlower k rfl)
    exact ⟨xs, ys, heq, hindex, fun x hx => decide_eq_false (not_lt_of_ge (hxs x hx)),
      fun y hy => decide_eq_true (hys y hy)⟩

/-- An upper bound cuts the items where it ceases to admit them. -/
theorem upperIndex_ofItems (hw : ∀ i ∈ items, WritesItem K P i) (hs : Ascending items)
    (hupper : upper.refusal? K = none) : ∃ xs ys, items = xs ++ ys ∧
      (ofItems K P capacity items last).upperIndex upper = .ok xs.length ∧
      (∀ x ∈ xs, upper.liesAbove x.1 = true) ∧ ∀ y ∈ ys, upper.liesAbove y.1 = false := by
  rw [Bound.refusal?_eq_none] at hupper
  cases upper with
  | unbounded => exact ⟨items, [], by simp, by simp [upperIndex], fun _ _ => rfl, by simp⟩
  | included k =>
    obtain ⟨xs, ys, heq, hindex, hxs, hys⟩ := searchChild_ofItems capacity last hw hs (hupper k rfl)
    exact ⟨xs, ys, heq, hindex, fun x hx => decide_eq_true (hxs x hx),
      fun y hy => decide_eq_false (not_le_of_gt (hys y hy))⟩
  | excluded k =>
    obtain ⟨xs, ys, heq, hindex, hxs, hys⟩ := searchIndex_ofItems capacity last hw hs (hupper k rfl)
    exact ⟨xs, ys, heq, hindex, fun x hx => decide_eq_true (hxs x hx),
      fun y hy => decide_eq_false (not_lt_of_ge (hys y hy))⟩

/-- The bounds cut the items into what the lower bound keeps out, what is within both, and
what the upper bound keeps out; a cursor goes over what is within both. -/
theorem cursor_ofItems (hw : ∀ i ∈ items, WritesItem K P i) (hs : Ascending items)
    (hlower : lower.refusal? K = none) (hupper : upper.refusal? K = none) (descending : Bool) :
    ∃ xs ys zs, items = xs ++ (ys ++ zs) ∧
      (ofItems K P capacity items last).cursor lower upper descending =
        .ok (.ofRange xs.length (xs.length + ys.length) items.length descending) ∧
      (∀ x ∈ xs, lower.liesBelow x.1 = false) ∧ (∀ y ∈ ys, within lower upper y = true) ∧
      ∀ z ∈ zs, upper.liesAbove z.1 = false := by
  obtain ⟨xs, ys, heq, hstart, hxs, hys⟩ :=
    lowerIndex_ofItems capacity last hw hs hlower
  obtain ⟨xs', ys', heq', hstop, hxs', hys'⟩ :=
    upperIndex_ofItems capacity last hw hs hupper
  have hcursor : (ofItems K P capacity items last).cursor lower upper descending =
      .ok (.ofRange xs.length (max xs'.length xs.length) items.length descending) := by
    simp only [cursor, hstart, hstop, bind, Except.bind, pure, Except.pure, length_ofItems]
  -- which of the two bounds cuts first
  rcases List.append_eq_append_iff.1 (heq.symm.trans heq') with ⟨ms, rfl, rfl⟩ | ⟨ms, rfl, rfl⟩
  · refine ⟨xs, ms, ys', by rw [heq], ?_, hxs, fun y hy => ?_, hys'⟩
    · rw [hcursor, List.length_append, max_eq_left (Nat.le_add_right ..)]
    · exact Bool.and_eq_true_iff.2 ⟨hys y (by simp [hy]), hxs' y (by simp [hy])⟩
  · refine ⟨xs' ++ ms, [], ys, by simp [heq], ?_, hxs, by simp, fun z hz => hys' z (by simp [hz])⟩
    rw [hcursor, List.length_append, max_eq_right (Nat.le_add_right ..)]
    rfl

omit [LinearOrder κ] [K.Lawful] in
theorem lowerIndex_refused {b : Block K P} {e : Error} (h : lower.refusal? K = some e) :
    b.lowerIndex lower = .error e := by
  obtain ⟨k, hk, he⟩ := Bound.refusal?_eq_some.1 h
  have hsearch := search_refused (b := b) he
  cases lower with
  | unbounded => cases hk
  | included a =>
    obtain rfl := Option.some.inj hk
    rw [lowerIndex, hsearch]
    rfl
  | excluded a =>
    obtain rfl := Option.some.inj hk
    rw [lowerIndex, hsearch]
    rfl

omit [LinearOrder κ] [K.Lawful] in
theorem upperIndex_refused {b : Block K P} {e : Error} (h : upper.refusal? K = some e) :
    b.upperIndex upper = .error e := by
  obtain ⟨k, hk, he⟩ := Bound.refusal?_eq_some.1 h
  have hsearch := search_refused (b := b) he
  cases upper with
  | unbounded => cases hk
  | included a =>
    obtain rfl := Option.some.inj hk
    rw [upperIndex, hsearch]
    rfl
  | excluded a =>
    obtain rfl := Option.some.inj hk
    rw [upperIndex, hsearch]
    rfl

/-- A bound whose key cannot be encoded is refused, the lower one first. -/
theorem cursor_refused (hw : ∀ i ∈ items, WritesItem K P i) (hs : Ascending items) {e : Error}
    (h : (lower.refusal? K).or (upper.refusal? K) = some e) (descending : Bool) :
    (ofItems K P capacity items last).cursor lower upper descending = .error e := by
  rcases Option.or_eq_some_iff.1 h with hlower | ⟨hlower, hupper⟩
  · rw [cursor, lowerIndex_refused hlower]
    rfl
  · obtain ⟨xs, ys, -, hstart, -, -⟩ :=
      lowerIndex_ofItems capacity last hw hs hlower
    rw [cursor, hstart]
    simp only [upperIndex_refused hupper, bind, Except.bind]

end Block

end PagedMap
