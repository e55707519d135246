/-
# Editing a leaf

An edit changes what one key has and tells what it had before. Among items in
ascending order there is one place where the key can stand (`Alters`); the items
below and above it stay.

Key definitions: `Alters`, `Regime.Edits`.
Key theorems: `Regime.FairLeaf.alter`, `Regime.edits_insert`, `Regime.edits_erase`.
-/
import PagedMap.Proofs.Tree.Cells
import PagedMap.Tree.Update

namespace PagedMap

variable {κ ν : Type}

/-- The item of a key that has a value. -/
def itemOf (k : κ) (v? : Option ν) : List (κ × ν) := v?.toList.map (Prod.mk k)

theorem mem_itemOf {k : κ} {v? : Option ν} {i : κ × ν} :
    i ∈ itemOf k v? ↔ i.1 = k ∧ i.2 ∈ v? := by
  cases v? with
  | none => simp [itemOf]
  | some v =>
    obtain ⟨a, b⟩ := i
    simp [itemOf, eq_comm]

section Alters

variable [LinearOrder κ] {k : κ} {o o' : Option ν} {items items' : List (κ × ν)}

/-- Between the smaller and the larger keys, what the key has changes. -/
def Alters (k : κ) (o o' : Option ν) (items items' : List (κ × ν)) : Prop :=
  ∃ xs ys, items = xs ++ (itemOf k o ++ ys) ∧ items' = xs ++ (itemOf k o' ++ ys) ∧
    (∀ x ∈ xs, x.1 < k) ∧ ∀ y ∈ ys, k < y.1

/-- There may be more items on either side. -/
theorem Alters.widen (h : Alters k o o' items items') {below above : List (κ × ν)}
    (hbelow : ∀ i ∈ below, i.1 < k) (habove : ∀ i ∈ above, k < i.1) :
    Alters k o o' (below ++ (items ++ above)) (below ++ (items' ++ above)) := by
  obtain ⟨xs, ys, rfl, rfl, hxs, hys⟩ := h
  refine ⟨below ++ xs, ys ++ above, by simp, by simp, fun i hi => ?_, fun i hi => ?_⟩
  · exact (List.mem_append.1 hi).elim (hbelow i) (hxs i)
  · exact (List.mem_append.1 hi).elim (hys i) (habove i)

/-- The item of the key and the other items. -/
theorem Alters.mem_iff (h : Alters k o o' items items') {i : κ × ν} :
    i ∈ items' ↔ i.1 = k ∧ i.2 ∈ o' ∨ i.1 ≠ k ∧ i ∈ items := by
  obtain ⟨xs, ys, rfl, rfl, hxs, hys⟩ := h
  have hxs' : i ∈ xs → i.1 ≠ k := fun hi => ne_of_lt (hxs i hi)
  have hys' : i ∈ ys → i.1 ≠ k := fun hi => ne_of_gt (hys i hi)
  simp only [List.mem_append, mem_itemOf]
  tauto

theorem Alters.old_iff (h : Alters k o o' items items') {v : ν} : (k, v) ∈ items ↔ v ∈ o := by
  obtain ⟨xs, ys, rfl, rfl, hxs, hys⟩ := h
  have hxs' : (k, v) ∉ xs := fun hi => lt_irrefl k (hxs _ hi)
  have hys' : (k, v) ∉ ys := fun hi => lt_irrefl k (hys _ hi)
  simp [mem_itemOf, hxs', hys']

theorem Alters.ascending (h : Alters k o o' items items') (hs : Ascending items) :
    Ascending items' := by
  obtain ⟨xs, ys, rfl, rfl, hxs, hys⟩ := h
  obtain ⟨hx, hrest, hcross⟩ := ascending_append.1 hs
  have hy := (ascending_append.1 hrest).2.1
  have hitem : Ascending (itemOf k o') := by
    cases o' with
    | none => exact List.Pairwise.nil
    | some v => exact List.pairwise_singleton ..
  refine ascending_append.2 ⟨hx, ascending_append.2 ⟨hitem, hy, fun i hi j hj => ?_⟩,
    fun i hi j hj => ?_⟩
  · rw [(mem_itemOf.1 hi).1]
    exact hys j hj
  · rcases List.mem_append.1 hj with hj | hj
    · rw [(mem_itemOf.1 hj).1]
      exact hxs i hi
    · exact hcross i hi j (List.mem_append_right _ hj)

end Alters

/-- By how much an edit changes the number of entries. -/
def SizeChange.gain : SizeChange → Int
  | .same => 0
  | .more => 1
  | .less => -1

namespace Regime

variable [LinearOrder κ] {K : OrderedCodec κ} {V : Codec ν} {g : Regime K V} {k : κ}
  {o o' : Option ν} {items items' : List (κ × ν)} {r : Span κ} {n : BlockNumber}

theorem FairLeaf.alter (h : g.FairLeaf r ⟨n, items⟩) (hk : r.Has k)
    (hfits : ∀ v ∈ o', g.FitsItem (k, v)) (ha : Alters k o o' items items') :
    g.FairLeaf r ⟨n, items'⟩ := by
  refine ⟨fun i hi => ?_, ha.ascending h.ascending, fun i hi => ?_⟩
  · rcases ha.mem_iff.1 hi with ⟨rfl, hv⟩ | ⟨-, hi⟩
    · exact hfits i.2 hv
    · exact h.fits i hi
  · rcases ha.mem_iff.1 hi with ⟨rfl, -⟩ | ⟨-, hi⟩
    · exact hk
    · exact h.within i hi

omit [LinearOrder κ] in
theorem bytesOf_itemOf (hfits : ∀ v ∈ o, g.FitsItem (k, v)) :
    Block.bytesOf K V (itemOf k o) ≤ g.third 0 := by
  cases o with
  | none => exact Nat.zero_le _
  | some v =>
    have := (hfits v rfl).length_le
    simpa [itemOf] using this

/-- The items grow by one item at most. -/
theorem bytesOf_alter (hfits : ∀ v ∈ o', g.FitsItem (k, v)) (ha : Alters k o o' items items') :
    Block.bytesOf K V items' ≤ Block.bytesOf K V items + g.third 0 := by
  obtain ⟨xs, ys, rfl, rfl, -, -⟩ := ha
  have := bytesOf_itemOf hfits
  simp only [Block.bytesOf_append]
  omega

/-- The edit changes what the key has by a function, and answers what it had. -/
def Edits (g : Regime K V) (edit : Leaf K V → Except Error (LeafEdit K V (Option ν))) (k : κ)
    (f : Option ν → Option ν) : Prop :=
  ∀ {r n items}, g.FairLeaf r ⟨n, items⟩ → r.Has k →
    ∃ o items', Alters k o (f o) items items' ∧ (∀ v ∈ f o, g.FitsItem (k, v)) ∧
      (edit (g.leaf items) = .ok (.keep o) ∧ items' = items ∨
        ∃ size, edit (g.leaf items) = .ok (.change (g.leaf items') size o) ∧
          (items'.length : Int) = items.length + size.gain)

variable [K.Lawful] [V.Lawful]

/-- The key's place in a leaf and what it has there. -/
theorem searchBytes_leaf (h : g.FairLeaf r ⟨n, items⟩) (hk : K.Writes k) :
    ∃ xs ys, (∀ x ∈ xs, x.1 < k) ∧ (∀ y ∈ ys, k < y.1) ∧
      ((∃ v, items = xs ++ (k, v) :: ys ∧
          (g.leaf items).searchBytes (K.bytes k) = .ok (.found xs.length) ∧
          (g.leaf items).payload xs.length = .ok v) ∨
        items = xs ++ ys ∧ (g.leaf items).searchBytes (K.bytes k) = .ok (.absent xs.length)) := by
  have hw : ∀ i ∈ items, Block.WritesItem K V i := fun i hi => (h.fits i hi).writes
  obtain ⟨place, hplace, hamong⟩ : ∃ place, (g.leaf items).searchBytes (K.bytes k) = .ok place ∧
    place.Among k items := Block.searchBytes_ofItems hw hk h.ascending
  cases place with
  | found i =>
    obtain ⟨xs, v, ys, rfl, rfl⟩ := hamong
    have haround := Ascending.around h.ascending
    exact ⟨xs, ys, haround.1, haround.2, .inl ⟨v, rfl, hplace,
      Block.payload_ofItems (by simp) (hw (k, v) (by simp))⟩⟩
  | absent i =>
    obtain ⟨xs, ys, rfl, rfl, hxs, hys⟩ := hamong
    exact ⟨xs, ys, hxs, hys, .inr ⟨rfl, hplace⟩⟩

/-- Putting an entry in gives the key its value. -/
theorem edits_insert {v : ν} (hfits : g.FitsItem (k, v)) :
    g.Edits (Tree.insertEdit true (K.bytes k) (Block.record K V (k, v))) k fun _ => some v := by
  intro r n items h hk
  have hw : ∀ i ∈ items, Block.WritesItem K V i := fun i hi => (h.fits i hi).writes
  have hnew : ∀ w ∈ some v, g.FitsItem (k, w) := by
    rintro w ⟨⟩
    exact hfits
  obtain ⟨xs, ys, hxs, hys, ⟨w, rfl, hsearch, hpayload⟩ | ⟨rfl, hsearch⟩⟩ :=
    searchBytes_leaf h hfits.writes.1
  · have hrest : Ascending (xs ++ ys) :=
      List.Pairwise.sublist (List.Sublist.append_left (List.sublist_cons_self ..) xs) h.ascending
    have hremove : (g.leaf (xs ++ (k, w) :: ys)).removeAt xs.length =
        .ok (Block.record K V (k, w), g.leaf (xs ++ ys)) := Block.removeAt_ofItems xs ys (k, w)
    have hinsert : (g.leaf (xs ++ ys)).insertOverfull (Block.record K V (k, v)) =
        .ok (xs.length, g.leaf (xs ++ (k, v) :: ys)) :=
      Block.insertOverfull_ofItems (fun i hi => hw i (by
        rcases List.mem_append.1 hi with hi | hi <;> simp [hi])) hfits.writes hrest hxs hys
    refine ⟨some w, xs ++ (k, v) :: ys, ⟨xs, ys, rfl, rfl, hxs, hys⟩, hnew, .inr ⟨.same, ?_, ?_⟩⟩
    · simp only [Tree.insertEdit, hsearch, hpayload, hremove, hinsert, bind, Except.bind,
        ↓reduceIte, pure, Except.pure]
    · simp [SizeChange.gain]
  · have hinsert : (g.leaf (xs ++ ys)).insertOverfull (Block.record K V (k, v)) =
        .ok (xs.length, g.leaf (xs ++ (k, v) :: ys)) :=
      Block.insertOverfull_ofItems hw hfits.writes h.ascending hxs hys
    refine ⟨none, xs ++ (k, v) :: ys, ⟨xs, ys, rfl, rfl, hxs, hys⟩, hnew, .inr ⟨.more, ?_, ?_⟩⟩
    · simp only [Tree.insertEdit, hsearch, hinsert, bind, Except.bind, pure, Except.pure]
    · simp [SizeChange.gain, Int.add_assoc]

/-- Putting an entry in if there is none gives the key its value unless it has
one. -/
theorem edits_insertIfNew {v : ν} (hfits : g.FitsItem (k, v)) :
    g.Edits (Tree.insertEdit false (K.bytes k) (Block.record K V (k, v))) k
      fun o => o.or (some v) := by
  intro r n items h hk
  have hw : ∀ i ∈ items, Block.WritesItem K V i := fun i hi => (h.fits i hi).writes
  obtain ⟨xs, ys, hxs, hys, ⟨w, rfl, hsearch, hpayload⟩ | ⟨rfl, hsearch⟩⟩ :=
    searchBytes_leaf h hfits.writes.1
  · refine ⟨some w, xs ++ (k, w) :: ys, ⟨xs, ys, rfl, rfl, hxs, hys⟩, ?_, .inl ⟨?_, rfl⟩⟩
    · rintro u ⟨⟩
      exact h.fits (k, w) (by simp)
    · simp only [Tree.insertEdit, hsearch, hpayload, bind, Except.bind, Bool.false_eq_true,
        ↓reduceIte, pure, Except.pure]
  · have hinsert : (g.leaf (xs ++ ys)).insertOverfull (Block.record K V (k, v)) =
        .ok (xs.length, g.leaf (xs ++ (k, v) :: ys)) :=
      Block.insertOverfull_ofItems hw hfits.writes h.ascending hxs hys
    refine ⟨none, xs ++ (k, v) :: ys, ⟨xs, ys, rfl, rfl, hxs, hys⟩, ?_, .inr ⟨.more, ?_, ?_⟩⟩
    · rintro u ⟨⟩
      exact hfits
    · simp only [Tree.insertEdit, hsearch, hinsert, bind, Except.bind, pure, Except.pure]
    · simp [SizeChange.gain, Int.add_assoc]

/-- Taking an entry out leaves the key without a value. -/
theorem edits_erase (hk : K.Writes k) :
    g.Edits (Tree.eraseEdit (K.bytes k)) k fun _ => none := by
  intro r n items h _
  obtain ⟨xs, ys, hxs, hys, ⟨w, rfl, hsearch, hpayload⟩ | ⟨rfl, hsearch⟩⟩ := searchBytes_leaf h hk
  · have hremove : (g.leaf (xs ++ (k, w) :: ys)).removeAt xs.length =
        .ok (Block.record K V (k, w), g.leaf (xs ++ ys)) := Block.removeAt_ofItems xs ys (k, w)
    refine ⟨some w, xs ++ ys, ⟨xs, ys, rfl, rfl, hxs, hys⟩, (fun _ hu => nomatch hu),
      .inr ⟨.less, ?_, ?_⟩⟩
    · simp only [Tree.eraseEdit, hsearch, hpayload, hremove, bind, Except.bind, pure, Except.pure]
    · simp [SizeChange.gain]
      omega
  · refine ⟨none, xs ++ ys, ⟨xs, ys, rfl, rfl, hxs, hys⟩, (fun _ hu => nomatch hu),
      .inl ⟨?_, rfl⟩⟩
    simp only [Tree.eraseEdit, hsearch, bind, Except.bind, pure, Except.pure]

end Regime

end PagedMap
