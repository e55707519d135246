/-
# Filling a tree leaf by leaf

While a tree is being filled the entries seen so far are those below the spine and
those of the open leaf (`Regime.Filled`). The leaf written last is to the left of the
last separator (`Regime.Trails`), so that the open leaf can be evened out with it in
the end. What is then left is a spine and a leaf that closes it
(`Regime.finish_ends`).

Key definitions: `Regime.Filled`, `Regime.Trails`, `Regime.Seen`, `Regime.Refuses`.
Key theorems: `Regime.closeLeaf_ends`, `Regime.add_entry_ends`,
`Regime.evenOutLast_ends`, `Regime.addAll_ends`.
-/
import PagedMap.Proofs.Tree.Limits
import PagedMap.Proofs.Tree.Spine

namespace PagedMap.Regime

open Block (bytesOf)

variable {σ κ ν : Type} [Store σ] [LawfulStore σ] [LinearOrder κ] {K : OrderedCodec κ}
  {V : Codec ν} {g : Regime K V} {R : Heap} {l l' : Loading σ K V} {lo? : Option κ}
  {items xs : List (κ × ν)} {k : κ} {v : ν}

/-- The blocks that were written hold some items, and the open leaf those after them. -/
structure Filled (g : Regime K V) (lo? : Option κ) (items xs : List (κ × ν)) (R : Heap)
    (l : Loading σ K V) : Prop where
  on : g.On l.tree
  leaf_eq : l.leaf = g.leaf xs
  fair : ∀ n, g.FairLeaf ⟨lo?, none⟩ ⟨n, xs⟩
  bytesOf_le : bytesOf K V xs ≤ g.room 0
  spine : ∃ cells, g.Spine 0 l.levels lo? items cells ∧ (heap l.tree).Holds cells R

/-- The leaf written last is next to the last separator, and larger than a third of
the room. -/
def Trails (g : Regime K V) (lo? : Option κ) (items : List (κ × ν)) (R : Heap)
    (l : Loading σ K V) : Prop :=
  ∀ p ∈ l.previous?, ∃ k ps items' cells, lo? = some k ∧ p.2 = g.leaf ps ∧ items = items' ++ ps ∧
    g.Edge 0 l.levels k (⟨p.1, ps⟩ : LeafNode κ ν) items' cells ∧ g.room 0 < 3 * bytesOf K V ps ∧
    (heap l.tree).Holds (g.cell 0 ⟨p.1, ps⟩ :: cells) R

/-- The entries were seen so far. -/
structure Seen (g : Regime K V) (seen : List (κ × ν)) (R : Heap) (l : Loading σ K V) : Prop where
  fits : ∀ i ∈ seen, g.FitsItem i
  ascending : Ascending seen
  count_eq : l.count = seen.length
  lastKey_eq : l.lastKey? = seen.getLast?.map fun i => K.bytes i.1
  filled : ∃ lo? items xs, g.Filled lo? items xs R l ∧ g.Trails lo? items R l ∧
    items ++ xs = seen ∧ (items ≠ [] → xs ≠ [])

/-- The entries are in ascending order, and within the limits. -/
structure Loadable (g : Regime K V) (entries : List (κ × ν)) : Prop where
  ascending : Ascending entries
  fits : ∀ i ∈ entries, g.FitsItem i

omit [Store σ] [LawfulStore σ] in
theorem Loadable.sublist {entries entries' : List (κ × ν)} (h : g.Loadable entries')
    (hsub : entries.Sublist entries') : g.Loadable entries :=
  ⟨h.ascending.sublist hsub, fun i hi => h.fits i (hsub.subset hi)⟩

/-- Why one of the entries is not added. -/
def Refuses (g : Regime K V) (entries : List (κ × ν)) (e : Error) : Prop :=
  IsOutOfSpace e ∨ IsInvalidArgument e ∧ ¬ g.Loadable entries ∨
    ∃ i ∈ entries, K.encode i.1 = .error e ∨ V.encode i.2 = .error e

theorem Refuses.mono {entries entries' : List (κ × ν)} {e : Error} (h : g.Refuses entries e)
    (hsub : entries.Sublist entries') : g.Refuses entries' e :=
  h.imp_right fun h => h.imp (fun ⟨he, hnot⟩ => ⟨he, fun hall => hnot (hall.sublist hsub)⟩)
    fun ⟨i, hi, he⟩ => ⟨i, hsub.subset hi, he⟩

section Leaf

variable [K.Lawful]

/-- A leaf that is full is written, and a separator for it goes up. -/
theorem closeLeaf_ends (h : g.Filled lo? items xs R l) (hfull : g.room 0 < 3 * bytesOf K V xs)
    (hk : g.FitsKey k) (hlt : ∀ i ∈ xs, i.1 < k) :
    Ends (Loading.closeLeaf (K.bytes k)) l g.Stops fun _ l' =>
      l'.count = l.count ∧ l'.lastKey? = l.lastKey? ∧ ∃ z, z ≤ k ∧
        g.Filled (some z) (items ++ xs) [] R l' ∧ g.Trails (some z) (items ++ xs) R l' := by
  obtain ⟨cells, hspine, hH⟩ := h.spine
  have hne : xs ≠ [] := fun hnil => by simp [hnil] at hfull
  obtain ⟨i, z, hlow, hsep, hz, hzk, hfair⟩ := (h.fair 0).exists_separator hne hk hlt
  have hsound (n : BlockNumber) : g.Sound 0 ⟨lo?, some z⟩ (⟨n, xs⟩ : LeafNode κ ν) :=
    ⟨hfair n, tight_leaf h.bytesOf_le hfull⟩
  rw [Loading.closeLeaf]
  refine ends_bind_get (ends_bind_set ?_)
  rw [h.leaf_eq]
  refine ends_bind_lift hlow (ends_bind_lift hsep ?_)
  let l₀ : Loading σ K V := { l with leaf := (g.leaf xs).cleared }
  have hends := addLeaf_ends (t := l₀.tree) h.on h.bytesOf_le hH
  refine (loading_allocate_ends (l := l₀) h.on hends).bind ?_
  rintro n l₁ ⟨hkeeps, -, hstays, hH₁⟩
  rw [h.on.blockSize_eq]
  have hlevels : l₁.levels = l.levels := hkeeps.levels
  rw [← hlevels] at hspine ⊢
  have hcells : (heap l₁.tree).Holds
      (g.cells 0 (⟨n, xs⟩ : LeafNode κ ν) ++ cells) R := hH₁
  refine (addSeparator_ends hstays.on hspine hz (hsound n) hcells).bind ?_
  rintro levels l₂ ⟨hkeeps', hstays', cells', hedge, hH₂⟩
  obtain ⟨cells'', hspine', hperm⟩ := hedge.spine
  refine ends_modify ⟨hkeeps'.count.trans hkeeps.count, hkeeps'.lastKey.trans hkeeps.lastKey, z,
    hzk, ⟨hstays'.on, ?_, fun m => ?_, Nat.zero_le _, cells'', hspine', hH₂.perm hperm.symm⟩, ?_⟩
  · exact hkeeps'.leaf.trans hkeeps.leaf
  · exact ⟨List.forall_mem_nil _, List.Pairwise.nil, List.forall_mem_nil _⟩
  · rintro p ⟨⟩
    exact ⟨z, xs, items, cells', rfl, rfl, rfl, hedge, hfull, hH₂⟩

/-! ### Adding entries -/

omit [Store σ] [LawfulStore σ] [K.Lawful] in
/-- An open block has items below it. -/
theorem Spine.eq_nil {level : Nat} {levels : List (Index K)} {cells : List Cell}
    (h : g.Spine level levels lo? items cells) (hnil : items = []) : levels = [] ∧ lo? = none := by
  cases h with
  | nil => exact ⟨rfl, rfl⟩
  | @cons _ ks cs lo? _ items cells hopens habove =>
    obtain ⟨c, cs', rfl⟩ : ∃ c cs', cs = c :: cs' := by
      refine List.exists_cons_of_ne_nil fun hcs => hopens.ne_nil ?_
      exact List.eq_nil_of_length_eq_zero (by rw [← hopens.before.length, hcs, List.length_nil])
    obtain ⟨r, hc⟩ := hopens.before.of_mem c (List.mem_cons_self ..)
    rw [List.flatMap_cons] at hnil
    exact (hc.fills.ne_nil (List.append_eq_nil_iff.1 (List.append_eq_nil_iff.1 hnil).2).1).elim

omit [K.Lawful] in
/-- What is below the last separator is below a key that comes after the open leaf. -/
theorem Filled.lower_le (h : g.Filled lo? items xs R l) (hne : items ≠ [] → xs ≠ [])
    (hlt : ∀ i ∈ xs, i.1 < k) : ∀ a ∈ lo?, a ≤ k := by
  rintro a ha
  obtain ⟨cells, hspine, -⟩ := h.spine
  have hitems : items ≠ [] := fun hnil => by
    rw [(hspine.eq_nil hnil).2] at ha
    cases ha
  obtain ⟨i, hi⟩ := List.exists_mem_of_ne_nil xs (hne hitems)
  exact le_of_lt (lt_of_le_of_lt (((h.fair 0).within i hi).1 a ha) (hlt i hi))

/-- A key that is not refused is above those seen so far. -/
theorem checkAscending_ends {seen : List (κ × ν)} (h : g.Seen seen R l) (hk : K.Writes k) :
    Ends (Loading.checkAscending (K.bytes k)) l
      (fun e l' => IsInvalidArgument e ∧ l' = l ∧ ¬ ∀ i ∈ seen, i.1 < k)
      fun _ l' => l' = l ∧ ∀ i ∈ seen, i.1 < k := by
  rw [Loading.checkAscending]
  refine ends_bind_get ?_
  rw [h.lastKey_eq]
  obtain rfl | ⟨before, i, rfl⟩ := List.eq_nil_or_concat' seen
  · exact ends_pure ⟨rfl, fun _ hi => by cases hi⟩
  · have hcompare := OrderedCodec.compareEncoded_bytes (h.fits i (by simp)).writes.1 hk
    rw [List.getLast?_concat]
    refine ends_bind_lift hcompare ?_
    cases horder : compare i.1 k with
    | lt =>
      have hik : i.1 < k := compare_lt_iff_lt.1 horder
      refine ends_pure ⟨rfl, fun j hj => ?_⟩
      rcases List.mem_append.1 hj with hj | hj
      · exact lt_trans ((ascending_append.1 h.ascending).2.2 j hj i (by simp)) hik
      · rw [List.mem_singleton.1 hj]
        exact hik
    | eq =>
      have hik : i.1 = k := compare_eq_iff_eq.1 horder
      exact ends_throw ⟨trivial, rfl, fun hall => absurd hik (ne_of_lt (hall i (by simp)))⟩
    | gt =>
      have hki : k < i.1 := compare_gt_iff_gt.1 horder
      exact ends_throw ⟨trivial, rfl, fun hall => lt_asymm hki (hall i (by simp))⟩

omit [LinearOrder κ] [K.Lawful] in
/-- An entry that fits goes into the open leaf. -/
theorem append_leaf (hv : g.shape.Valid) {i : κ × ν}
    (hfits : (g.leaf xs).fits (Block.record K V i) = true) :
    (g.leaf xs).append (Block.record K V i) = .ok (g.leaf (xs ++ [i])) ∧
      bytesOf K V (xs ++ [i]) ≤ g.room 0 := by
  refine ⟨?_, ?_⟩
  · rw [Block.append, if_pos hfits]
    simp only [leaf, Block.ofItems, List.map_append, List.map_singleton]
  · have hsize := size_eq hv 0
    rw [leaf, Block.fits, Block.occupied_ofItems, Block.capacity_ofItems,
      decide_eq_true_iff] at hfits
    rw [Block.bytesOf_append, Block.bytesOf_cons, Block.bytesOf_nil]
    omega

omit [LinearOrder κ] [K.Lawful] in
theorem fits_emptyLeaf (hv : g.shape.Valid) {i : κ × ν} (hi : g.FitsItem i) :
    (g.leaf []).fits (Block.record K V i) = true := by
  have hsize := size_eq hv 0
  have hthird := g.third_le 0
  have hle := hi.length_le
  rw [leaf, Block.fits, Block.occupied_ofItems, Block.capacity_ofItems, decide_eq_true_iff,
    Block.bytesOf_nil]
  omega

omit [LinearOrder κ] [K.Lawful] in
/-- A leaf into which an entry does not fit is larger than a third of the room. -/
theorem room_lt_of_not_fits (hv : g.shape.Valid) {i : κ × ν} (hi : g.FitsItem i)
    (hfits : (g.leaf xs).fits (Block.record K V i) = false) : g.room 0 < 3 * bytesOf K V xs := by
  have hsize := size_eq hv 0
  have hthird := g.third_le 0
  have hle := hi.length_le
  have hroom := room_ge hv 0
  rw [leaf, Block.fits, Block.occupied_ofItems, Block.capacity_ofItems,
    decide_eq_false_iff_not] at hfits
  omega

omit [K.Lawful] in
theorem Filled.append (h : g.Filled lo? items xs R l) (hfits : g.FitsItem (k, v))
    (hlt : ∀ i ∈ xs, i.1 < k) (hlo : ∀ a ∈ lo?, a ≤ k)
    (hle : bytesOf K V (xs ++ [(k, v)]) ≤ g.room 0) {count : Nat} {lastKey? : Option Bytes} :
    g.Filled lo? items (xs ++ [(k, v)]) R
      { l with leaf := g.leaf (xs ++ [(k, v)]), count := count, lastKey? := lastKey? } := by
  refine ⟨h.on, rfl, fun n => ⟨fun i hi => ?_, ascending_append.2 ⟨(h.fair n).ascending,
    List.pairwise_singleton .., fun i hi j hj => ?_⟩, fun i hi => ?_⟩, hle, h.spine⟩
  · rcases List.mem_append.1 hi with hi | hi
    · exact (h.fair n).fits i hi
    · rw [List.mem_singleton.1 hi]
      exact hfits
  · rw [List.mem_singleton.1 hj]
    exact hlt i hi
  · rcases List.mem_append.1 hi with hi | hi
    · exact (h.fair n).within i hi
    · rw [List.mem_singleton.1 hi]
      exact ⟨hlo, fun _ hb => by cases hb⟩

omit [K.Lawful] in
/-- An entry for which there is room is put behind those seen so far. -/
theorem append_entry_ends {seen : List (κ × ν)} (hseen : ∀ i ∈ seen, g.FitsItem i)
    (hs : Ascending seen) (hcount : l.count = seen.length) (h : g.Filled lo? items xs R l)
    (htrails : g.Trails lo? items R l) (hcat : items ++ xs = seen) (hfits : g.FitsItem (k, v))
    (hlt : ∀ i ∈ seen, i.1 < k) (hlo : ∀ a ∈ lo?, a ≤ k)
    (hroom : (g.leaf xs).fits (Block.record K V (k, v)) = true)
    {E : Error → Loading σ K V → Prop} : Ends (do
      let l ← get
      let leaf ← liftM (l.leaf.append (Block.record K V (k, v)))
      set { l with leaf, count := l.count + 1, lastKey? := some (K.bytes k) } :
        Action (Loading σ K V) PUnit) l E fun _ l' => g.Seen (seen ++ [(k, v)]) R l' := by
  obtain ⟨happend, hle⟩ := append_leaf h.on.shape_valid hroom
  have hltx : ∀ i ∈ xs, i.1 < k := fun i hi => hlt i (hcat ▸ List.mem_append_right _ hi)
  refine ends_bind_get ?_
  rw [h.leaf_eq]
  refine ends_bind_lift happend (ends_of_ok rfl ⟨fun i hi => ?_, ascending_append.2 ⟨hs,
    List.pairwise_singleton .., fun i hi j hj => ?_⟩, ?_, ?_, lo?, items, xs ++ [(k, v)],
    h.append hfits hltx hlo hle, htrails, ?_, fun _ => by simp⟩)
  · rcases List.mem_append.1 hi with hi | hi
    · exact hseen i hi
    · rw [List.mem_singleton.1 hi]
      exact hfits
  · rw [List.mem_singleton.1 hj]
    exact hlt i hi
  · rw [List.length_append, hcount]
    rfl
  · rw [List.getLast?_concat]
    rfl
  · rw [← List.append_assoc, hcat]

/-- An entry is added after those seen so far. -/
theorem add_entry_ends {seen : List (κ × ν)} (h : g.Seen seen R l) (i : κ × ν) :
    Ends (Loading.add i) l (fun e l' => g.Refuses (seen ++ [i]) e ∧ g.On l'.tree)
      fun _ l' => g.Seen (seen ++ [i]) R l' := by
  obtain ⟨k, v⟩ := i
  obtain ⟨lo?, items, xs, hfilled, htrails, hcat, hne⟩ := h.filled
  rw [Loading.add]
  refine ends_bind_get ?_
  cases hencode : l.tree.encodeEntry k v with
  | error e =>
    refine ⟨.inr ((encodeEntry_error hfilled.on hencode).imp (fun he => ⟨he, fun hall => ?_⟩)
      fun he => ⟨(k, v), by simp, he⟩), hfilled.on⟩
    rw [encodeEntry_eq hfilled.on (hall.fits _ (by simp))] at hencode
    cases hencode
  | ok b =>
    obtain ⟨hfits, rfl⟩ := encodeEntry_ok hfilled.on hencode
    refine ends_bind_lift rfl (((checkAscending_ends h hfits.writes.1).imp_error ?_).bind ?_)
    · rintro e _ ⟨he, rfl, hnot⟩
      refine ⟨.inr (.inl ⟨he, fun hall => hnot fun j hj => ?_⟩), hfilled.on⟩
      exact (ascending_append.1 hall.ascending).2.2 j hj _ (List.mem_singleton_self _)
    rintro - l₁ ⟨rfl, hlt⟩
    have hltx : ∀ i ∈ xs, i.1 < k := fun i hi => hlt i (hcat ▸ List.mem_append_right _ hi)
    dsimp only
    rw [hfilled.leaf_eq]
    cases hroom : (g.leaf xs).fits (Block.record K V (k, v)) with
    | true =>
      rw [if_neg (by simp)]
      exact append_entry_ends h.fits h.ascending h.count_eq hfilled htrails hcat hfits hlt
        (hfilled.lower_le hne hltx) hroom
    | false =>
      rw [if_pos (by simp)]
      have hfull := room_lt_of_not_fits hfilled.on.shape_valid hfits hroom
      refine ((closeLeaf_ends hfilled hfull hfits.key hltx).imp_error
        fun _ _ he => ⟨.inl he.1, he.2⟩).bind ?_
      rintro - l₂ ⟨hcount, -, z, hzk, hfilled', htrails'⟩
      refine append_entry_ends h.fits h.ascending (hcount.trans h.count_eq) hfilled' htrails'
        ((List.append_nil _).trans hcat) hfits hlt ?_ (fits_emptyLeaf hfilled.on.shape_valid hfits)
      rintro _ ⟨⟩
      exact hzk

/-! ### The last leaf -/

/-- What the last leaf is evened out to. -/
structure EvenedOut (g : Regime K V) (seen : List (κ × ν)) (R : Heap) (l l' : Loading σ K V) :
    Prop where
  count_eq : l'.count = l.count
  levels_eq : l'.levels.length = l.levels.length
  filled : ∃ lo? items xs, g.Filled lo? items xs R l' ∧ items ++ xs = seen ∧
    (items ≠ [] → xs ≠ [])

omit [K.Lawful] in
theorem isEvenedOut {seen : List (κ × ν)} (h : g.Seen seen R l) : g.EvenedOut seen R l l := by
  obtain ⟨lo?, items, xs, hfilled, -, hcat, hne⟩ := h.filled
  exact ⟨rfl, rfl, lo?, items, xs, hfilled, hcat, hne⟩

/-- Evened out, the leaf written last and the open leaf hold what they held, and none is
empty, since the former alone holds more than the longest entry. -/
theorem Filled.evened (h : g.Filled (some k) items xs R l) {n : BlockNumber} {ps : List (κ × ν)}
    (hps : g.Sound 0 ⟨lo?, some k⟩ (⟨n, ps⟩ : LeafNode κ ν))
    (hfull : g.room 0 < 3 * bytesOf K V ps) :
    ∃ ys zs m z, ys ++ zs = ps ++ xs ∧
      Block.shift (g.leaf ps) (g.leaf xs) = ⟨g.leaf ys, g.leaf zs, m⟩ ∧ ys ≠ [] ∧ zs ≠ [] ∧
      bytesOf K V ys ≤ g.room 0 ∧ bytesOf K V zs ≤ g.room 0 ∧
      Tree.separatorOf (g.leaf ys) (g.leaf zs) = .ok (K.bytes z) ∧ g.FitsKey z ∧
      (∀ m, g.FairLeaf ⟨lo?, some z⟩ ⟨m, ys⟩) ∧ ∀ m, g.FairLeaf ⟨some z, none⟩ ⟨m, zs⟩ := by
  have hfits : ∀ i ∈ ps ++ xs, (Block.record K V i).length ≤ g.third 0 := by
    intro i hi
    rcases List.mem_append.1 hi with hi | hi
    · exact (hps.1.fits i hi).length_le
    · exact ((h.fair 0).fits i hi).length_le
  obtain ⟨ys, zs, m, hcat, hshift, hys, hzs, hbal, -⟩ := Block.shift_ofItems
    (size_eq h.on.shape_valid 0) hfits hps.tight.mass_le h.bytesOf_le
  have hsum : bytesOf K V ys + bytesOf K V zs = bytesOf K V ps + bytesOf K V xs := by
    rw [← Block.bytesOf_append, hcat, Block.bytesOf_append]
  have hthird := g.third_le 0
  obtain ⟨hbal, hbal'⟩ := hbal
  have hys_ne : ys ≠ [] := by
    rintro rfl
    rw [Block.bytesOf_nil] at hsum hbal'
    omega
  have hzs_ne : zs ≠ [] := by
    rintro rfl
    rw [Block.bytesOf_nil] at hsum hbal
    omega
  have hboth : g.FairLeaf ⟨lo?, none⟩ ⟨n, ys ++ zs⟩ := by
    rw [hcat]
    exact FairLeaf.append hps.1 (h.fair n) (fun a ha => hps.proper a ha k rfl) fun _ hb => by
      cases hb
  obtain ⟨z, hsep, hz, hfair, hfair'⟩ := exists_separatorOf hboth hys_ne hzs_ne
  exact ⟨ys, zs, m, z, hcat, hshift, hys_ne, hzs_ne, hys, hzs, hsep, hz, hfair, hfair'⟩

/-- The last leaf may be evened out with the one before. -/
theorem evenOutLast_ends (hdense : g.isDense = false) {seen : List (κ × ν)}
    (h : g.Seen seen R l) :
    Ends (Loading.evenOutLast : Action (Loading σ K V) Unit) l g.Stops
      fun _ l' => g.EvenedOut seen R l l' := by
  have hsame := isEvenedOut h
  obtain ⟨lo?, items, xs, hfilled, htrails, hcat, hne⟩ := h.filled
  rw [Loading.evenOutLast]
  refine ends_bind_get ?_
  cases hprevious : l.previous? with
  | none => exact ends_pure hsame
  | some p =>
    obtain ⟨n, previous⟩ := p
    obtain ⟨k, ps, items', cells, rfl, rfl, rfl, hedge, hfull, hH⟩ := htrails _ hprevious
    obtain ⟨ks, cs, lo?, above, items', cells, hlevels, hopens, habove, rfl, rfl⟩ := hedge
    obtain ⟨hbefore, hprev⟩ := before_concat.1 hopens.before
    have hlen : cs.length = ks.length := hbefore.length
    obtain ⟨ys, zs, m, z, hcatyz, hshift, hys_ne, hzs_ne, hys, hzs, hsep, hz, hfair, hfair'⟩ :=
      hfilled.evened hprev hfull
    rw [hfilled.leaf_eq, hlevels]
    dsimp only
    rw [hshift]
    by_cases hunder : (g.leaf xs).isUnderflowed = true
    swap
    · rw [if_neg hunder]
      exact ends_pure hsame
    rw [if_pos hunder]
    by_cases hmoved : 0 < m
    swap
    · rw [if_neg hmoved]
      exact ends_pure hsame
    rw [if_pos hmoved]
    have hreplace := opened_replace (g := g) hlen (fun a ha => (hopens.fits a ha).writes) z
      (⟨n, ps⟩ : LeafNode κ ν) (⟨n, ys⟩ : LeafNode κ ν) rfl
    refine ends_bind_lift hsep (ends_bind_lift hreplace ?_)
    -- the separator between the evened leaves may be too long for the block above them
    cases hover : (g.opened (ks ++ [z]) (cs ++ [(⟨n, ys⟩ : LeafNode κ ν)])).isOverflowed with
    | true => exact ends_pure hsame
    | false =>
      have hsound : g.Sound 0 ⟨ks.getLast?.or lo?, some z⟩ (⟨n, ys⟩ : LeafNode κ ν) :=
        ⟨hfair n, hys, fun hcount => hys_ne (List.eq_nil_of_length_eq_zero hcount),
          fun hd => by rw [hdense] at hd; cases hd⟩
      have hweight := weight_le_of_not_isOverflowed hfilled.on.shape_valid (by simp [hlen]) hover
      have hedge : g.Edge 0 _ z (⟨n, ys⟩ : LeafNode κ ν) _ _ :=
        ⟨ks, cs, lo?, above, items', cells, rfl, hopens.exchange hz hweight hsound, habove,
          rfl, rfl⟩
      obtain ⟨cells', hspine, hperm⟩ := hedge.spine
      obtain ⟨t, hwrite, hstays, hH'⟩ := writeLeaf_run hfilled.on (x := ⟨n, ys⟩) hys hH
      refine (ends_onTree (ends_of_ok (E := fun e t' => IsOutOfSpace e ∧ g.On t')
        (Q := fun _ t' => g.On t' ∧ (heap t').Holds _ R) hwrite ⟨hstays.on, hH'⟩)).bind ?_
      rintro - l₁ ⟨hkeeps, hon, hH''⟩
      refine ends_modify ⟨hkeeps.count, by rw [hlevels]; rfl, some z, _, zs, ⟨hon, rfl, hfair', hzs,
        cells', hspine, hH''.perm hperm.symm⟩, ?_, fun _ => hzs_ne⟩
      rw [← hcat, Subtree.items_zero, List.append_assoc _ ys zs, hcatyz, ← List.append_assoc]

/-- What is open is closed, and the uppermost block becomes the root. -/
theorem finish_ends (hdense : g.isDense = false) {seen : List (κ × ν)} (h : g.Seen seen R l) :
    Ends (Loading.finish : Action (Loading σ K V) Unit) l g.Stops
      fun _ l' => g.Holding seen R l'.tree ∧ l'.tree.descriptor.size = seen.length ∧
        l'.tree.descriptor.root.toNat ≤ maxInt32 := by
  rw [Loading.finish]
  refine (evenOutLast_ends hdense h).bind ?_
  rintro - l₁ ⟨hcount, -, lo?, items, xs, hfilled, hcat, hne⟩
  obtain ⟨cells, hspine, hH⟩ := hfilled.spine
  refine ends_bind_get ?_
  rw [hfilled.leaf_eq]
  refine (loading_allocate_ends hfilled.on (addLeaf_ends hfilled.on hfilled.bytesOf_le hH)).bind ?_
  rintro n l₂ ⟨hkeeps, hn, hstays, hH₁⟩
  have hn' := Nat.le_trans (Nat.le_of_lt hn) (hfilled.on.shape_valid.maxBlocks_le .leaf)
  have hcells : (heap l₂.tree).Holds (g.cells 0 (⟨n, xs⟩ : LeafNode κ ν) ++ cells) R := hH₁
  have hcount' : 0 ≠ 0 ∨ l₁.levels ≠ [] → Subtree.count 0 (⟨n, xs⟩ : LeafNode κ ν) ≠ 0 := by
    rintro (h0 | hlevels) hzero
    · exact h0 rfl
    · have hitems : items ≠ [] := fun hnil => hlevels (hspine.eq_nil hnil).1
      exact hne hitems (List.eq_nil_of_length_eq_zero hzero)
  refine (writeLevels_ends hdense hstays.on hspine (hfilled.fair n) hfilled.bytesOf_le hcount' hn'
    hcells).bind ?_
  rintro root l₃ ⟨-, hstays', hroot, top, x, htop, hnumber, hsound, hitems, hH₂⟩
  refine ends_modify ⟨⟨top, x, ⟨⟨hstays'.on.valid, hstays'.on.shape⟩, hnumber.symm, ?_, hsound,
    hH₂⟩, hitems.trans hcat⟩, ?_, hroot⟩
  · simp only [htop, Nat.zero_add]
  · simp only [hcount, h.count_eq]

theorem forM_add_ends : ∀ {entries seen : List (κ × ν)} {l : Loading σ K V}, g.Seen seen R l →
    Ends (entries.forM Loading.add) l (fun e l' => g.Refuses (seen ++ entries) e ∧ g.On l'.tree)
      fun _ l' => g.Seen (seen ++ entries) R l'
  | [], seen, _, h => by
    rw [List.append_nil]
    exact ends_pure h
  | i :: entries, seen, l, h => by
    refine ((add_entry_ends h i).imp_error ?_).bind fun _ l₁ h₁ => ?_
    · rintro e l' ⟨he, hon⟩
      exact ⟨he.mono (by simp), hon⟩
    · rw [List.append_cons]
      exact forM_add_ends h₁

/-- The tree is filled with all entries. -/
theorem addAll_ends (hdense : g.isDense = false) (entries : List (κ × ν)) (h : g.Seen [] R l) :
    Ends (Loading.addAll entries) l (fun e l' => g.Refuses entries e ∧ g.On l'.tree)
      fun _ l' => g.Holding entries R l'.tree ∧ l'.tree.descriptor.size = entries.length ∧
        l'.tree.descriptor.root.toNat ≤ maxInt32 :=
  (forM_add_ends h).bind fun _ _ h₁ => (finish_ends hdense h₁).imp_error
    (fun _ _ he => ⟨.inl he.1, he.2⟩)

end Leaf

end PagedMap.Regime
