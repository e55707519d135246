/-
# Writing a changed leaf

A leaf that has become too large is cut into halves that are both larger than a
third of the room (`Regime.splitLeaf_ends`). One that is at most half full is
evened out with a neighbour, or merged with one. If neither is done then the leaf
and its neighbour are too large to merge and as even as can be, so the leaf is
large enough as it is (`Regime.tight_of_stuck`).

Key theorems: `Regime.exists_separatorOf`, `Regime.mendLeaf_ends`,
`Regime.writeBackLeaf_fits`, `Regime.writeBackLeaf_ends`.
-/
import PagedMap.Proofs.Block.Shift
import PagedMap.Proofs.Tree.Pairs

namespace PagedMap.Regime

open Block (bytesOf Balanced)

variable {σ κ ν : Type} [Store σ] [LawfulStore σ] [LinearOrder κ] {K : OrderedCodec κ}
  {V : Codec ν} [K.Lawful] {g : Regime K V} {r : Span κ} {n : BlockNumber} {xs ys : List (κ × ν)}

/-! ### Large leaves -/

omit [LinearOrder κ] [K.Lawful] in
theorem tight_leaf (hle : bytesOf K V xs ≤ g.room 0) (hlt : g.room 0 < 3 * bytesOf K V xs) :
    g.Tight 0 ⟨n, xs⟩ := by
  refine ⟨hle, fun hcount => ?_, fun _ => hlt⟩
  obtain rfl : xs = [] := List.eq_nil_of_length_eq_zero hcount
  simp at hlt

omit [LinearOrder κ] [K.Lawful] in
theorem isOverflowed_leaf (hv : g.shape.Valid) {x : LeafNode κ ν} :
    (g.leaf x.items).isOverflowed = true ↔ g.room 0 < g.mass 0 x := by
  have hsize := size_eq hv 0
  rw [leaf, Block.isOverflowed, Block.occupied_ofItems, Block.capacity_ofItems,
    decide_eq_true_iff, mass]
  omega

omit [LinearOrder κ] [K.Lawful] in
/-- A leaf that is more than half full is larger than a third of the room. -/
theorem room_lt_of_not_isUnderflowed (hv : g.shape.Valid)
    (h : (g.leaf xs).isUnderflowed = false) : g.room 0 < 3 * bytesOf K V xs := by
  have hsize := size_eq hv 0
  have hroom := room_ge hv 0
  rw [leaf, Block.isUnderflowed, Block.occupied_ofItems, Block.capacity_ofItems,
    decide_eq_false_iff_not] at h
  omega

/-! ### Separating leaves -/

omit [K.Lawful] in
theorem FairLeaf.append_left {ys : List (κ × ν)} {hi? : Option κ}
    (h : g.FairLeaf r ⟨n, xs ++ ys⟩) (hhi : ∀ i ∈ xs, ∀ b ∈ hi?, i.1 < b) {m : BlockNumber} :
    g.FairLeaf ⟨r.lower?, hi?⟩ ⟨m, xs⟩ :=
  ⟨fun i hi => h.fits i (List.mem_append_left _ hi), (ascending_append.1 h.ascending).1,
    fun i hi => ⟨(h.within i (List.mem_append_left _ hi)).1, hhi i hi⟩⟩

omit [K.Lawful] in
theorem FairLeaf.append_right {lo? : Option κ} (h : g.FairLeaf r ⟨n, xs ++ ys⟩)
    (hlo : ∀ i ∈ ys, ∀ a ∈ lo?, a ≤ i.1) {m : BlockNumber} :
    g.FairLeaf ⟨lo?, r.upper?⟩ ⟨m, ys⟩ :=
  ⟨fun i hi => h.fits i (List.mem_append_right _ hi), (ascending_append.1 h.ascending).2.1,
    fun i hi => ⟨hlo i hi, (h.within i (List.mem_append_right _ hi)).2⟩⟩

omit [K.Lawful] in
theorem FairLeaf.append {k : κ} {m : BlockNumber} (h : g.FairLeaf ⟨r.lower?, some k⟩ ⟨n, xs⟩)
    (h' : g.FairLeaf ⟨some k, r.upper?⟩ ⟨m, ys⟩) (hr : ∀ a ∈ r.lower?, a < k)
    (hr' : ∀ b ∈ r.upper?, k < b) : g.FairLeaf r ⟨n, xs ++ ys⟩ := by
  have hlt : ∀ i ∈ xs, i.1 < k := fun i hi => (h.within i hi).2 k rfl
  have hle : ∀ i ∈ ys, k ≤ i.1 := fun i hi => (h'.within i hi).1 k rfl
  refine ⟨fun i hi => ?_, ascending_append.2 ⟨h.ascending, h'.ascending,
    fun i hi j hj => lt_of_lt_of_le (hlt i hi) (hle j hj)⟩, fun i hi => ?_⟩
  · exact (List.mem_append.1 hi).elim (h.fits i) (h'.fits i)
  · rcases List.mem_append.1 hi with hi | hi
    · exact ⟨(h.within i hi).1, fun b hb => lt_trans (hlt i hi) (hr' b hb)⟩
    · exact ⟨fun a ha => le_trans (le_of_lt (hr a ha)) (hle i hi), (h'.within i hi).2⟩

/-- Between the items of a leaf and a key after all of them there is a separator. -/
theorem FairLeaf.exists_separator (h : g.FairLeaf r ⟨n, xs⟩) (hne : xs ≠ []) {k : κ}
    (hk : g.FitsKey k) (hlt : ∀ i ∈ xs, i.1 < k) :
    ∃ i z, (g.leaf xs).keyBytes ((g.leaf xs).length - 1) = .ok (K.bytes i) ∧
      K.separate (K.bytes i) (K.bytes k) = .ok (K.bytes z) ∧ g.FitsKey z ∧ z ≤ k ∧
      ∀ m, g.FairLeaf ⟨r.lower?, some z⟩ ⟨m, xs⟩ := by
  obtain ⟨xs', i, rfl⟩ := (List.eq_nil_or_concat' xs).resolve_left hne
  have hi := h.fits i (by simp)
  obtain ⟨z, hsep, hz, hiz, hzk, hwidth⟩ :=
    OrderedCodec.exists_separator hi.writes.1 hk.writes (hlt i (by simp))
  have hlast : (g.leaf (xs' ++ [i])).keyBytes ((g.leaf (xs' ++ [i])).length - 1) =
      .ok (K.bytes i.1) :=
    Block.keyBytes_ofItems (by simp [leaf]) hi.writes
  have hbelow : ∀ a ∈ xs' ++ [i], a.1 < z := by
    intro a ha
    rcases List.mem_append.1 ha with ha | ha
    · exact lt_trans ((ascending_append.1 h.ascending).2.2 a ha i (by simp)) hiz
    · rw [List.mem_singleton.1 ha]
      exact hiz
  refine ⟨i.1, z, hlast, hsep, ⟨hz, Nat.le_trans hwidth hk.width_le⟩, hzk, fun m => ⟨h.fits,
    h.ascending, fun a ha => ⟨(h.within a ha).1, ?_⟩⟩⟩
  rintro _ ⟨⟩
  exact hbelow a ha

/-- There is a key that separates two leaves of which none is empty. -/
theorem exists_separatorOf (h : g.FairLeaf r ⟨n, xs ++ ys⟩) (hxs : xs ≠ []) (hys : ys ≠ []) :
    ∃ k, Tree.separatorOf (g.leaf xs) (g.leaf ys) = .ok (K.bytes k) ∧ g.FitsKey k ∧
      (∀ m, g.FairLeaf ⟨r.lower?, some k⟩ ⟨m, xs⟩) ∧
      ∀ m, g.FairLeaf ⟨some k, r.upper?⟩ ⟨m, ys⟩ := by
  obtain ⟨j, ys', rfl⟩ := List.exists_cons_of_ne_nil hys
  have hj := h.fits j (by simp)
  obtain ⟨-, hupper, hcross⟩ := ascending_append.1 h.ascending
  have hlower : g.FairLeaf ⟨r.lower?, none⟩ ⟨n, xs⟩ := h.append_left fun _ _ _ hb => by cases hb
  obtain ⟨i, k, hlast, hsep, hk, hkj, hfair⟩ :=
    hlower.exists_separator hxs hj.key fun i hi => hcross i hi j (List.mem_cons_self ..)
  have hfirst : (g.leaf (j :: ys')).keyBytes 0 = .ok (K.bytes j.1) :=
    Block.keyBytes_ofItems rfl hj.writes
  refine ⟨k, ?_, hk, hfair, fun m => h.append_right ?_⟩
  · simp only [Tree.separatorOf, hlast, hfirst, bind, Except.bind, hsep]
  · rintro a ha _ ⟨⟩
    rcases List.mem_cons.1 ha with rfl | ha
    · exact hkj
    · exact le_trans hkj (le_of_lt ((ascending_cons.1 hupper).1 a ha))

/-- A leaf that is too large is cut in two. -/
theorem splitLeaf_ends {t : Tree σ K V} (h : g.On t) {x : LeafNode κ ν} (hx : g.FairLeaf r x)
    (hover : g.room 0 < g.mass 0 x) (hbound : g.mass 0 x ≤ g.room 0 + g.third 0) {old : Bytes}
    {M : Heap} (hH : (heap t).Holds [(g.spot 0 x.number, old)] M) (parent? : Option (Parent K)) :
    Ends (Tree.writeBackLeaf parent? x.number (g.leaf x.items)) t
      (g.CutOff 0 r x.number x.items M t)
      fun d t' => g.Stays t t' ∧ g.Halved 0 r x.number x.items M d t' := by
  obtain ⟨n, items⟩ := x
  obtain ⟨xs, ys, rfl, hxs, hys, hsplit, hlower, hupper, hlarge, hlarge'⟩ :=
    Block.split_ofItems (size_eq h.shape_valid 0) (g.third_le 0)
      (fun i hi => (hx.fits i hi).length_le) hover hbound
  obtain ⟨k, hsep, hk, hfair, hfair'⟩ := exists_separatorOf hx hxs hys
  change Block.split (g.leaf (xs ++ ys)) = (.ok (g.leaf ys), g.leaf xs) at hsplit
  unfold Tree.writeBackLeaf
  rw [if_pos ((isOverflowed_leaf h.shape_valid).2 hover)]
  simp only [hsplit]
  refine ends_bind_lift rfl (ends_bind_lift hsep ?_)
  obtain ⟨t₁, hwrite, hstays, hH₁⟩ := writeLeaf_run h (x := ⟨n, xs⟩) hlower hH
  have hhalves (m : BlockNumber) :
      g.Halves 0 r (⟨n, xs⟩ : LeafNode κ ν) k (⟨m, ys⟩ : LeafNode κ ν) :=
    ⟨hk, ⟨hfair n, tight_leaf hlower hlarge⟩, ⟨hfair' m, tight_leaf hupper hlarge'⟩,
      (isOverflowed_leaf h.shape_valid).2 hover, hsplit⟩
  refine ends_bind_of_ok hwrite (Ends.bind ((addLeaf_ends hstays.on hupper hH₁).imp_error ?_) ?_)
  · rintro e _ ⟨he, rfl⟩
    exact (hhalves 0).cutOff hstays he hH₁
  · rintro m t₂ ⟨-, hstays', hH₂⟩
    exact ends_pure ⟨hstays.trans hstays', ⟨n, xs⟩, k, ⟨m, ys⟩, rfl, rfl, hhalves m, rfl,
      hH₂.perm (List.Perm.swap ..)⟩

/-! ### Evening out and merging -/

section Mend

variable {t : Tree σ K V} {keys : List κ} {children : List (Subtree κ ν 0)} {x : LeafNode κ ν}
  {R : Heap} {position : Nat} {p : Neighbours (Leaf K V)}

/-- A pair of neighbouring leaves of which one is `x`. -/
def IsLeafPair (g : Regime K V) (r : Span κ) (keys : List κ) (children : List (Subtree κ ν 0))
    (x : LeafNode κ ν) (H R : Heap) (p : Neighbours (Leaf K V)) : Prop :=
  g.IsPair 0 (fun y => g.leaf (LeafNode.items y)) r keys children x H R p

/-- A change of some of the leaves below an index block is settled. -/
def SettlesLeaves (g : Regime K V) (r : Span κ) (keys : List κ) (children : List (Subtree κ ν 0))
    (position : Nat) (R : Heap) (demand : Demand) (t : Tree σ K V) : Prop :=
  g.Settles 0 r (g.node keys (children.map Subtree.number)) position
    (children.flatMap (Subtree.items 0)) R demand t

omit [K.Lawful] in
/-- Evening out two leaves leaves them balanced. -/
theorem Near.shift {as bs : List κ} {k : κ} {cs ds : List (Subtree κ ν 0)} {y z : LeafNode κ ν}
    {H : Heap} (hn : g.Near 0 r as k bs cs y z ds H R) (hv : g.shape.Valid) :
    ∃ xs ys m, xs ++ ys = y.items ++ z.items ∧
      Block.shift (g.leaf y.items) (g.leaf z.items) = ⟨g.leaf xs, g.leaf ys, m⟩ ∧
      bytesOf K V xs ≤ g.room 0 ∧ bytesOf K V ys ≤ g.room 0 ∧
      Balanced (g.third 0) (bytesOf K V xs) (bytesOf K V ys) ∧
      (m = 0 → xs = y.items ∧ ys = z.items) := by
  have hfits : ∀ i ∈ y.items ++ z.items, (Block.record K V i).length ≤ g.third 0 := by
    intro i hi
    rcases List.mem_append.1 hi with hi | hi
    · exact (hn.lower.fits i hi).length_le
    · exact (hn.upper.fits i hi).length_le
  exact Block.shift_ofItems (size_eq hv 0) hfits hn.lower_le hn.upper_le

omit [K.Lawful] in
/-- The changed leaf is put back. -/
theorem settlesLeaves_nothing {as bs : List κ} {cs ds : List (Subtree κ ν 0)}
    (hole : g.Hole 0 r as bs cs ds) (hx : g.Sound 0 (r.between as bs) x)
    (hH : (heap t).Holds (g.cell 0 x :: (cs.flatMap (g.cells 0) ++ ds.flatMap (g.cells 0))) R) :
    g.SettlesLeaves r (as ++ bs) (cs ++ x :: ds) position R .nothing t := by
  rw [SettlesLeaves, List.flatMap_append, List.flatMap_cons]
  exact settles_nothing _ hole hx hH

/-- Two leaves are evened out, if what is acceptable is large enough. -/
theorem tryShift_ends (position : Nat) (h : g.On t)
    (hp : g.IsLeafPair r keys children x (heap t) R p)
    {accept : Leaf K V → Leaf K V → Bool}
    (hacc : ∀ xs ys, Balanced (g.third 0) (bytesOf K V xs) (bytesOf K V ys) →
      bytesOf K V xs + bytesOf K V ys = p.lower.entryBytes + p.upper.entryBytes →
      accept (g.leaf xs) (g.leaf ys) = true →
      g.room 0 < 3 * bytesOf K V xs ∧ g.room 0 < 3 * bytesOf K V ys) :
    Ends (Tree.tryShift accept p) t (fun _ _ => False)
      (Attempt t (fun d t' => g.Stays t t' ∧ g.SettlesLeaves r keys children position R d t')
        ((0 < (Block.shift p.lower p.upper).moved &&
          accept (Block.shift p.lower p.upper).lower (Block.shift p.lower p.upper).upper) =
            false)) := by
  obtain ⟨as, k, bs, cs, (y : LeafNode κ ν), (z : LeafNode κ ν), ds, rfl, rfl, -, rfl, hn⟩ := hp
  obtain ⟨xs, ys, m, hcat, hshift, hxs, hys, hbal, -⟩ := hn.shift h.shape_valid
  simp only [Tree.tryShift, hshift]
  cases hcond : decide (0 < m) && accept (g.leaf xs) (g.leaf ys) with
  | false => exact ends_pure ⟨rfl, rfl⟩
  | true =>
    have hsum : bytesOf K V xs + bytesOf K V ys = bytesOf K V y.items + bytesOf K V z.items := by
      rw [← Block.bytesOf_append, hcat, Block.bytesOf_append]
    obtain ⟨hlarge, hlarge'⟩ := hacc xs ys hbal (by simpa [leaf] using hsum)
      (Bool.and_eq_true_iff.1 hcond).2
    have hboth : g.FairLeaf (r.between as bs) ⟨y.number, xs ++ ys⟩ := by
      rw [hcat]
      exact hn.lower.append hn.upper hn.lower_lt hn.lt_upper
    have hne : xs ≠ [] ∧ ys ≠ [] := by
      constructor <;> rintro rfl
      · simp at hlarge
      · simp at hlarge'
    obtain ⟨k', hsep, hk', hfair, hfair'⟩ := exists_separatorOf hboth hne.1 hne.2
    obtain ⟨old, old', hH⟩ := hn.holds
    obtain ⟨t₁, hwrite, hstays, hH₁⟩ := writeLeaf_run h (x := ⟨y.number, xs⟩) hxs hH
    obtain ⟨t₂, hwrite', hstays', hH₂⟩ := writeLeaf_run hstays.on (x := ⟨z.number, ys⟩) hys
      (hH₁.perm (List.Perm.swap ..))
    have hy' : g.Sound 0 ⟨(r.between as bs).lower?, some k'⟩ (⟨y.number, xs⟩ : LeafNode κ ν) :=
      ⟨hfair _, tight_leaf hxs hlarge⟩
    have hz' : g.Sound 0 ⟨some k', (r.between as bs).upper?⟩ (⟨z.number, ys⟩ : LeafNode κ ν) :=
      ⟨hfair' _, tight_leaf hys hlarge'⟩
    exact ends_bind_lift hsep (ends_bind_of_ok hwrite (ends_bind_of_ok hwrite' (ends_pure
      ⟨hstays.trans hstays',
        hn.settles_replace h.shape_valid hk' hy' hz' rfl rfl hcat rfl hH₂⟩)))

omit [K.Lawful] in
/-- Two neighbours that fit together make one. -/
theorem Near.mergeLeaves {as bs : List κ} {cs ds : List (Subtree κ ν 0)} {y z : LeafNode κ ν}
    {H : Heap} (hn : g.Near 0 r as k bs cs y z ds H R) (hv : g.shape.Valid)
    (hfits : (g.leaf y.items).canMerge (g.leaf z.items) 0 = true) :
    (g.leaf y.items).merge (g.leaf z.items) = .ok (g.leaf (y.items ++ z.items)) ∧
      g.Sound 0 (r.between as bs) (⟨y.number, y.items ++ z.items⟩ : LeafNode κ ν) := by
  have hsize := size_eq hv 0
  have hle : 8 + bytesOf K V (y.items ++ z.items) ≤ g.size 0 := by
    rw [leaf, leaf, Block.canMerge, Block.occupied_ofItems, Block.entryBytes_ofItems,
      Block.capacity_ofItems, decide_eq_true_iff] at hfits
    rw [Block.bytesOf_append]
    omega
  have hmass : bytesOf K V (y.items ++ z.items) ≤ g.room 0 := by omega
  exact ⟨(Block.merge_ofItems y.items z.items noBlock).trans (if_pos hle),
    hn.lower.append hn.upper hn.lower_lt hn.lt_upper, Tight.of_both hmass
      (Nat.le_of_eq (Block.bytesOf_append ..).symm) (Nat.le_of_eq List.length_append.symm) hn.tight⟩

/-- Two leaves that fit together are merged. -/
theorem tryMergeLeaves_ends (position : Nat) (h : g.On t)
    (hp : g.IsLeafPair r keys children x (heap t) R p) :
    Ends (Tree.tryMergeLeaves p) t (fun _ _ => False)
      (Attempt t (fun d t' => g.Stays t t' ∧ g.SettlesLeaves r keys children position R d t')
        (p.lower.canMerge p.upper 0 = false)) := by
  obtain ⟨as, k, bs, cs, (y : LeafNode κ ν), (z : LeafNode κ ν), ds, rfl, rfl, -, rfl, hn⟩ := hp
  unfold Tree.tryMergeLeaves
  cases hcond : (g.leaf y.items).canMerge (g.leaf z.items) 0 with
  | false =>
    rw [if_neg (by simp)]
    exact ends_pure ⟨rfl, rfl⟩
  | true =>
    obtain ⟨hmerge, hsound⟩ := hn.mergeLeaves h.shape_valid hcond
    obtain ⟨old, old', hH⟩ := hn.holds
    obtain ⟨t₁, hwrite, hstays, hH₁⟩ :=
      writeLeaf_run h (x := ⟨y.number, y.items ++ z.items⟩) hsound.tight.mass_le hH
    obtain ⟨t₂, hfree, hstays', hH₂⟩ := free_run hstays.on (hH₁.perm (List.Perm.swap ..))
    rw [if_pos rfl]
    exact ends_bind_lift hmerge (ends_bind_of_ok hwrite (ends_bind_of_ok hfree (ends_pure
      ⟨hstays.trans hstays', hn.settles_remove hsound rfl rfl rfl hH₂⟩)))

omit [K.Lawful] in
theorem room_lt_of_not_canMerge (hv : g.shape.Valid) {H : Heap}
    (hp : g.IsLeafPair r keys children x H R p) (hmerge : p.lower.canMerge p.upper 0 = false) :
    g.room 0 < p.lower.entryBytes + p.upper.entryBytes := by
  have hsize := size_eq hv 0
  obtain ⟨as, k, bs, cs, (y : LeafNode κ ν), (z : LeafNode κ ν), ds, -, -, -, rfl, -⟩ := hp
  simp only [leaf, Block.canMerge, Block.occupied_ofItems, Block.entryBytes_ofItems,
    Block.capacity_ofItems, decide_eq_false_iff_not] at hmerge ⊢
  omega

omit [K.Lawful] in
/-- A leaf is large enough if it is as even as can be with a neighbour that it
cannot be merged with. -/
theorem tight_of_stuck (hv : g.shape.Valid) {H : Heap} (hp : g.IsLeafPair r keys children x H R p)
    (hmerge : p.lower.canMerge p.upper 0 = false)
    (hshift : (0 < (Block.shift p.lower p.upper).moved &&
      (!(Block.shift p.lower p.upper).lower.isEmpty &&
        !(Block.shift p.lower p.upper).upper.isEmpty)) = false) : g.Tight 0 x := by
  have hover := room_lt_of_not_canMerge hv hp hmerge
  obtain ⟨as, k, bs, cs, (y : LeafNode κ ν), (z : LeafNode κ ν), ds, -, -, hx, rfl, hn⟩ := hp
  simp only [leaf, Block.entryBytes_ofItems] at hover
  dsimp only at hshift
  obtain ⟨xs, ys, m, hcat, hrun, hxs, hys, hbal, hzero⟩ := hn.shift hv
  have hsum : bytesOf K V xs + bytesOf K V ys = bytesOf K V y.items + bytesOf K V z.items := by
    rw [← Block.bytesOf_append, hcat, Block.bytesOf_append]
  obtain ⟨hlarge, hlarge'⟩ := hbal.large (g.third_le 0) (hsum ▸ hover)
  -- none of the two would be empty, so nothing moved
  have hm : m = 0 := by
    rw [hrun] at hshift
    simp only [leaf, Block.isEmpty_ofItems] at hshift
    cases xs with
    | nil => simp at hlarge
    | cons i xs =>
      cases ys with
      | nil => simp at hlarge'
      | cons j ys => simpa using hshift
  obtain ⟨rfl, rfl⟩ := hzero hm
  rcases hx with rfl | rfl
  · exact tight_leaf hxs hlarge
  · exact tight_leaf hys hlarge'

/-- A leaf is mended at the cost of its neighbours. -/
theorem mendLeaf_ends [V.Lawful] {as bs : List κ} {cs ds : List (Subtree κ ν 0)} {old : Bytes}
    (h : g.On t) (hole : g.Hole 0 r as bs cs ds) (hne : as ++ bs ≠ [])
    (hproper : (r.between as bs).Proper) (hx : g.FairLeaf (r.between as bs) x)
    (hmass : g.mass 0 x ≤ g.room 0)
    (hH : (heap t).Holds ((g.spot 0 x.number, old) :: (cs.flatMap (g.cells 0) ++
      ds.flatMap (g.cells 0))) R) :
    Ends (Tree.mendLeaf ⟨g.node (as ++ bs) ((cs ++ x :: ds).map Subtree.number), as.length⟩
        x.number (g.leaf x.items)) t (fun _ _ => False)
      fun d t' => g.Stays t t' ∧ g.SettlesLeaves r (as ++ bs) (cs ++ x :: ds) as.length R d t' := by
  have hload : ∀ y ∈ cs ++ ds, t.readLeaf y.number = .ok (g.leaf y.items) := by
    intro y hy
    obtain ⟨r', hsound⟩ := hole.sound hy
    have hmem : (g.cell 0 y) ∈ (g.spot 0 x.number, old) :: (cs.flatMap (g.cells 0) ++
        ds.flatMap (g.cells 0)) := by
      rw [← List.flatMap_append]
      exact List.mem_cons_of_mem _ (List.mem_flatMap.2 ⟨y, hy, List.mem_singleton.2 rfl⟩)
    exact readLeaf_eq h (hH.get hmem) hsound.1.fits hsound.2.mass_le
  obtain ⟨ps, hps, hpairs, hps_ne⟩ := pairs_run
    hole hproper hx hmass hH hload
  unfold Tree.mendLeaf
  refine ends_bind_get (ends_bind_lift hps (Ends.attempt (ends_findSomeM? fun p hp =>
    tryShift_ends as.length h (hpairs p hp) ?_) (fun _ _ hq => ends_pure hq) fun _ => ?_))
  · intro xs ys hbal hsum hacc
    simp only [Bool.and_eq_true, Bool.not_eq_true'] at hacc
    exact ⟨room_lt_of_not_isUnderflowed h.shape_valid hacc.1,
      room_lt_of_not_isUnderflowed h.shape_valid hacc.2⟩
  refine Ends.attempt (ends_findSomeM? fun p hp => tryMergeLeaves_ends as.length h (hpairs p hp))
    (fun _ _ hq => ends_pure hq) fun hmerge => ?_
  refine Ends.attempt (ends_findSomeM? fun p hp => tryShift_ends as.length h (hpairs p hp) ?_)
    (fun _ _ hq => ends_pure hq) fun hshift => ?_
  · intro xs ys hbal hsum _
    have hover := room_lt_of_not_canMerge h.shape_valid (hpairs p hp) (hmerge p hp)
    exact hbal.large (g.third_le 0) (hsum ▸ hover)
  -- nothing helps, so the leaf is large enough
  obtain ⟨p, hp⟩ := List.exists_mem_of_ne_nil ps (hps_ne hne)
  have hx' := tight_of_stuck h.shape_valid (hpairs p hp) (hmerge p hp) (hshift p hp)
  obtain ⟨t₁, hwrite, hstays, hH₁⟩ := writeLeaf_run h hmass hH
  exact ends_bind_of_ok hwrite (ends_pure ⟨hstays, settlesLeaves_nothing hole ⟨hx, hx'⟩ hH₁⟩)

/-- A changed leaf that fits is written at the cost of its neighbours. -/
theorem writeBackLeaf_fits [V.Lawful] {as bs : List κ} {cs ds : List (Subtree κ ν 0)} {old : Bytes}
    (h : g.On t) (hole : g.Hole 0 r as bs cs ds) (hne : as ++ bs ≠ [])
    (hproper : (r.between as bs).Proper) (hx : g.FairLeaf (r.between as bs) x)
    (hmass : g.mass 0 x ≤ g.room 0)
    (hH : (heap t).Holds ((g.spot 0 x.number, old) :: (cs.flatMap (g.cells 0) ++
      ds.flatMap (g.cells 0))) R) :
    Ends (Tree.writeBackLeaf
        (some ⟨g.node (as ++ bs) ((cs ++ x :: ds).map Subtree.number), as.length⟩)
        x.number (g.leaf x.items)) t (fun _ _ => False)
      fun d t' => g.Stays t t' ∧ g.SettlesLeaves r (as ++ bs) (cs ++ x :: ds) as.length R d t' := by
  unfold Tree.writeBackLeaf
  rw [if_neg fun hover => Nat.not_lt.2 hmass ((isOverflowed_leaf h.shape_valid).1 hover)]
  cases hunder : (g.leaf x.items).isUnderflowed with
  | true => exact mendLeaf_ends h hole hne hproper hx hmass hH
  | false =>
    obtain ⟨t₁, hwrite, hstays, hH₁⟩ := writeLeaf_run h hmass hH
    have hlarge := room_lt_of_not_isUnderflowed h.shape_valid hunder
    exact ends_bind_of_ok hwrite (ends_pure ⟨hstays, settlesLeaves_nothing hole
      ⟨hx, tight_leaf hmass hlarge⟩ hH₁⟩)

/-- A changed leaf is written, and what that demands of its parent settles the
change. -/
theorem writeBackLeaf_ends [V.Lawful] {as bs : List κ} {cs ds : List (Subtree κ ν 0)} {old : Bytes}
    (h : g.On t) (hole : g.Hole 0 r as bs cs ds) (hne : as ++ bs ≠ [])
    (hproper : (r.between as bs).Proper) (hx : g.FairLeaf (r.between as bs) x)
    (hbound : g.mass 0 x ≤ g.room 0 + g.third 0)
    (hH : (heap t).Holds ((g.spot 0 x.number, old) :: (cs.flatMap (g.cells 0) ++
      ds.flatMap (g.cells 0))) R) :
    Ends (Tree.writeBackLeaf
        (some ⟨g.node (as ++ bs) ((cs ++ x :: ds).map Subtree.number), as.length⟩)
        x.number (g.leaf x.items)) t
      (fun e t' => ∃ M, g.CutOff 0 (r.between as bs) x.number x.items M t e t' ∧
        M.Holds (cs.flatMap (g.cells 0) ++ ds.flatMap (g.cells 0)) R)
      fun d t' => g.Stays t t' ∧ g.SettlesLeaves r (as ++ bs) (cs ++ x :: ds) as.length R d t' := by
  by_cases hmass : g.mass 0 x ≤ g.room 0
  · exact (writeBackLeaf_fits h hole hne hproper hx hmass hH).imp_error fun _ _ he => he.elim
  · have hsplit : (heap t).Holds ([(g.spot 0 x.number, old)] ++ (cs.flatMap (g.cells 0) ++
      ds.flatMap (g.cells 0))) R := hH
    obtain ⟨M, hM, hrest⟩ := Heap.holds_append.1 hsplit
    refine (splitLeaf_ends h hx (Nat.lt_of_not_le hmass) hbound hM _).mono
      (fun _ _ he => ⟨M, he, hrest⟩) ?_
    rintro d t' ⟨hstays, hhalved⟩
    refine ⟨hstays, ?_⟩
    rw [SettlesLeaves, List.flatMap_append, List.flatMap_cons]
    exact Halved.settles h.shape_valid hole hhalved hrest

end Mend

end PagedMap.Regime
