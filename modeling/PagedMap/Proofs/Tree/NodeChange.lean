/-
# Writing a changed index block

An index block that has become too large gives up a separator, and the parts
below and above it are both larger than a sixth of the room
(`Regime.splitNode_ends`). One that is at most half full is evened out with a
neighbour through the separator between them, or merged with one. If neither is
done then the block and its neighbour are too large to merge and no separator
rotates between them, so the block is large enough as it is
(`Regime.tight_of_poised`).

Key theorems: `Regime.mendIndex_ends`, `Regime.writeBackIndex_fits`,
`Regime.writeBackIndex_ends`.
-/
import PagedMap.Proofs.Block.Rotated
import PagedMap.Proofs.Tree.Pairs

namespace PagedMap.Regime

open Index (weight Poised)

variable {σ κ ν : Type} [Store σ] [LawfulStore σ] [LinearOrder κ] {K : OrderedCodec κ}
  {V : Codec ν} [K.Lawful] {g : Regime K V} {level : Nat} {r : Span κ} {n : BlockNumber}
  {ks ls : List κ} {k : κ} {cs ds : List (Subtree κ ν level)}

/-! ### Large index blocks -/

omit [LinearOrder κ] [K.Lawful] in
theorem tight_node (hle : weight K ks ≤ g.room 1) (hlt : g.room 1 < 6 * weight K ks) :
    g.Tight (level + 1) ⟨n, ks, cs⟩ := by
  refine ⟨hle, fun hcount => ?_, fun _ => hlt⟩
  obtain rfl : ks = [] := List.eq_nil_of_length_eq_zero hcount
  simp at hlt

omit [LinearOrder κ] [K.Lawful] in
theorem isOverflowed_block (hv : g.shape.Valid) {x : Subtree κ ν (level + 1)}
    (hlen : x.children.length = x.keys.length + 1) :
    (g.block x).isOverflowed = true ↔ g.room 1 < weight K x.keys := by
  have hsize := size_eq hv 1
  rw [block, node, Block.isOverflowed, Index.occupied_ofParts (by simpa using hlen),
    Index.capacity_ofParts, decide_eq_true_iff]
  omega

omit [LinearOrder κ] [K.Lawful] in
/-- An index block that is more than half full is larger than a sixth of the
room. -/
theorem room_lt_of_not_isUnderflowed_block (hv : g.shape.Valid)
    {x : Subtree κ ν (level + 1)} (hlen : x.children.length = x.keys.length + 1)
    (h : (g.block x).isUnderflowed = false) : g.room 1 < 6 * weight K x.keys := by
  have hsize := size_eq hv 1
  have hroom := room_ge hv 1
  rw [block, node, Block.isUnderflowed, Index.occupied_ofParts (by simpa using hlen),
    Index.capacity_ofParts, decide_eq_false_iff_not] at h
  omega

/-! ### Parts of an index block -/

omit [K.Lawful] in
theorem FairNode.split (h : g.FairNode (g.Sound level) r ⟨n, ks ++ k :: ls, cs ++ ds⟩)
    (hcs : cs.length = ks.length + 1) : g.FitsKey k ∧
      (∀ m, g.FairNode (g.Sound level) ⟨r.lower?, some k⟩ ⟨m, ks, cs⟩) ∧
      ∀ m, g.FairNode (g.Sound level) ⟨some k, r.upper?⟩ ⟨m, ls, ds⟩ := by
  obtain ⟨hlower, hupper⟩ := (chain_append hcs).1 h.chain
  exact ⟨h.fits k (by simp), fun m => ⟨fun a ha => h.fits a (by simp [ha]), hlower⟩,
    fun m => ⟨fun a ha => h.fits a (by simp [ha]), hupper⟩⟩

omit [K.Lawful] in
theorem FairNode.append {m : BlockNumber}
    (h : g.FairNode (g.Sound level) ⟨r.lower?, some k⟩ ⟨n, ks, cs⟩)
    (hk : g.FitsKey k) (h' : g.FairNode (g.Sound level) ⟨some k, r.upper?⟩ ⟨m, ls, ds⟩) :
    g.FairNode (g.Sound level) r ⟨n, ks ++ k :: ls, cs ++ ds⟩ := by
  refine ⟨fun a ha => ?_, (chain_append h.chain.length).2 ⟨h.chain, h'.chain⟩⟩
  rcases List.mem_append.1 ha with ha | ha
  · exact h.fits a ha
  · rcases List.mem_cons.1 ha with rfl | ha
    · exact hk
    · exact h'.fits a ha

/-- An index block that is too large is cut in two. -/
theorem splitNode_ends {t : Tree σ K V} (h : g.On t) {x : Subtree κ ν (level + 1)}
    (hx : g.FairNode (g.Sound level) r x) (hover : g.room 1 < weight K x.keys)
    (hbound : weight K x.keys ≤ g.room 1 + g.third 1) {old : Bytes} {M : Heap}
    (hH : (heap t).Holds
      ((g.spot (level + 1) x.number, old) :: x.children.flatMap (g.cells level)) M)
    (parent? : Option (Parent K)) :
    Ends (Tree.writeBackIndex parent? x.number (g.block x)) t
      (g.CutOff (level + 1) r x.number (x.children.flatMap (Subtree.items level)) M t)
      fun d t' => g.Stays t t' ∧
        g.Halved (level + 1) r x.number (x.children.flatMap (Subtree.items level)) M d t' := by
  have hlen := hx.chain.length
  obtain ⟨n, keys, children⟩ := x
  have hlen' : (children.map Subtree.number).length = keys.length + 1 := by simpa using hlen
  obtain ⟨ks, k, ls, as, bs, rfl, hnumbers, -, -, has, hbs, hpromote, hlower, hupper, hlarge,
    hlarge'⟩ := Index.promote_ofParts (size_eq h.shape_valid 1) (g.third_le 1)
      hlen' (fun k hk => (hx.fits k hk).writes)
      (fun k hk => (hx.fits k hk).length_le h.shape_valid) hover hbound
  obtain ⟨cs, ds, rfl, rfl, rfl⟩ := List.map_eq_append_iff.1 hnumbers
  rw [List.length_map] at has hbs
  obtain ⟨hk, hfair, hfair'⟩ := hx.split has
  change Index.promote (g.block ⟨n, ks ++ k :: ls, cs ++ ds⟩) =
    (.ok (K.bytes k, g.node ls (ds.map Subtree.number)), g.node ks (cs.map Subtree.number))
    at hpromote
  unfold Tree.writeBackIndex
  rw [if_pos ((isOverflowed_block h.shape_valid hlen).2 hover)]
  simp only [hpromote]
  refine ends_bind_lift rfl ?_
  obtain ⟨t₁, hwrite, hstays, hH₁⟩ := writeIndex_run h (x := ⟨n, ks, cs⟩) has hlower hH
  have hhalves (m : BlockNumber) : g.Halves (level + 1) r ⟨n, ks, cs⟩ k ⟨m, ls, ds⟩ :=
    ⟨hk, ⟨hfair n, tight_node hlower hlarge⟩, ⟨hfair' m, tight_node hupper hlarge'⟩,
      (isOverflowed_block h.shape_valid hlen).2 hover, hpromote⟩
  have hitems : cs.flatMap (Subtree.items level) ++ ds.flatMap (Subtree.items level) =
      (cs ++ ds).flatMap (Subtree.items level) := List.flatMap_append.symm
  refine ends_bind_of_ok hwrite (Ends.bind ((addIndex_ends hstays.on _ hbs hupper hH₁).imp_error ?_)
    ?_)
  · -- the upper half gets no block, and nothing leads to what is below it
    rintro e _ ⟨he, rfl⟩
    rw [← hitems]
    refine (hhalves 0).cutOff hstays he ?_
    rw [cells, below, List.cons_append, ← List.flatMap_append]
    exact hH₁
  · rintro m t₂ ⟨-, hstays', hH₂⟩
    refine ends_pure ⟨hstays.trans hstays', ⟨n, ks, cs⟩, k, ⟨m, ls, ds⟩, rfl, rfl, hhalves m,
      hitems, hH₂.perm ?_⟩
    refine List.perm_iff_count.2 fun c => ?_
    simp only [cells, List.flatMap_append, List.count_append, List.count_cons]
    omega

/-! ### Evening out and merging -/

section Mend

variable {t : Tree σ K V} {parent : Index K} {keys : List κ}
  {children : List (Subtree κ ν (level + 1))} {x : Subtree κ ν (level + 1)} {R : Heap}
  {position : Nat} {p : Neighbours (Index K)}

/-- A pair of neighbouring index blocks of which one is `x`. -/
def IsNodePair (g : Regime K V) (r : Span κ) (keys : List κ)
    (children : List (Subtree κ ν (level + 1))) (x : Subtree κ ν (level + 1)) (H R : Heap)
    (p : Neighbours (Index K)) : Prop :=
  g.IsPair (level + 1) g.block r keys children x H R p

/-- A change of some of the index blocks below an index block is settled. -/
def SettlesNodes (g : Regime K V) (r : Span κ) (keys : List κ)
    (children : List (Subtree κ ν (level + 1))) (position : Nat) (R : Heap) (demand : Demand)
    (t : Tree σ K V) : Prop :=
  g.Settles (level + 1) r (g.node keys (children.map Subtree.number)) position
    (children.flatMap (Subtree.items (level + 1))) R demand t

/-- The key of the separator between two neighbours. -/
theorem Near.keyBytes {as bs : List κ} {cs ds : List (Subtree κ ν (level + 1))}
    {y z : Subtree κ ν (level + 1)} {H : Heap} (hn : g.Near (level + 1) r as k bs cs y z ds H R) :
    (g.node (as ++ k :: bs) ((cs ++ y :: z :: ds).map Subtree.number)).keyBytes as.length =
      .ok (K.bytes k) := by
  have hlengths := hn.hole.lengths
  refine Index.keyBytes_ofParts ?_ (fun a ha => (hn.hole.fits_insert hn.fits a ha).writes)
    (by simp)
  simp only [List.length_map, List.length_append, List.length_cons]
  omega

/-- Evening out two index blocks leaves them poised. -/
theorem Near.rotate {as bs : List κ} {cs ds : List (Subtree κ ν (level + 1))}
    {y z : Subtree κ ν (level + 1)} {H : Heap} (hn : g.Near (level + 1) r as k bs cs y z ds H R)
    (hv : g.shape.Valid) :
    ∃ ks k' ls, ∃ us vs : List (Subtree κ ν level), ∃ m,
      ks ++ k' :: ls = y.keys ++ k :: z.keys ∧ us ++ vs = y.children ++ z.children ∧
      us.length = ks.length + 1 ∧ vs.length = ls.length + 1 ∧
      Index.rotate (g.block y) (g.block z) (K.bytes k) =
        .ok ⟨g.node ks (us.map Subtree.number), g.node ls (vs.map Subtree.number), K.bytes k', m⟩ ∧
      weight K ks ≤ g.room 1 ∧ weight K ls ≤ g.room 1 ∧
      Poised (g.room 1) (weight K ks) (K.width k' + 4) (weight K ls) ∧
      (m = 0 → ks = y.keys ∧ k' = k ∧ ls = z.keys) := by
  have hy := FairNode.length hn.lower
  have hz := FairNode.length hn.upper
  have hw : ∀ a ∈ y.keys ++ k :: z.keys, K.Writes a := by
    intro a ha
    rcases List.mem_append.1 ha with ha | ha
    · exact (hn.lower.fits a ha).writes
    · rcases List.mem_cons.1 ha with rfl | ha
      · exact hn.fits.writes
      · exact (hn.upper.fits a ha).writes
  obtain ⟨ks, k', ls, as', bs', m, hkeys, hnumbers, has, hbs, hrun, hks, hls, hpoised, hzero⟩ :=
    Index.rotate_ofParts (size_eq hv 1) hy hz hw hn.lower_le hn.upper_le
  rw [← List.map_append] at hnumbers
  obtain ⟨us, vs, hchildren, rfl, rfl⟩ := List.map_eq_append_iff.1 hnumbers.symm
  rw [List.length_map] at has hbs
  exact ⟨ks, k', ls, us, vs, m, hkeys, hchildren.symm, has, hbs, hrun, hks, hls, hpoised,
    fun hm => ⟨(hzero hm).1, (hzero hm).2.1, (hzero hm).2.2.1⟩⟩

omit [K.Lawful] in
/-- The changed index block is put back. -/
theorem settlesNodes_nothing {as bs : List κ} {cs ds : List (Subtree κ ν (level + 1))}
    (hole : g.Hole (level + 1) r as bs cs ds) (hx : g.Sound (level + 1) (r.between as bs) x)
    (hH : (heap t).Holds (g.cells (level + 1) x ++ (cs.flatMap (g.cells (level + 1)) ++
      ds.flatMap (g.cells (level + 1)))) R) :
    g.SettlesNodes r (as ++ bs) (cs ++ x :: ds) position R .nothing t := by
  rw [SettlesNodes, List.flatMap_append, List.flatMap_cons]
  exact settles_nothing _ hole hx hH

omit [K.Lawful] in
/-- Two neighbours that are divided elsewhere are as well-placed as they were. -/
theorem Near.divide {as bs : List κ} {cs ds : List (Subtree κ ν (level + 1))}
    {y z : Subtree κ ν (level + 1)} {H : Heap} (hn : g.Near (level + 1) r as k bs cs y z ds H R)
    {k' : κ} {us vs : List (Subtree κ ν level)} (hkeys : ks ++ k' :: ls = y.keys ++ k :: z.keys)
    (hchildren : us ++ vs = y.children ++ z.children) (hus : us.length = ks.length + 1) :
    (g.FitsKey k' ∧
      (∀ m, g.FairNode (g.Sound level) ⟨(r.between as bs).lower?, some k'⟩ ⟨m, ks, us⟩) ∧
      ∀ m, g.FairNode (g.Sound level) ⟨some k', (r.between as bs).upper?⟩ ⟨m, ls, vs⟩) ∧
    weight K ks + (K.width k' + 4) + weight K ls =
      (g.block y).entryBytes + (K.width k + 4) + (g.block z).entryBytes := by
  have hboth : g.FairNode (g.Sound level) (r.between as bs)
      ⟨y.number, ks ++ k' :: ls, us ++ vs⟩ := by
    rw [hkeys, hchildren]
    exact FairNode.append hn.lower hn.fits hn.upper
  refine ⟨hboth.split hus, ?_⟩
  have hsum := congrArg (weight K) hkeys
  simp only [Index.weight_append, Index.weight_cons] at hsum
  rw [block, block, node, node, Index.entryBytes_ofParts (FairNode.length hn.lower),
    Index.entryBytes_ofParts (FairNode.length hn.upper)]
  omega

omit [K.Lawful] in
/-- Two neighbours that fit together make one with the separator between them. -/
theorem Near.mergeNodes {as bs : List κ} {cs ds : List (Subtree κ ν (level + 1))}
    {y z : Subtree κ ν (level + 1)} {H : Heap} (hn : g.Near (level + 1) r as k bs cs y z ds H R)
    (hv : g.shape.Valid)
    (hfits : (g.block y).canMerge (g.block z) ((K.bytes k).length + 4) = true) :
    Block.merge (Block.insertIdx (g.block y) (g.block y).length
        (Index.separatorEntry (K.bytes k) (g.block y).last)) (g.block z) =
      .ok (g.node (y.keys ++ k :: z.keys) ((y.children ++ z.children).map Subtree.number)) ∧
    g.Sound (level + 1) (r.between as bs)
      ⟨y.number, y.keys ++ k :: z.keys, y.children ++ z.children⟩ := by
  have hlower := FairNode.length hn.lower
  have hupper := FairNode.length hn.upper
  have hsize := size_eq hv 1
  have hle : 8 + weight K (y.keys ++ k :: z.keys) ≤ g.size 1 := by
    rw [block, block, node, node, Block.canMerge, Index.occupied_ofParts hlower,
      Index.entryBytes_ofParts hupper, Index.capacity_ofParts, decide_eq_true_iff] at hfits
    rw [Index.weight_append, Index.weight_cons, Codec.width]
    omega
  have hmass : weight K (y.keys ++ k :: z.keys) ≤ g.room 1 := by omega
  constructor
  · rw [block, block, node, node, node, List.map_append]
    cases hz : z.children.map Subtree.number with
    | nil =>
      rw [hz] at hupper
      simp at hupper
    | cons d ds => exact Index.merge_ofParts k hlower hle (hz ▸ hupper)
  · refine ⟨FairNode.append hn.lower hn.fits hn.upper, Tight.of_both hmass ?_ ?_ hn.tight⟩
    · simp only [mass, Index.weight_append, Index.weight_cons]
      omega
    · simp only [Subtree.count, List.length_append, List.length_cons]
      omega

/-- Two index blocks are evened out, if what is acceptable is large enough. -/
theorem tryRotate_ends (position : Nat) (h : g.On t)
    (hp : g.IsNodePair r keys children x (heap t) R p)
    {accept : Index K → Index K → Bool}
    (hacc : ∀ ks k' ls, ∀ us vs : List (Subtree κ ν level), ∀ key,
      us.length = ks.length + 1 → vs.length = ls.length + 1 → g.FitsKey k' →
      Poised (g.room 1) (weight K ks) (K.width k' + 4) (weight K ls) →
      (g.node keys (children.map Subtree.number)).keyBytes p.separator = .ok key →
      weight K ks + (K.width k' + 4) + weight K ls =
        p.lower.entryBytes + (key.length + 4) + p.upper.entryBytes →
      accept (g.node ks (us.map Subtree.number)) (g.node ls (vs.map Subtree.number)) = true →
      g.room 1 < 6 * weight K ks ∧ g.room 1 < 6 * weight K ls) :
    Ends (Tree.tryRotate (g.node keys (children.map Subtree.number)) accept p) t
      (fun _ _ => False)
      (Attempt t (fun d t' => g.Stays t t' ∧ g.SettlesNodes r keys children position R d t')
        (∀ key s, (g.node keys (children.map Subtree.number)).keyBytes p.separator = .ok key →
          Index.rotate p.lower p.upper key = .ok s →
            (0 < s.moved && accept s.lower s.upper) = false)) := by
  obtain ⟨as, k, bs, cs, y, z, ds, rfl, rfl, -, rfl, hn⟩ := hp
  have hkey := hn.keyBytes
  obtain ⟨ks, k', ls, us, vs, m, hkeys, hchildren, hus, hvs, hrotate, hks, hls, hpoised, -⟩ :=
    hn.rotate h.shape_valid
  unfold Tree.tryRotate
  refine ends_bind_lift hkey (ends_bind_lift hrotate ?_)
  cases hcond : decide (0 < m) && accept (g.node ks (us.map Subtree.number))
      (g.node ls (vs.map Subtree.number)) with
  | false =>
    simp only [Bool.false_eq_true, ↓reduceIte]
    refine ends_pure ⟨rfl, fun key s hkey' hs => ?_⟩
    obtain rfl := Except.ok.inj (hkey.symm.trans hkey')
    obtain rfl := Except.ok.inj (hrotate.symm.trans hs)
    exact hcond
  | true =>
    simp only [↓reduceIte]
    obtain ⟨⟨hk', hfair, hfair'⟩, hsum⟩ := hn.divide hkeys hchildren hus
    obtain ⟨hlarge, hlarge'⟩ := hacc ks k' ls us vs _ hus hvs hk' hpoised hkey hsum
      (Bool.and_eq_true_iff.1 hcond).2
    obtain ⟨old, old', hH⟩ := hn.holds
    obtain ⟨t₁, hwrite, hstays, hH₁⟩ := writeIndex_run h (x := ⟨y.number, ks, us⟩) hus hks hH
    obtain ⟨t₂, hwrite', hstays', hH₂⟩ := writeIndex_run hstays.on (x := ⟨z.number, ls, vs⟩) hvs hls
      (hH₁.perm (List.Perm.swap ..))
    have hy' : g.Sound (level + 1) ⟨(r.between as bs).lower?, some k'⟩ ⟨y.number, ks, us⟩ :=
      ⟨hfair _, tight_node hks hlarge⟩
    have hz' : g.Sound (level + 1) ⟨some k', (r.between as bs).upper?⟩ ⟨z.number, ls, vs⟩ :=
      ⟨hfair' _, tight_node hls hlarge'⟩
    -- the children of both blocks are the same in the same order, divided elsewhere
    have hparts {β : Type} (f : Subtree κ ν level → List β) :
        us.flatMap f ++ vs.flatMap f = y.children.flatMap f ++ z.children.flatMap f := by
      rw [← List.flatMap_append, hchildren, List.flatMap_append]
    exact ends_bind_of_ok hwrite (ends_bind_of_ok hwrite' (ends_pure ⟨hstays.trans hstays',
      hn.settles_replace h.shape_valid hk' hy' hz' rfl rfl (hparts _) (hparts _) hH₂⟩))

/-- Two index blocks that fit together are merged with the separator between
them. -/
theorem tryMergeIndexes_ends (position : Nat) (h : g.On t)
    (hp : g.IsNodePair r keys children x (heap t) R p) :
    Ends (Tree.tryMergeIndexes (g.node keys (children.map Subtree.number)) p) t (fun _ _ => False)
      (Attempt t (fun d t' => g.Stays t t' ∧ g.SettlesNodes r keys children position R d t')
        (∀ key, (g.node keys (children.map Subtree.number)).keyBytes p.separator = .ok key →
          p.lower.canMerge p.upper (key.length + 4) = false)) := by
  obtain ⟨as, k, bs, cs, y, z, ds, rfl, rfl, -, rfl, hn⟩ := hp
  have hkey := hn.keyBytes
  unfold Tree.tryMergeIndexes
  refine ends_bind_lift hkey ?_
  cases hcond : (g.block y).canMerge (g.block z) ((K.bytes k).length + 4) with
  | false =>
    simp only [Bool.false_eq_true, ↓reduceIte]
    refine ends_pure ⟨rfl, fun key hkey' => ?_⟩
    obtain rfl := Except.ok.inj (hkey.symm.trans hkey')
    exact hcond
  | true =>
    simp only [↓reduceIte]
    obtain ⟨hmerge, hsound⟩ := hn.mergeNodes h.shape_valid hcond
    obtain ⟨old, old', hH⟩ := hn.holds
    obtain ⟨t₁, hwrite, hstays, hH₁⟩ := writeIndex_run h
      (x := ⟨y.number, y.keys ++ k :: z.keys, y.children ++ z.children⟩)
      (FairNode.chain hsound.fair).length hsound.tight.mass_le hH
    obtain ⟨t₂, hfree, hstays', hH₂⟩ := free_run hstays.on (hH₁.perm (List.Perm.swap ..))
    exact ends_bind_lift hmerge (ends_bind_of_ok hwrite (ends_bind_of_ok hfree (ends_pure
      ⟨hstays.trans hstays',
        hn.settles_remove hsound rfl List.flatMap_append List.flatMap_append hH₂⟩)))

omit [K.Lawful] in
theorem room_lt_of_not_canMerge_block (hv : g.shape.Valid) {H : Heap} {extra : Nat}
    (hp : g.IsNodePair r keys children x H R p) (hmerge : p.lower.canMerge p.upper extra = false) :
    g.room 1 < p.lower.entryBytes + extra + p.upper.entryBytes := by
  have hsize := size_eq hv 1
  obtain ⟨as, k, bs, cs, y, z, ds, -, -, -, rfl, -⟩ := hp
  have hle : ¬ 8 + (g.block y).entryBytes + (g.block z).entryBytes + extra ≤ g.size 1 :=
    of_decide_eq_false hmerge
  change g.room 1 < (g.block y).entryBytes + extra + (g.block z).entryBytes
  omega

/-- An index block is large enough if it cannot be merged with a neighbour and
no separator rotates between the two. -/
theorem tight_of_poised (hv : g.shape.Valid) {H : Heap}
    (hp : g.IsNodePair r keys children x H R p)
    (hmerge : ∀ key, (g.node keys (children.map Subtree.number)).keyBytes p.separator = .ok key →
      p.lower.canMerge p.upper (key.length + 4) = false)
    (hrotate : ∀ key s, (g.node keys (children.map Subtree.number)).keyBytes p.separator = .ok key →
      Index.rotate p.lower p.upper key = .ok s → (0 < s.moved && true) = false) :
    g.Tight (level + 1) x := by
  have hover := fun key hkey => room_lt_of_not_canMerge_block hv hp (hmerge key hkey)
  obtain ⟨as, k, bs, cs, y, z, ds, rfl, rfl, hx, rfl, hn⟩ := hp
  have hkey := hn.keyBytes
  obtain ⟨ks, k', ls, us, vs, m, -, -, -, -, hrun, hks, hls, hpoised, hzero⟩ := hn.rotate hv
  have hm : m = 0 := by simpa using hrotate _ _ hkey hrun
  obtain ⟨rfl, rfl, rfl⟩ := hzero hm
  have hsum : g.room 1 < weight K y.keys + (K.width k' + 4) + weight K z.keys := by
    have := hover _ hkey
    rwa [block, block, node, node, Index.entryBytes_ofParts (FairNode.length hn.lower),
      Index.entryBytes_ofParts (FairNode.length hn.upper)] at this
  obtain ⟨hlarge, hlarge'⟩ := hpoised.large (hn.fits.length_le hv) (g.third_le 1) hsum
  rcases hx with rfl | rfl
  · exact tight_node hks hlarge
  · exact tight_node hls hlarge'

/-- An index block is mended at the cost of its neighbours. -/
theorem mendIndex_ends {as bs : List κ} {cs ds : List (Subtree κ ν (level + 1))} {old : Bytes}
    (h : g.On t) (hole : g.Hole (level + 1) r as bs cs ds) (hne : as ++ bs ≠ [])
    (hproper : (r.between as bs).Proper) (hx : g.FairNode (g.Sound level) (r.between as bs) x)
    (hmass : weight K x.keys ≤ g.room 1)
    (hH : (heap t).Holds ((g.spot (level + 1) x.number, old) ::
      (x.children.flatMap (g.cells level) ++
        (cs.flatMap (g.cells (level + 1)) ++ ds.flatMap (g.cells (level + 1))))) R) :
    Ends (Tree.mendIndex ⟨g.node (as ++ bs) ((cs ++ x :: ds).map Subtree.number), as.length⟩
        x.number (g.block x)) t (fun _ _ => False)
      fun d t' => g.Stays t t' ∧ g.SettlesNodes r (as ++ bs) (cs ++ x :: ds) as.length R d t' := by
  have hload : ∀ y ∈ cs ++ ds, t.readIndex y.number = .ok (g.block y) := by
    intro y hy
    obtain ⟨r', hsound⟩ := hole.sound hy
    have hmem : g.cell (level + 1) y ∈ (g.spot (level + 1) x.number, old) ::
        (x.children.flatMap (g.cells level) ++ (cs.flatMap (g.cells (level + 1)) ++
          ds.flatMap (g.cells (level + 1)))) := by
      rw [← List.flatMap_append]
      exact List.mem_cons_of_mem _ (List.mem_append_right _
        (List.mem_flatMap.2 ⟨y, hy, List.mem_cons_self ..⟩))
    exact readIndex_eq h (hH.get hmem) hsound.1.fits (FairNode.length hsound.1) hsound.2.mass_le
  obtain ⟨ps, hps, hpairs, hps_ne⟩ := pairs_run hole hproper hx hmass hH hload
  unfold Tree.mendIndex
  refine ends_bind_get (ends_bind_lift hps (Ends.attempt (ends_findSomeM? fun p hp =>
    tryRotate_ends as.length h (hpairs p hp) ?_) (fun _ _ hq => ends_pure hq) fun _ => ?_))
  · intro ks k' ls us vs key hus hvs _ _ _ _ hacc
    simp only [Bool.and_eq_true, Bool.not_eq_true'] at hacc
    exact ⟨room_lt_of_not_isUnderflowed_block h.shape_valid (x := ⟨0, ks, us⟩) hus hacc.1,
      room_lt_of_not_isUnderflowed_block h.shape_valid (x := ⟨0, ls, vs⟩) hvs hacc.2⟩
  refine Ends.attempt (ends_findSomeM? fun p hp => tryMergeIndexes_ends as.length h (hpairs p hp))
    (fun _ _ hq => ends_pure hq) fun hmerge => ?_
  refine Ends.attempt (ends_findSomeM? fun p hp => tryRotate_ends as.length h (hpairs p hp) ?_)
    (fun _ _ hq => ends_pure hq) fun hrotate => ?_
  · intro ks k' ls us vs key _ _ hk' hpoised hkey hsum _
    have hover := room_lt_of_not_canMerge_block h.shape_valid (hpairs p hp) (hmerge p hp key hkey)
    exact hpoised.large (hk'.length_le h.shape_valid) (g.third_le 1) (hsum ▸ hover)
  -- nothing helps, so the block is large enough
  obtain ⟨p, hp⟩ := List.exists_mem_of_ne_nil ps (hps_ne hne)
  have hx' := tight_of_poised h.shape_valid (hpairs p hp) (hmerge p hp) (hrotate p hp)
  obtain ⟨t₁, hwrite, hstays, hH₁⟩ := writeIndex_run h hx.chain.length hmass hH
  exact ends_bind_of_ok hwrite (ends_pure ⟨hstays, settlesNodes_nothing hole ⟨hx, hx'⟩ hH₁⟩)

/-- A changed index block that fits is written at the cost of its neighbours. -/
theorem writeBackIndex_fits {as bs : List κ} {cs ds : List (Subtree κ ν (level + 1))} {old : Bytes}
    (h : g.On t) (hole : g.Hole (level + 1) r as bs cs ds) (hne : as ++ bs ≠ [])
    (hproper : (r.between as bs).Proper) (hx : g.FairNode (g.Sound level) (r.between as bs) x)
    (hmass : weight K x.keys ≤ g.room 1)
    (hH : (heap t).Holds ((g.spot (level + 1) x.number, old) ::
      (x.children.flatMap (g.cells level) ++
        (cs.flatMap (g.cells (level + 1)) ++ ds.flatMap (g.cells (level + 1))))) R) :
    Ends (Tree.writeBackIndex
        (some ⟨g.node (as ++ bs) ((cs ++ x :: ds).map Subtree.number), as.length⟩)
        x.number (g.block x)) t (fun _ _ => False)
      fun d t' => g.Stays t t' ∧ g.SettlesNodes r (as ++ bs) (cs ++ x :: ds) as.length R d t' := by
  have hlen := hx.chain.length
  unfold Tree.writeBackIndex
  rw [if_neg fun hover => Nat.not_lt.2 hmass ((isOverflowed_block h.shape_valid hlen).1 hover)]
  cases hunder : (g.block x).isUnderflowed with
  | true => exact mendIndex_ends h hole hne hproper hx hmass hH
  | false =>
    obtain ⟨t₁, hwrite, hstays, hH₁⟩ := writeIndex_run h hlen hmass hH
    have hlarge := room_lt_of_not_isUnderflowed_block h.shape_valid hlen hunder
    exact ends_bind_of_ok hwrite (ends_pure ⟨hstays, settlesNodes_nothing hole
      ⟨hx, tight_node hmass hlarge⟩ hH₁⟩)

/-- A changed index block is written, and what that demands of its parent settles
the change. -/
theorem writeBackIndex_ends {as bs : List κ} {cs ds : List (Subtree κ ν (level + 1))} {old : Bytes}
    (h : g.On t) (hole : g.Hole (level + 1) r as bs cs ds) (hne : as ++ bs ≠ [])
    (hproper : (r.between as bs).Proper) (hx : g.FairNode (g.Sound level) (r.between as bs) x)
    (hbound : weight K x.keys ≤ g.room 1 + g.third 1)
    (hH : (heap t).Holds ((g.spot (level + 1) x.number, old) ::
      (x.children.flatMap (g.cells level) ++
        (cs.flatMap (g.cells (level + 1)) ++ ds.flatMap (g.cells (level + 1))))) R) :
    Ends (Tree.writeBackIndex
        (some ⟨g.node (as ++ bs) ((cs ++ x :: ds).map Subtree.number), as.length⟩)
        x.number (g.block x)) t
      (fun e t' => ∃ M,
        g.CutOff (level + 1) (r.between as bs) x.number (x.items (level + 1)) M t e t' ∧
        M.Holds (cs.flatMap (g.cells (level + 1)) ++ ds.flatMap (g.cells (level + 1))) R)
      fun d t' => g.Stays t t' ∧ g.SettlesNodes r (as ++ bs) (cs ++ x :: ds) as.length R d t' := by
  by_cases hmass : weight K x.keys ≤ g.room 1
  · exact (writeBackIndex_fits h hole hne hproper hx hmass hH).imp_error fun _ _ he => he.elim
  · have hsplit : (heap t).Holds (((g.spot (level + 1) x.number, old) ::
        x.children.flatMap (g.cells level)) ++ (cs.flatMap (g.cells (level + 1)) ++
          ds.flatMap (g.cells (level + 1)))) R := hH
    obtain ⟨M, hM, hrest⟩ := Heap.holds_append.1 hsplit
    refine (splitNode_ends h hx (Nat.lt_of_not_le hmass) hbound hM _).mono
      (fun _ _ he => ⟨M, he, hrest⟩) ?_
    rintro d t' ⟨hstays, hhalved⟩
    refine ⟨hstays, ?_⟩
    rw [SettlesNodes, List.flatMap_append, List.flatMap_cons]
    exact Halved.settles h.shape_valid hole hhalved hrest

end Mend

end PagedMap.Regime
