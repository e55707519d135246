/-
# Changing what a key has

A change goes down to the leaf of the key and comes back up. Of every index block
on the way the child is changed, and doing what it demands leaves an index block
whose children are sound and hold the changed items (`Regime.Reworked`); then the
block itself is written back. What is done to a leaf and to an index block is the
same at the root and below it, and differs only in how the block is written back;
`Regime.updateLeaf_ends` and `Regime.updateNode_ends` are rules that leave that
open. The induction is on the number of index levels. At the top a root that was
split gets a root above it.

A change that a full store interrupts has written the lower half of a block that it cut in
two, and the tree misses the upper half (`Regime.Interrupted`, `Regime.Misses`,
`Regime.Spoiled`).

Key definitions: `Regime.Gains`, `Regime.Reworked`, `Regime.Interrupted`, `Regime.Misses`,
`Regime.Spoiled`.
Key theorems: `Regime.updateLeaf_ends`, `Regime.visitNode_ends`,
`Regime.updateNode_ends`, `Regime.updateBelow_ends`, `Regime.update_ends`.
-/
import PagedMap.Proofs.Tree.Root
import PagedMap.Proofs.Tree.Route

namespace PagedMap.Regime

variable {σ κ ν : Type} [Store σ] [LawfulStore σ] [LinearOrder κ] {K : OrderedCodec κ}
  {V : Codec ν} {g : Regime K V} {level : Nat} {r : Span κ} {k : κ} {R : Heap}
  {t t' t'' : Tree σ K V}

/-- The tree may have changed in its blocks, and its number of entries has changed
by so many. -/
structure Gains (n : Int) (t t' : Tree σ K V) : Prop where
  descriptor_eq : t'.descriptor = { t.descriptor with size := t.descriptor.size + n }
  reserved_eq : LawfulStore.reserved t'.store = LawfulStore.reserved t.store

omit [LinearOrder κ] in
theorem Gains.self (items : List (κ × ν)) (t : Tree σ K V) :
    Gains (items.length - items.length) t t :=
  ⟨by rw [Int.sub_self, Int.add_zero], rfl⟩

omit [LinearOrder κ] in
theorem Gains.root_eq {n : Int} (h : Gains n t t') : t'.descriptor.root = t.descriptor.root := by
  rw [h.descriptor_eq]

omit [LinearOrder κ] in
theorem Gains.leafLevel_eq {n : Int} (h : Gains n t t') :
    t'.descriptor.leafLevel = t.descriptor.leafLevel := by
  rw [h.descriptor_eq]

omit [LinearOrder κ] in
theorem Gains.stays {n : Int} (h : Gains n t t') (h' : g.Stays t' t'') : Gains n t t'' :=
  ⟨h'.descriptor.trans h.descriptor_eq, h'.reserved.trans h.reserved_eq⟩

omit [LinearOrder κ] in
theorem countChange_run (h : g.On t) (size : SizeChange) :
    ∃ t', Tree.countChange size t = (.ok (), t') ∧ g.On t' ∧ Gains size.gain t t' ∧
      t'.store = t.store := by
  cases size with
  | same => exact ⟨_, rfl, ⟨h.valid, h.shape⟩, ⟨by simp [SizeChange.gain], rfl⟩, rfl⟩
  | more => exact ⟨_, rfl, ⟨h.valid, h.shape⟩, ⟨rfl, rfl⟩, rfl⟩
  | less => exact ⟨_, rfl, ⟨h.valid, h.shape⟩, ⟨rfl, rfl⟩, rfl⟩

/-! ### A leaf -/

section Leaf

variable [K.Lawful] [V.Lawful] {f : Option ν → Option ν}
  {edit : Leaf K V → Except Error (LeafEdit K V (Option ν))}

/-- A leaf is read and edited. What is not kept has become larger by one entry at
most. -/
theorem editLeaf_run (h : g.On t) (hedit : g.Edits edit k f) {x : LeafNode κ ν}
    (hx : g.FairLeaf r x) (hmass : g.mass 0 x ≤ g.room 0) (hk : r.Has k)
    (hcell : heap t (g.cell 0 x).1 = some (g.cell 0 x).2) :
    t.readLeaf x.number = .ok (g.leaf x.items) ∧ ∃ o items', Alters k o (f o) x.items items' ∧
      g.FairLeaf r ⟨x.number, items'⟩ ∧
      Block.bytesOf K V items' ≤ g.room 0 + g.third 0 ∧
      (edit (g.leaf x.items) = .ok (.keep o) ∧ items' = x.items ∨
        ∃ size, edit (g.leaf x.items) = .ok (.change (g.leaf items') size o) ∧
          (items'.length : Int) = x.items.length + size.gain) := by
  obtain ⟨n, items⟩ := x
  obtain ⟨o, items', halters, hfits, hrun⟩ := hedit hx hk
  refine ⟨readLeaf_eq h hcell hx.fits hmass, o, items', halters, hx.alter hk hfits halters, ?_,
    hrun⟩
  exact Nat.le_trans (bytesOf_alter hfits halters) (Nat.add_le_add_right hmass _)

end Leaf

/-! ### An index block -/

/-- What was changed below an index block left a well-placed index block, whose
entries have grown by one separator at most. -/
structure Reworked (g : Regime K V) (level : Nat) (r : Span κ) (k : κ) (f : Option ν → Option ν)
    (x : Subtree κ ν (level + 1)) (others : List Cell) (R : Heap) (t : Tree σ K V) (o : Option ν)
    (x' : Subtree κ ν (level + 1)) (t' : Tree σ K V) : Prop where
  number_eq : x'.number = x.number
  fair : g.FairNode (g.Sound level) r x'
  weight_le : Index.weight K x'.keys ≤ Index.weight K x.keys + g.third 1
  alters : Alters k o (f o) (x.items (level + 1)) (x'.items (level + 1))
  on : g.On t'
  gains : Gains ((x'.items (level + 1)).length - (x.items (level + 1)).length) t t'
  holds : (heap t').Holds
    (g.cell (level + 1) x :: (x'.children.flatMap (g.cells level) ++ others)) R

/-- The index block is still where it was. -/
theorem Reworked.holds_spot {x x' : Subtree κ ν (level + 1)} {f : Option ν → Option ν}
    {others : List Cell} {o : Option ν} (h : g.Reworked level r k f x others R t o x' t') :
    (heap t').Holds ((g.spot (level + 1) x'.number, (g.cell (level + 1) x).2) ::
      (x'.children.flatMap (g.cells level) ++ others)) R := by
  rw [h.number_eq]
  exact h.holds

/-- An index block that demands nothing is not written: it is as it was. -/
theorem Reworked.cell_eq {x x' : Subtree κ ν (level + 1)} {f : Option ν → Option ν}
    {others : List Cell} {o : Option ν} (h : g.Reworked level r k f x others R t o x' t')
    (hx : g.FairNode (g.Sound level) r x) (hsame : g.block x = g.block x') :
    g.cell (level + 1) x' = g.cell (level + 1) x ∧
      (g.Tight (level + 1) x → g.Tight (level + 1) x') ∧
      (g.mass (level + 1) x' = g.mass (level + 1) x) ∧
      (x'.count (level + 1) = x.count (level + 1)) := by
  have hweight : Index.weight K x'.keys = Index.weight K x.keys := by
    have := congrArg Block.entryBytes hsame
    rwa [block, block, node, node, Index.entryBytes_ofParts (FairNode.length hx),
      Index.entryBytes_ofParts (FairNode.length h.fair), eq_comm] at this
  have hcount : x'.keys.length = x.keys.length := by
    have := congrArg Block.length hsame
    rwa [block, block, node, node, Index.length_ofParts (FairNode.length hx),
      Index.length_ofParts (FairNode.length h.fair), eq_comm] at this
  refine ⟨?_, fun htight => ⟨?_, ?_, ?_⟩, hweight, hcount⟩
  · have himage : ∀ y : Subtree κ ν (level + 1), g.cell (level + 1) y =
        (g.spot (level + 1) y.number, (g.block y).toBytes.fit (g.size 1)) := fun _ => rfl
    rw [himage, himage, hsame]
    exact congrArg (fun n => (g.spot (level + 1) n, _)) h.number_eq
  · exact hweight.trans_le htight.mass_le
  · exact hcount.trans_ne htight.count_ne_zero
  · intro hdense
    have := htight.room_lt hdense
    rwa [mass, ← hweight] at this

/-- A root that demands nothing is a root as before. -/
theorem Reworked.rooted {x x' : Subtree κ ν (level + 1)} {f : Option ν → Option ν} {o : Option ν}
    (hr : g.Reworked level Span.all k f x [] R t o x' t') (h : g.Rooted (level + 1) x R t)
    (hsame : g.block x = g.block x') : g.Rooted (level + 1) x' R t' := by
  obtain ⟨hcell, -, hmass, hcount⟩ := hr.cell_eq h.sound.fair hsame
  have hH : (heap t').Holds (g.cells (level + 1) x') R := by
    rw [g.cells_eq, hcell, ← List.append_nil (g.below _ _)]
    exact hr.holds
  exact ⟨hr.on, (hr.gains.root_eq.trans h.root_eq).trans hr.number_eq.symm,
    hr.gains.leafLevel_eq.trans h.leafLevel_eq,
    ⟨hr.fair, hmass.trans_le h.sound.mass_le,
      fun hne => hcount.trans_ne (h.sound.count_ne_zero hne)⟩, hH⟩

/-! ### A change that is not completed -/

/-- For want of a block the items that the change makes are not all there. The number of
entries is as if they were. -/
def Interrupted (g : Regime K V) (level : Nat) (P : Subtree κ ν level → Prop) (k : κ)
    (f : Option ν → Option ν) (x : Subtree κ ν level) (R : Heap) (t : Tree σ K V) (e : Error)
    (t' : Tree σ K V) : Prop :=
  ∃ o items', Alters k o (f o) (x.items level) items' ∧ g.On t' ∧
    Gains (items'.length - (x.items level).length) t t' ∧ g.Torn level P x.number items' R e t'

/-- What is cut off when a block is written interrupts the change that led there. -/
theorem CutOff.interrupted {f : Option ν → Option ν} {x : Subtree κ ν level} {n : BlockNumber}
    {items' : List (κ × ν)} {o : Option ν} {e : Error} (h : g.CutOff level r n items' R t' e t'')
    (hn : n = x.number) (ha : Alters k o (f o) (x.items level) items')
    (hg : Gains (items'.length - (x.items level).length) t t') :
    g.Interrupted level (g.Sound level r) k f x R t e t'' :=
  ⟨o, items', ha, h.1.on, hg.stays h.1, hn ▸ h.2⟩

/-- What is lost below a child is lost below its parent, which is as it was. -/
theorem Route.torn {x : Subtree κ ν (level + 1)} {as bs : List κ} {cs ds : List (Subtree κ ν level)}
    {c : Subtree κ ν level} (hroute : g.Route level r x k as bs cs c ds) {items' : List (κ × ν)}
    {others : List Cell} {M M' : Heap} {e : Error}
    (h : g.Torn level (g.Sound level (r.between as bs)) c.number items' M' e t)
    (hM' : M'.Holds (cs.flatMap (g.cells level) ++ ds.flatMap (g.cells level)) M)
    (hM : M.Holds (g.cell (level + 1) x :: others) R) :
    ∃ R', g.Torn (level + 1) (fun y => g.FairNode (g.Sound level) r y ∧ y.keys = x.keys) x.number
        (cs.flatMap (Subtree.items level) ++ (items' ++ ds.flatMap (Subtree.items level))) R' e t ∧
      R'.Holds others R := by
  obtain ⟨c', bottom, z, hnumber, hsound, hlacks, he, hH⟩ := h
  let y : Subtree κ ν (level + 1) := ⟨x.number, x.keys, cs ++ c' :: ds⟩
  have hfair : g.FairNode (g.Sound level) r y :=
    ⟨hroute.keys_eq ▸ hroute.hole.fits, hroute.keys_eq ▸ hroute.hole.fill hsound⟩
  have hcell : g.cell (level + 1) y = g.cell (level + 1) x := by
    change (_, (g.node x.keys ((cs ++ c' :: ds).map Subtree.number)).toBytes.fit (g.size 1)) = _
    rw [Subtree.map_number_focus hnumber, ← hroute.children_eq]
    rfl
  have hall : (heap t).Holds ((g.cells (level + 1) y ++ g.below bottom z) ++ others) R := by
    refine (Heap.holds_append.2 ⟨M', hH, Heap.holds_append.2 ⟨M, hM', hM⟩⟩).perm ?_
    rw [← hcell]
    refine List.perm_iff_count.2 fun q => ?_
    simp only [cells, y, List.flatMap_append, List.flatMap_cons, List.count_append, List.count_cons]
    omega
  obtain ⟨R', hR', hothers⟩ := Heap.holds_append.1 hall
  exact ⟨R', ⟨y, bottom, z, rfl, ⟨hfair, rfl⟩, hlacks.child rfl, he, hR'⟩, hothers⟩

theorem Interrupted.imp {P Q : Subtree κ ν level → Prop} {f : Option ν → Option ν}
    {x : Subtree κ ν level} {e : Error} (h : g.Interrupted level P k f x R t e t')
    (hPQ : ∀ y, P y → Q y) : g.Interrupted level Q k f x R t e t' := by
  obtain ⟨o, items', halters, hon, hgains, htorn⟩ := h
  exact ⟨o, items', halters, hon, hgains, htorn.imp hPQ⟩

/-! ### The whole way -/

section Way

variable [K.Lawful] [V.Lawful] {f : Option ν → Option ν}
  {edit : Leaf K V → Except Error (LeafEdit K V (Option ν))}

/-- A change below a child settles what the child's parent has to do. -/
def UpdatesBelow (σ : Type) [Store σ] [LawfulStore σ] (g : Regime K V)
    (edit : Leaf K V → Except Error (LeafEdit K V (Option ν))) (k : κ)
    (f : Option ν → Option ν) (level : Nat) : Prop :=
  ∀ {t : Tree σ K V} {r : Span κ} {as bs : List κ} {cs ds : List (Subtree κ ν level)}
    {x : Subtree κ ν level} {R : Heap}, g.On t → g.Hole level r as bs cs ds → as ++ bs ≠ [] →
    g.Sound level (r.between as bs) x → (r.between as bs).Has k →
    (heap t).Holds (g.cells level x ++ (cs.flatMap (g.cells level) ++
      ds.flatMap (g.cells level))) R →
    Ends (Tree.updateBelow (K.bytes k) edit level
        (some ⟨g.node (as ++ bs) ((cs ++ x :: ds).map Subtree.number), as.length⟩) x.number) t
      (fun e t' => ∃ M,
        g.Interrupted level (g.Sound level (r.between as bs)) k f x M t e t' ∧
        M.Holds (cs.flatMap (g.cells level) ++ ds.flatMap (g.cells level)) R)
      fun p t' => ∃ items', Alters k p.2 (f p.2) (x.items level) items' ∧
        g.On t' ∧ Gains (items'.length - (x.items level).length) t t' ∧
        g.Settles level r (g.node (as ++ bs) ((cs ++ x :: ds).map Subtree.number)) as.length
          (cs.flatMap (Subtree.items level) ++ (items' ++ ds.flatMap (Subtree.items level)))
          R p.1 t'

omit [V.Lawful] in
/-- The child of an index block under which the key belongs is changed. -/
theorem child_ends (ih : g.UpdatesBelow σ edit k f level) (hw : K.Writes k) (h : g.On t)
    {x : Subtree κ ν (level + 1)} (hx : g.FairNode (g.Sound level) r x) (hne : x.keys ≠ [])
    (hk : r.Has k) {others : List Cell} (hH : (heap t).Holds (g.cells (level + 1) x ++ others) R) :
    ∃ place c, (g.block x).searchBytes (K.bytes k) = .ok place ∧
      Index.child (g.block x) place.child = .ok c ∧
      Ends (Tree.updateBelow (K.bytes k) edit level (some ⟨g.block x, place.child⟩) c) t
        (fun e t' => ∃ M, g.Interrupted (level + 1)
          (fun y => g.FairNode (g.Sound level) r y ∧ y.keys = x.keys) k f x M t e t' ∧
          M.Holds others R)
        fun p t' => ∃ x', p.1.apply (g.block x) place.child =
          .ok (g.block x') ∧ g.Reworked level r k f x others R t p.2 x' t' := by
  obtain ⟨place, as, bs, cs, c, ds, hroute, hplace, hchild, hnumber⟩ := exists_route hx hk hw
  refine ⟨place, c.number, hplace, by rw [hchild]; exact hnumber, ?_⟩
  obtain ⟨M, hM, hrest⟩ := hroute.holds hH
  have hinner := ih h hroute.hole (hroute.keys_eq ▸ hne) hroute.sound hroute.has hM
  rw [hroute.node_eq, ← hchild] at hinner
  have hx_items := hroute.items_eq
  -- the items beside those of the child do not change
  have hgain {items' : List (κ × ν)} {t' : Tree σ K V}
      (hg : Gains (items'.length - (c.items level).length) t t') :
      Gains ((cs.flatMap (Subtree.items level) ++ (items' ++
        ds.flatMap (Subtree.items level))).length - (x.items (level + 1)).length) t t' := by
    rw [hx_items]
    convert hg using 1
    simp only [List.length_append]
    omega
  refine hinner.mono ?_ ?_
  · rintro e t' ⟨M', ⟨o, items', halters, hon, hgains, htorn⟩, hsiblings⟩
    obtain ⟨R', htorn, hothers⟩ := hroute.torn htorn hsiblings hrest
    have hwide := halters.widen hroute.before hroute.after
    rw [← hx_items] at hwide
    exact ⟨R', ⟨o, _, hwide, hon, hgain hgains, htorn⟩, hothers⟩
  · rintro ⟨d, o⟩ t' ⟨items', halters, hon, hgains, keys, children, happly, hfits, hchain, hweight,
      hitems, hH'⟩
    have hwide := halters.widen hroute.before hroute.after
    have hgains' := hgain hgains
    rw [← hx_items, ← hitems] at hwide
    rw [← hitems] at hgains'
    refine ⟨⟨x.number, keys, children⟩, happly, ⟨rfl, ⟨hfits, hchain⟩, ?_, hwide, hon, hgains', ?_⟩⟩
    · rwa [block, node, Index.entryBytes_ofParts (FairNode.length hx)] at hweight
    · exact (Heap.holds_append.2 ⟨M, hH', hrest⟩).perm List.perm_middle

/-- A leaf is edited. If that changes it, the change is counted and the leaf is written
back. -/
theorem updateLeaf_ends (hedit : g.Edits edit k f) (h : g.On t) {x : LeafNode κ ν}
    (hx : g.FairLeaf r x) (hmass : g.mass 0 x ≤ g.room 0) (hk : r.Has k)
    (hcell : heap t (g.cell 0 x).1 = some (g.cell 0 x).2) {parent? : Option (Parent K)}
    {E : Error → Tree σ K V → Prop} {Q : Demand × Option ν → Tree σ K V → Prop}
    (hkeep : ∀ o, Alters k o (f o) x.items x.items → Q (.nothing, o) t)
    (hchange : ∀ o items' t₁, Alters k o (f o) x.items items' →
      g.FairLeaf r ⟨x.number, items'⟩ → Block.bytesOf K V items' ≤ g.room 0 + g.third 0 →
      g.On t₁ → Gains (items'.length - x.items.length) t t₁ → t₁.store = t.store →
      Ends (Tree.writeBackLeaf parent? x.number (g.leaf items')) t₁ E fun d => Q (d, o)) :
    Ends (Tree.updateBelow (K.bytes k) edit 0 parent? x.number) t E Q := by
  obtain ⟨hread, o, items', halters, hfair, hbound, hrun⟩ := editLeaf_run h hedit hx hmass hk hcell
  rw [Tree.updateBelow]
  refine ends_bind_get (ends_bind_lift hread ?_)
  rcases hrun with ⟨hkeep', rfl⟩ | ⟨size, hchange', hsize⟩
  · exact ends_bind_lift hkeep' (ends_pure (hkeep o halters))
  · obtain ⟨t₁, hcount, hon, hgains, hstore⟩ := countChange_run h size
    have hlength : size.gain = items'.length - x.items.length := by omega
    rw [hlength] at hgains
    refine ends_bind_lift hchange' (ends_bind_of_ok hcount (Ends.bind
      (hchange o items' t₁ halters hfair hbound hon hgains hstore) ?_))
    exact fun d t₂ hq => ends_pure hq

omit [V.Lawful] in
/-- The way to the child under which the key belongs and back: if the child demands something,
that is done and the index block is written back. -/
theorem visitNode_ends (h : g.On t) {x : Subtree κ ν (level + 1)}
    (hx : g.FairNode (g.Sound level) r x) (hmass : Index.weight K x.keys ≤ g.room 1)
    (hcell : heap t (g.cell (level + 1) x).1 = some (g.cell (level + 1) x).2) {place : Place}
    {c : BlockNumber} (hplace : (g.block x).searchBytes (K.bytes k) = .ok place)
    (hchild : Index.child (g.block x) place.child = .ok c) {parent? : Option (Parent K)}
    {E : Error → Tree σ K V → Prop} {P Q : Demand × Option ν → Tree σ K V → Prop}
    (hbelow : Ends (Tree.updateBelow (K.bytes k) edit level (some ⟨g.block x, place.child⟩) c) t
      E P)
    (hkeep : ∀ o t₁, P (.nothing, o) t₁ → Q (.nothing, o) t₁)
    (hchange : ∀ d o t₁, P (d, o) t₁ → ∃ node, d.apply (g.block x) place.child = .ok node ∧
      Ends (Tree.writeBackIndex parent? x.number node) t₁ E fun d => Q (d, o)) :
    Ends (Tree.updateBelow (K.bytes k) edit (level + 1) parent? x.number) t E Q := by
  have hread := readIndex_eq h hcell hx.fits (FairNode.length hx) hmass
  rw [Tree.updateBelow]
  refine ends_bind_get (ends_bind_lift hread (ends_bind_lift hplace (ends_bind_lift hchild
    (hbelow.bind ?_))))
  rintro ⟨d, o⟩ t₁ hp
  cases d with
  | nothing => exact ends_pure (hkeep o t₁ hp)
  | _ =>
    obtain ⟨node, happly, hwrite⟩ := hchange _ o t₁ hp
    exact ends_bind_lift happly (hwrite.bind fun d t₂ hq => ends_pure hq)

omit [V.Lawful] in
/-- The child under which the key belongs is changed. If it demands something of the index
block above it, that is done and the index block is written back. -/
theorem updateNode_ends (ih : g.UpdatesBelow σ edit k f level) (hw : K.Writes k) (h : g.On t)
    {x : Subtree κ ν (level + 1)} (hx : g.FairNode (g.Sound level) r x)
    (hmass : Index.weight K x.keys ≤ g.room 1) (hne : x.keys ≠ []) (hk : r.Has k)
    {others : List Cell} (hH : (heap t).Holds (g.cells (level + 1) x ++ others) R)
    {parent? : Option (Parent K)} {E : Error → Tree σ K V → Prop}
    {Q : Demand × Option ν → Tree σ K V → Prop}
    (hstop : ∀ e t₁ M, g.Interrupted (level + 1)
      (fun y => g.FairNode (g.Sound level) r y ∧ y.keys = x.keys) k f x M t e t₁ →
      M.Holds others R → E e t₁)
    (hkeep : ∀ o x' t₁, g.Reworked level r k f x others R t o x' t₁ → g.block x = g.block x' →
      Q (.nothing, o) t₁)
    (hchange : ∀ o x' t₁, g.Reworked level r k f x others R t o x' t₁ →
      Ends (Tree.writeBackIndex parent? x'.number (g.block x')) t₁ E fun d => Q (d, o)) :
    Ends (Tree.updateBelow (K.bytes k) edit (level + 1) parent? x.number) t E Q := by
  obtain ⟨place, c, hplace, hchild, hinner⟩ := child_ends ih hw h hx hne hk hH
  refine visitNode_ends h hx hmass (hH.get (List.mem_cons_self ..)) hplace hchild
    (hinner.imp_error ?_) ?_ ?_
  · rintro e t₁ ⟨M, hinterrupted, hM⟩
    exact hstop e t₁ M hinterrupted hM
  · rintro o t₁ ⟨x', happly, hr⟩
    exact hkeep o x' t₁ hr (Except.ok.inj happly)
  · rintro d o t₁ ⟨x', happly, hr⟩
    exact ⟨_, happly, hr.number_eq ▸ hchange o x' t₁ hr⟩

/-- A change goes down to the leaf of the key and settles the blocks on the way
back. -/
theorem updateBelow_ends (hedit : g.Edits edit k f) (hw : K.Writes k) : ∀ (level : Nat),
    g.UpdatesBelow σ edit k f level
  | 0, t, r, as, bs, cs, ds, (x : LeafNode κ ν), R, h, hole, hne, hx, hk, hH => by
    refine updateLeaf_ends hedit h hx.1 hx.2.mass_le hk hH.1 (fun o halters =>
      ⟨_, halters, h, Gains.self .., settles_nothing _ hole hx hH⟩) ?_
    intro o items' t₁ halters hfair hbound hon hgains hstore
    -- counting the change touches no block, so the old leaf is still in its place
    have hH' : (heap t₁).Holds ((g.spot 0 x.number, (g.cell 0 x).2) ::
        (cs.flatMap (g.cells 0) ++ ds.flatMap (g.cells 0))) R := by
      rw [heap, hstore]
      exact hH
    have hwrite := writeBackLeaf_ends hon hole hne hx.proper hfair hbound hH'
    have hnumbers : (cs ++ ⟨x.number, items'⟩ :: ds).map Subtree.number =
        (cs ++ x :: ds).map Subtree.number := Subtree.map_number_focus rfl
    rw [hnumbers] at hwrite
    refine hwrite.mono ?_ ?_
    · rintro e t₂ ⟨M, hcut, hM⟩
      exact ⟨M, hcut.interrupted rfl halters hgains, hM⟩
    · rintro d t₂ ⟨hstays, hsettles⟩
      refine ⟨items', halters, hstays.on, hgains.stays hstays, ?_⟩
      rw [SettlesLeaves, hnumbers, List.flatMap_append, List.flatMap_cons] at hsettles
      exact hsettles
  | level + 1, t, r, as, bs, cs, ds, x, R, h, hole, hne, hx, hk, hH => by
    have hkeys : x.keys ≠ [] := fun hnil => hx.2.count_ne_zero (congrArg List.length hnil)
    refine updateNode_ends (updateBelow_ends hedit hw level) hw h hx.1 hx.2.mass_le hkeys hk hH
      ?_ ?_ ?_
    · intro e t₁ M hinterrupted hM
      exact ⟨M, hinterrupted.imp fun y hy => ⟨hy.1, hx.2.of_keys hy.2⟩, hM⟩
    · -- nothing is demanded: the block is as it was, only items below it have changed
      intro o x' t₁ hr hsame
      obtain ⟨hcell, htight, -⟩ := hr.cell_eq hx.1 hsame
      have hH' : (heap t₁).Holds (g.cells (level + 1) x' ++ (cs.flatMap (g.cells (level + 1)) ++
          ds.flatMap (g.cells (level + 1)))) R := by
        rw [g.cells_eq, hcell]
        exact hr.holds
      have hsettles := settles_nothing as.length hole ⟨hr.fair, htight hx.2⟩ hH'
      rw [Subtree.map_number_focus hr.number_eq] at hsettles
      exact ⟨_, hr.alters, hr.on, hr.gains, hsettles⟩
    · -- the block has outgrown its room by one separator at most
      intro o x' t₁ hr
      have hwrite := writeBackIndex_ends hr.on hole hne hx.proper hr.fair
        (Nat.le_trans hr.weight_le (Nat.add_le_add_right hx.2.mass_le _)) hr.holds_spot
      rw [Subtree.map_number_focus hr.number_eq] at hwrite
      refine hwrite.mono ?_ ?_
      · rintro e t₂ ⟨M, hcut, hM⟩
        exact ⟨M, hcut.interrupted hr.number_eq hr.alters hr.gains, hM⟩
      · rintro d t₂ ⟨hstays, hsettles⟩
        refine ⟨_, hr.alters, hstays.on, hr.gains.stays hstays, ?_⟩
        rw [SettlesNodes, Subtree.map_number_focus hr.number_eq, List.flatMap_append,
          List.flatMap_cons] at hsettles
        exact hsettles

/-- The root is changed, or cut in two. -/
theorem updateRoot_ends (hedit : g.Edits edit k f) (hw : K.Writes k) : ∀ {level : Nat}
    {x : Subtree κ ν level}, g.Rooted level x R t →
    Ends (Tree.updateBelow (K.bytes k) edit level none x.number) t
      (g.Interrupted level (g.SoundRoot level) k f x R t)
      fun p t' => ∃ items' t₁, Alters k p.2 (f p.2) (x.items level) items' ∧
        Gains (items'.length - (x.items level).length) t t₁ ∧
        g.RootChanged level x.number items' R t₁ p.1 t'
  | 0, (x : LeafNode κ ν), h => by
    refine updateLeaf_ends hedit h.on h.sound.fair h.sound.mass_le (Span.has_all k) h.holds.1
      (fun o halters => ⟨_, t, halters, Gains.self .., .inr ⟨rfl, ⟨0, x, h, rfl⟩,
        (Stays.refl h.on).moves⟩⟩) ?_
    intro o items' t₁ halters hfair hbound hon hgains hstore
    have hH' : (heap t₁).Holds [(g.spot 0 x.number, (g.cell 0 x).2)] R := by
      rw [heap, hstore]
      exact h.holds
    refine (writeBackLeaf_root_ends (x := ⟨x.number, items'⟩) hon (hgains.root_eq.trans h.root_eq)
      (hgains.leafLevel_eq.trans h.leafLevel_eq) hfair hbound hH').mono ?_ ?_
    · intro e t₂ hcut
      have hinterrupted : g.Interrupted 0 (g.Sound 0 Span.all) k f x R t e t₂ :=
        hcut.interrupted rfl halters hgains
      exact hinterrupted.imp fun _ hy => hy.root
    · intro d t₂ hchanged
      exact ⟨items', t₁, halters, hgains, hchanged⟩
  | level + 1, x, h => by
    have hfair : g.FairNode (g.Sound level) Span.all x := h.sound.fair
    have hcount : x.keys.length ≠ 0 := h.sound.count_ne_zero (Nat.succ_ne_zero _)
    have hH : (heap t).Holds (g.cells (level + 1) x ++ []) R := by
      rw [List.append_nil]
      exact h.holds
    refine updateNode_ends (updateBelow_ends hedit hw level) hw h.on hfair h.sound.mass_le
      (fun hnil => hcount (congrArg List.length hnil)) (Span.has_all k) hH ?_ ?_ ?_
    · -- there are no cells beside those of the root
      intro e t₁ M hinterrupted hM
      obtain rfl := Heap.holds_nil.1 hM
      refine hinterrupted.imp fun y hy => ⟨hy.1, ?_, fun _ => ?_⟩
      · rw [mass, hy.2]
        exact h.sound.mass_le
      · rw [Subtree.count, hy.2]
        exact hcount
    · intro o x' t₁ hr hsame
      exact ⟨_, t₁, hr.alters, hr.gains, .inr ⟨rfl, ⟨level + 1, x', hr.rooted h hsame, rfl⟩,
        (Stays.refl hr.on).moves⟩⟩
    · intro o x' t₁ hr
      have hH' : (heap t₁).Holds ((g.spot (level + 1) x'.number, (g.cell (level + 1) x).2) ::
          x'.children.flatMap (g.cells level)) R := by
        rw [← List.append_nil (x'.children.flatMap _)]
        exact hr.holds_spot
      have hlevel : t₁.descriptor.leafLevel = level := by
        rw [hr.gains.leafLevel_eq, h.leafLevel_eq]
        omega
      have hwrite := writeBackIndex_root_ends hr.on
        ((hr.gains.root_eq.trans h.root_eq).trans hr.number_eq.symm) hlevel hr.fair
        (Nat.le_trans hr.weight_le (Nat.add_le_add_right h.sound.mass_le _)) hH'
      refine hwrite.mono ?_ ?_
      · intro e t₂ hcut
        exact (hcut.interrupted hr.number_eq hr.alters hr.gains).imp fun _ hy => hy.root
      · intro d t₂ hchanged
        rw [hr.number_eq] at hchanged
        exact ⟨_, t₁, hr.alters, hr.gains, hchanged⟩

/-- The tree would hold the items if the upper half of a block that was cut in two were there.
Either this half got no block, and only what is below it is in the store; or it is the upper
half of the root and did get one, but the root above the halves did not. -/
def Misses (g : Regime K V) (items : List (κ × ν)) (e : Error) (t : Tree σ K V) : Prop :=
  ∃ (level : Nat) (x : Subtree κ ν level) (R : Heap) (bottom : Nat) (z : Subtree κ ν bottom),
    g.Rooted level x R t ∧ g.Lacks z level x items ∧
    ((∃ S, R.Holds (g.below bottom z) S) ∧ IsFull (kind bottom) e ∨
      bottom = level ∧ (∃ S, R.Holds (g.cells bottom z) S) ∧ IsFull .index e)

omit [K.Lawful] [V.Lawful] in
/-- Some pool is full. -/
theorem Misses.isOutOfSpace {items : List (κ × ν)} {e : Error} (h : g.Misses items e t) :
    IsOutOfSpace e := by
  obtain ⟨level, x, R, bottom, z, -, -, ⟨-, he⟩ | ⟨-, -, he⟩⟩ := h
  · exact he.isOutOfSpace
  · exact he.isOutOfSpace

/-- What is left when a change of what a key has is interrupted: the items as they should
be, but for those of an upper half. The number of entries is as it should be. -/
def Spoiled (g : Regime K V) (k : κ) (f : Option ν → Option ν) (items : List (κ × ν))
    (t : Tree σ K V) (e : Error) (t' : Tree σ K V) : Prop :=
  ∃ o items', Alters k o (f o) items items' ∧ g.Misses items' e t' ∧
    t'.descriptor.size = t.descriptor.size + (items'.length - items.length)

omit [K.Lawful] [V.Lawful] in
theorem Spoiled.isOutOfSpace {items : List (κ × ν)} {e : Error}
    (h : g.Spoiled k f items t e t') : IsOutOfSpace e := by
  obtain ⟨o, items', -, hmisses, -⟩ := h
  exact hmisses.isOutOfSpace

omit [K.Lawful] [V.Lawful] in
theorem Interrupted.spoiled {x : Subtree κ ν level} {e : Error} (h : g.Rooted level x R t)
    (hi : g.Interrupted level (g.SoundRoot level) k f x R t e t') :
    g.Spoiled k f (x.items level) t e t' := by
  obtain ⟨o, items', halters, hon, hgains, y, bottom, z, hnumber, hy, hlacks, he, hH⟩ := hi
  obtain ⟨M, hM, hbelow⟩ := Heap.holds_append.1 hH
  have hrooted : g.Rooted level y M t' :=
    ⟨hon, (hgains.root_eq.trans h.root_eq).trans hnumber.symm,
      hgains.leafLevel_eq.trans h.leafLevel_eq, hy, hM⟩
  refine ⟨o, items', halters,
    ⟨level, y, M, bottom, z, hrooted, hlacks, .inl ⟨⟨_, hbelow⟩, he⟩⟩, ?_⟩
  rw [hgains.descriptor_eq]

omit [K.Lawful] [V.Lawful] in
/-- The halves of a root without a root above them. -/
theorem Halved.misses {n : BlockNumber} {items : List (κ × ν)} {demand : Demand} {e : Error}
    (h : g.Halved level Span.all n items R demand t) (hon : g.On t)
    (hroot : t.descriptor.root = n) (hlevel : t.descriptor.leafLevel = (level : Int) - 1)
    (he : IsFull .index e) : g.Misses items e t := by
  obtain ⟨y, k, z, -, rfl, hhalves, rfl, hH⟩ := h
  obtain ⟨M, hM, hupper⟩ := Heap.holds_append.1 hH
  have hlacks : g.Lacks z level y (y.items level ++ z.items level) :=
    ⟨Span.all, y, k, [], [], .here, hhalves, by simp⟩
  exact ⟨level, y, M, level, z, ⟨hon, hroot, hlevel, hhalves.sound.root, hM⟩, hlacks,
    .inr ⟨rfl, ⟨_, hupper⟩, he⟩⟩

/-- Changing what a key has changes the items of the tree at this key, and fails only
if a pool is full. -/
theorem update_ends (hedit : g.Edits edit k f) (hw : K.Writes k) {items : List (κ × ν)}
    (h : g.Holding items R t) :
    Ends (Tree.update (K.bytes k) edit) t (g.Spoiled k f items t) fun o t' =>
      ∃ items', Alters k o (f o) items items' ∧ g.Holding items' R t' ∧
        t'.descriptor.size = t.descriptor.size + (items'.length - items.length) ∧
        LawfulStore.reserved t'.store = LawfulStore.reserved t.store := by
  obtain ⟨level, x, hrooted, rfl⟩ := h
  rw [Tree.update]
  refine ends_bind_get ?_
  rw [hrooted.indexLevels_eq, hrooted.root_eq]
  refine ((updateRoot_ends hedit hw hrooted).imp_error fun _ _ he => he.spoiled hrooted).bind ?_
  rintro ⟨d, o⟩ t₂ ⟨items', t₁, halters, hgains, ⟨hstays, hhalved⟩ | ⟨rfl, hholding, hmoves⟩⟩
  · have hdescriptor := hstays.descriptor.trans hgains.descriptor_eq
    have hroot : t₂.descriptor.root = x.number := by
      rw [hdescriptor]
      exact hrooted.root_eq
    have hlevel : t₂.descriptor.leafLevel = (level : Int) - 1 := by
      rw [hdescriptor]
      exact hrooted.leafLevel_eq
    have hmisses {e : Error} := hhalved.misses (e := e) hstays.on hroot hlevel
    obtain ⟨y, k', z, rfl, hy, hhalves, rfl, hH⟩ := hhalved
    refine Ends.bind ((raiseRoot_ends hstays.on (hroot.trans hy.symm) hlevel hhalves.fits
      hhalves.lower hhalves.upper hH).imp_error ?_) ?_
    · rintro e t₃ ⟨he, rfl⟩
      exact ⟨o, _, halters, hmisses he, by rw [hdescriptor]⟩
    · rintro - t₃ ⟨hholding, hmoves⟩
      refine ends_pure ⟨_, halters, hholding, ?_, ?_⟩
      · rw [hmoves.size_eq, hdescriptor]
      · rw [hmoves.reserved_eq, hstays.reserved, hgains.reserved_eq]
  · refine ends_pure ⟨items', halters, hholding, ?_, ?_⟩
    · rw [hmoves.size_eq, hgains.descriptor_eq]
    · rw [hmoves.reserved_eq, hgains.reserved_eq]

end Way

end PagedMap.Regime
