/-
# What a block's demand makes of its parent

A hole in an index block is where a child, or two children with the separator
between them, were taken out; what is around a hole is sound. A demand settles a
change if doing what it requires makes an index block whose children are sound
again and hold the items they should. There are four ways: the child is put back
(`Regime.settles_nothing`), two children take its place
(`Regime.settles_split`), or two neighbours are put back with another separator
or as one (`Regime.settles_replace`, `Regime.settles_remove`).

A block that is cut in two has its lower half written before the upper half gets a block. If
there is none for it then what the upper half holds is lost: the tree that is left lacks that
half, below some block on the way down (`Regime.Lacks`, `Regime.Torn`).

Key definitions: `Subtree.Leads`, `Regime.Hole`, `Regime.Settles`, `Regime.Halves`,
`Regime.Halved`, `Regime.Lacks`, `Regime.Torn`, `Regime.CutOff`.
-/
import PagedMap.Proofs.Tree.Cells
import PagedMap.Tree.Update

namespace PagedMap

/-- The bounds of the child between the last of some separators and the first of
others. -/
def Span.between {κ : Type} (r : Span κ) (as bs : List κ) : Span κ :=
  ⟨as.getLast?.or r.lower?, bs.head?.or r.upper?⟩

/-- The way from a subtree down to `y`, with the items of the leaves that are passed on
either side. -/
inductive Subtree.Leads {κ ν : Type} {bottom : Nat} (y : Subtree κ ν bottom) :
    (level : Nat) → Subtree κ ν level → List (κ × ν) → List (κ × ν) → Prop
  | here : Leads y bottom y [] []
  | child {level : Nat} {x : Subtree κ ν (level + 1)} {cs ds : List (Subtree κ ν level)}
      {c : Subtree κ ν level} {before after : List (κ × ν)} : x.children = cs ++ c :: ds →
      Leads y level c before after →
      Leads y (level + 1) x (cs.flatMap (items level) ++ before)
        (after ++ ds.flatMap (items level))

/-- The items are those that are passed, with those of the subtree below between them. -/
theorem Subtree.Leads.items_eq {κ ν : Type} {bottom level : Nat} {y : Subtree κ ν bottom}
    {x : Subtree κ ν level} {before after : List (κ × ν)} (h : y.Leads level x before after) :
    x.items level = before ++ (y.items bottom ++ after) := by
  induction h with
  | here => simp
  | child hchildren _ ih => simp [hchildren, ih]

namespace Regime

variable {σ κ ν : Type} [Store σ] [LawfulStore σ] [LinearOrder κ] {K : OrderedCodec κ}
  {V : Codec ν} {g : Regime K V}

/-- What is around a place for children is sound. -/
structure Hole (g : Regime K V) (level : Nat) (r : Span κ) (as bs : List κ)
    (cs ds : List (Subtree κ ν level)) : Prop where
  before : Before (g.Sound level) r.lower? as cs
  after : After (g.Sound level) r.upper? bs ds
  fits : ∀ k ∈ as ++ bs, g.FitsKey k

/-- The demand makes of an index block one whose children are sound, hold the
items and take their cells beside the rest. -/
def Settles (g : Regime K V) (level : Nat) (r : Span κ) (node : Index K) (position : Nat)
    (items : List (κ × ν)) (R : Heap) (demand : Demand) (t : Tree σ K V) : Prop :=
  ∃ keys children, demand.apply node position = .ok (g.node keys (children.map Subtree.number)) ∧
    (∀ k ∈ keys, g.FitsKey k) ∧ Chain (g.Sound level) r keys children ∧
    Index.weight K keys ≤ node.entryBytes + g.third 1 ∧
    children.flatMap (Subtree.items level) = items ∧
    (heap t).Holds (children.flatMap (g.cells level)) R

variable {level : Nat} {r : Span κ} {as bs : List κ} {cs ds : List (Subtree κ ν level)}

theorem perm_flatMap_focus {α β : Type} (f : α → List β) (xs ys zs : List α) :
    (xs ++ ys ++ zs).flatMap f |>.Perm (ys.flatMap f ++ (xs.flatMap f ++ zs.flatMap f)) := by
  simp only [List.flatMap_append, List.append_assoc]
  exact (List.perm_append_comm_assoc _ _ _)

namespace Hole

theorem lengths (h : g.Hole level r as bs cs ds) : cs.length = as.length ∧ ds.length = bs.length :=
  ⟨h.before.length, h.after.length⟩

/-- One sound child fills the hole. -/
theorem fill (h : g.Hole level r as bs cs ds) {x : Subtree κ ν level}
    (hx : g.Sound level (r.between as bs) x) :
    Chain (g.Sound level) r (as ++ bs) (cs ++ x :: ds) :=
  (chain_focus h.before.length).2 ⟨h.before, hx, h.after⟩

/-- Two sound children with a separator between them fill the hole. -/
theorem fill₂ (h : g.Hole level r as bs cs ds) {k : κ} {y z : Subtree κ ν level}
    (hy : g.Sound level ⟨(r.between as bs).lower?, some k⟩ y)
    (hz : g.Sound level ⟨some k, (r.between as bs).upper?⟩ z) :
    Chain (g.Sound level) r (as ++ k :: bs) (cs ++ y :: z :: ds) :=
  (chain_focus h.before.length).2 ⟨h.before, hy, hz, h.after⟩

theorem sound (h : g.Hole level r as bs cs ds) {y : Subtree κ ν level} (hy : y ∈ cs ++ ds) :
    ∃ r, g.Sound level r y :=
  (List.mem_append.1 hy).elim (h.before.of_mem y) (h.after.of_mem y)

theorem writes (h : g.Hole level r as bs cs ds) : ∀ k ∈ as ++ bs, K.Writes k :=
  fun k hk => (h.fits k hk).writes

theorem fits_insert (h : g.Hole level r as bs cs ds) {k : κ} (hk : g.FitsKey k) :
    ∀ a ∈ as ++ k :: bs, g.FitsKey a := by
  intro a ha
  rcases List.mem_append.1 ha with ha | ha
  · exact h.fits a (List.mem_append_left _ ha)
  · rcases List.mem_cons.1 ha with rfl | ha
    · exact hk
    · exact h.fits a (List.mem_append_right _ ha)

end Hole

section Settles

variable {t : Tree σ K V} {position : Nat} {R : Heap} {x y z y' z' : Subtree κ ν level}
  {k k' : κ}

/-- The child is put back. -/
theorem settles_nothing (position : Nat) (h : g.Hole level r as bs cs ds)
    (hx : g.Sound level (r.between as bs) x)
    (hH : (heap t).Holds (g.cells level x ++ (cs.flatMap (g.cells level) ++
      ds.flatMap (g.cells level))) R) :
    g.Settles level r (g.node (as ++ bs) ((cs ++ x :: ds).map Subtree.number)) position
      (cs.flatMap (Subtree.items level) ++ (x.items level ++ ds.flatMap (Subtree.items level))) R
      .nothing t := by
  have hlen : (cs ++ x :: ds).length = (as ++ bs).length + 1 := by
    have := h.lengths
    simp
    omega
  refine ⟨as ++ bs, cs ++ x :: ds, rfl, h.fits, h.fill hx, ?_, by simp, ?_⟩
  · rw [node, Index.entryBytes_ofParts (by simpa using hlen)]
    omega
  · refine hH.perm ?_
    have := (perm_flatMap_focus (g.cells level) cs [x] ds).symm
    simpa using this

variable [K.Lawful]

/-- Two children take the place of one. -/
theorem settles_split (hv : g.shape.Valid) (h : g.Hole level r as bs cs ds) (hk : g.FitsKey k)
    (hy : g.Sound level ⟨(r.between as bs).lower?, some k⟩ y)
    (hz : g.Sound level ⟨some k, (r.between as bs).upper?⟩ z)
    (hH : (heap t).Holds (g.cells level y ++ (g.cells level z ++ (cs.flatMap (g.cells level) ++
      ds.flatMap (g.cells level)))) R) :
    g.Settles level r (g.node (as ++ bs) ((cs ++ y :: ds).map Subtree.number)) as.length
      (cs.flatMap (Subtree.items level) ++ (y.items level ++ z.items level ++
        ds.flatMap (Subtree.items level))) R
      (.split (K.bytes k) z.number) t := by
  have hlengths := h.lengths
  have hchain := h.fill₂ hy hz
  obtain ⟨hsorted, -⟩ := (Chain.keys (fun _ _ hc => hc.proper) hchain).2
  have haround := List.pairwise_append.1 hsorted
  have hleft : Index.child (g.node (as ++ bs) ((cs ++ y :: ds).map Subtree.number)) as.length =
      .ok y.number := by
    refine Index.child_ofParts (by simp; omega) h.writes ?_
    simp [← hlengths.1]
  have hinsert := @Index.insertSeparator_ofParts _ K (g.size 1) as bs
    (cs.map Subtree.number) (ds.map Subtree.number) _ _ k y.number z.number
    (by simpa using hlengths.1) (by simpa using hlengths.2) h.writes hk.writes
    (hsorted.sublist (List.Sublist.append (List.Sublist.refl as) (List.sublist_cons_self k bs)))
    (fun a ha => haround.2.2 a ha k (List.mem_cons_self ..))
    (List.pairwise_cons.1 haround.2.1).1
  refine ⟨as ++ k :: bs, cs ++ y :: z :: ds, ?_, h.fits_insert hk, hchain, ?_, by simp, ?_⟩
  · rw [List.map_append, List.map_cons] at hleft
    simp only [Demand.apply, node, List.map_append, List.map_cons] at hleft ⊢
    simp only [hleft, bind, Except.bind, hinsert, pure, Except.pure]
  · have := hk.length_le hv
    rw [node, Index.entryBytes_ofParts (by simp; omega), Index.weight_append, Index.weight_append,
      Index.weight_cons]
    omega
  · refine hH.perm ?_
    have := (perm_flatMap_focus (g.cells level) cs [y, z] ds).symm
    simpa using this

/-- Two neighbours are put back with another separator between them. -/
theorem settles_replace (hv : g.shape.Valid) (h : g.Hole level r as bs cs ds) (hk : g.FitsKey k)
    (hk' : g.FitsKey k') (hy' : g.Sound level ⟨(r.between as bs).lower?, some k'⟩ y')
    (hz' : g.Sound level ⟨some k', (r.between as bs).upper?⟩ z')
    (hH : (heap t).Holds (g.cells level y' ++ (g.cells level z' ++ (cs.flatMap (g.cells level) ++
      ds.flatMap (g.cells level)))) R)
    (hy : y'.number = y.number) (hz : z'.number = z.number) :
    g.Settles level r (g.node (as ++ k :: bs) ((cs ++ y :: z :: ds).map Subtree.number)) position
      (cs.flatMap (Subtree.items level) ++ (y'.items level ++ z'.items level ++
        ds.flatMap (Subtree.items level))) R
      (.replace as.length (K.bytes k')) t := by
  have hlengths := h.lengths
  refine ⟨as ++ k' :: bs, cs ++ y' :: z' :: ds, ?_, h.fits_insert hk', h.fill₂ hy' hz', ?_,
    by simp, ?_⟩
  · have hreplace := @Index.replaceSeparator_ofParts _ K (g.size 1) as bs
      (cs.map Subtree.number) (ds.map Subtree.number) _ _ k y.number z.number k'
      (by simpa using hlengths.1) (by simpa using hlengths.2)
      (fun a ha => (h.fits_insert hk a ha).writes)
    simpa only [Demand.apply, node, List.map_append, List.map_cons, hy, hz] using hreplace
  · have := hk'.length_le hv
    rw [node, Index.entryBytes_ofParts (by simp; omega), Index.weight_append, Index.weight_append,
      Index.weight_cons, Index.weight_cons]
    omega
  · refine hH.perm ?_
    have := (perm_flatMap_focus (g.cells level) cs [y', z'] ds).symm
    simpa using this

/-- Two neighbours are put back as one. -/
theorem settles_remove (h : g.Hole level r as bs cs ds) (hk : g.FitsKey k)
    (hy' : g.Sound level (r.between as bs) y')
    (hH : (heap t).Holds (g.cells level y' ++ (cs.flatMap (g.cells level) ++
      ds.flatMap (g.cells level))) R) (hy : y'.number = y.number) :
    g.Settles level r (g.node (as ++ k :: bs) ((cs ++ y :: z :: ds).map Subtree.number)) position
      (cs.flatMap (Subtree.items level) ++ (y'.items level ++ ds.flatMap (Subtree.items level))) R
      (.remove as.length) t := by
  have hlengths := h.lengths
  refine ⟨as ++ bs, cs ++ y' :: ds, ?_, h.fits, h.fill hy', ?_, by simp, ?_⟩
  · have hremove := @Index.removeSeparator_ofParts _ K (g.size 1) as bs
      (cs.map Subtree.number) (ds.map Subtree.number) _ _ k y.number z.number
      (by simpa using hlengths.1) (by simpa using hlengths.2)
      (fun a ha => (h.fits_insert hk a ha).writes)
    simp only [Demand.apply, node, List.map_append, List.map_cons, hy, hremove, bind, Except.bind,
      pure, Except.pure]
  · rw [node, Index.entryBytes_ofParts (by simp; omega), Index.weight_append, Index.weight_append,
      Index.weight_cons]
    omega
  · refine hH.perm ?_
    have := (perm_flatMap_focus (g.cells level) cs [y'] ds).symm
    simpa using this

/-! ### A child cut in two -/

/-- The block of two halves and the separator between them is too large, and is cut in two
just there. -/
def Cuts (g : Regime K V) : (level : Nat) → Subtree κ ν level → κ → Subtree κ ν level → Prop
  | 0, y, _, z =>
    (g.leaf (y.items ++ z.items)).isOverflowed = true ∧
      Block.split (g.leaf (y.items ++ z.items)) = (.ok (g.leaf z.items), g.leaf y.items)
  | _ + 1, y, k, z =>
    let whole := g.node (y.keys ++ k :: z.keys) ((y.children ++ z.children).map Subtree.number)
    whole.isOverflowed = true ∧ Index.promote whole = (.ok (K.bytes k, g.block z), g.block y)

/-- Sound halves of a block that was cut in two, with a separator between them. -/
structure Halves (g : Regime K V) (level : Nat) (r : Span κ) (y : Subtree κ ν level) (k : κ)
    (z : Subtree κ ν level) : Prop where
  fits : g.FitsKey k
  lower : g.Sound level ⟨r.lower?, some k⟩ y
  upper : g.Sound level ⟨some k, r.upper?⟩ z
  cuts : g.Cuts level y k z

omit [K.Lawful] in
/-- The lower half is sound within the bounds of the block. -/
theorem Halves.sound (h : g.Halves level r y k z) : g.Sound level r y :=
  h.lower.raise fun b hb => le_of_lt (h.upper.proper k rfl b hb)

/-- A block of the number is cut into halves that hold the items. -/
def Halved (g : Regime K V) (level : Nat) (r : Span κ) (n : BlockNumber) (items : List (κ × ν))
    (R : Heap) (demand : Demand) (t : Tree σ K V) : Prop :=
  ∃ (y : Subtree κ ν level) (k : κ) (z : Subtree κ ν level),
    demand = .split (K.bytes k) z.number ∧ y.number = n ∧ g.Halves level r y k z ∧
    y.items level ++ z.items level = items ∧ (heap t).Holds (g.cells level y ++ g.cells level z) R

/-- The halves of a child settle its change. -/
theorem Halved.settles (hv : g.shape.Valid) (h : g.Hole level r as bs cs ds)
    {items : List (κ × ν)} {demand : Demand} {M : Heap}
    (hhalved : g.Halved level (r.between as bs) x.number items M demand t)
    (hM : M.Holds (cs.flatMap (g.cells level) ++ ds.flatMap (g.cells level)) R) :
    g.Settles level r (g.node (as ++ bs) ((cs ++ x :: ds).map Subtree.number)) as.length
      (cs.flatMap (Subtree.items level) ++ (items ++ ds.flatMap (Subtree.items level))) R
      demand t := by
  obtain ⟨y, k, z, rfl, hnumber, hhalves, rfl, hH⟩ := hhalved
  have hsettles := settles_split hv h hhalves.fits hhalves.lower hhalves.upper
    ((List.append_assoc ..) ▸ Heap.holds_append.2 ⟨M, hH, hM⟩)
  rw [List.map_append, List.map_cons, hnumber] at hsettles
  rw [List.map_append, List.map_cons]
  exact hsettles

/-! ### A child of which an upper half is lost -/

/-- The subtree would hold the items if the upper half `z` of a block that was cut in two
were there. The lower half is in the block's place. -/
def Lacks (g : Regime K V) {bottom : Nat} (z : Subtree κ ν bottom) (level : Nat)
    (x : Subtree κ ν level) (items : List (κ × ν)) : Prop :=
  ∃ (r : Span κ) (y : Subtree κ ν bottom) (k : κ) (before after : List (κ × ν)),
    y.Leads level x before after ∧ g.Halves bottom r y k z ∧
    items = before ++ (y.items bottom ++ (z.items bottom ++ after))

omit [K.Lawful] in
/-- What a child lacks its parent lacks. -/
theorem Lacks.child {bottom : Nat} {z : Subtree κ ν bottom} {c : Subtree κ ν level}
    {x : Subtree κ ν (level + 1)} {items : List (κ × ν)} (h : g.Lacks z level c items)
    (hx : x.children = cs ++ c :: ds) :
    g.Lacks z (level + 1) x
      (cs.flatMap (Subtree.items level) ++ (items ++ ds.flatMap (Subtree.items level))) := by
  obtain ⟨r, y, k, before, after, hleads, hhalves, rfl⟩ := h
  exact ⟨r, y, k, _, _, .child hx hleads, hhalves, by simp⟩

/-- Under the number there is a subtree that lacks an upper half which got no block. Nothing
leads to the blocks that are below that half. -/
def Torn (g : Regime K V) (level : Nat) (P : Subtree κ ν level → Prop) (n : BlockNumber)
    (items : List (κ × ν)) (R : Heap) (e : Error) (t : Tree σ K V) : Prop :=
  ∃ (x : Subtree κ ν level) (bottom : Nat) (z : Subtree κ ν bottom), x.number = n ∧ P x ∧
    g.Lacks z level x items ∧ IsFull (kind bottom) e ∧
    (heap t).Holds (g.cells level x ++ g.below bottom z) R

omit [K.Lawful] in
theorem Torn.imp {P Q : Subtree κ ν level → Prop} {n : BlockNumber} {items : List (κ × ν)}
    {e : Error} (h : g.Torn level P n items R e t) (hPQ : ∀ y, P y → Q y) :
    g.Torn level Q n items R e t := by
  obtain ⟨x, bottom, z, hnumber, hx, hrest⟩ := h
  exact ⟨x, bottom, z, hnumber, hPQ x hx, hrest⟩

/-- For want of a block the upper half of one that was cut in two is lost. -/
def CutOff (g : Regime K V) (level : Nat) (r : Span κ) (n : BlockNumber) (items : List (κ × ν))
    (R : Heap) (t : Tree σ K V) (e : Error) (t' : Tree σ K V) : Prop :=
  g.Stays t t' ∧ g.Torn level (g.Sound level r) n items R e t'

omit [K.Lawful] in
/-- The lower half of a block is in its place, and the upper half gets none. -/
theorem Halves.cutOff (h : g.Halves level r y k z) {e : Error} {t' : Tree σ K V}
    (hstays : g.Stays t t') (he : IsFull (kind level) e)
    (hH : (heap t').Holds (g.cells level y ++ g.below level z) R) :
    g.CutOff level r y.number (y.items level ++ z.items level) R t e t' :=
  ⟨hstays, y, level, z, rfl, h.sound, ⟨r, y, k, [], [], .here, h, by simp⟩, he, hH⟩

end Settles

end Regime

end PagedMap
