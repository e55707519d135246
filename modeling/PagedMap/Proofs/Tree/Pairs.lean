/-
# The neighbours of a changed child

A changed child makes a pair with the neighbour on either side. Around each pair
the parent is sound, and one of the two is (`Regime.Near`); the pairs that are
read from the parent are such pairs (`Regime.pairs_run`).

Key definitions: `Regime.Near`, `Regime.IsPair`.
Key theorem: `Regime.pairs_run`.
-/
import PagedMap.Proofs.Tree.Settle

namespace PagedMap.Regime

variable {κ ν : Type} [LinearOrder κ] {K : OrderedCodec κ} {V : Codec ν} {g : Regime K V}

/-- Two neighbours around the separator `k`, well-placed and not too full, one
of them sound, of which the heap holds the cells. -/
structure Near (g : Regime K V) (level : Nat) (r : Span κ) (as : List κ) (k : κ) (bs : List κ)
    (cs : List (Subtree κ ν level)) (y z : Subtree κ ν level) (ds : List (Subtree κ ν level))
    (H R : Heap) : Prop where
  hole : g.Hole level r as bs cs ds
  fits : g.FitsKey k
  lower : g.Fair level ⟨(r.between as bs).lower?, some k⟩ y
  upper : g.Fair level ⟨some k, (r.between as bs).upper?⟩ z
  lower_lt : ∀ a ∈ (r.between as bs).lower?, a < k
  lt_upper : ∀ b ∈ (r.between as bs).upper?, k < b
  lower_le : g.mass level y ≤ g.room level
  upper_le : g.mass level z ≤ g.room level
  tight : g.Tight level y ∨ g.Tight level z
  holds : ∃ old old', H.Holds ((g.spot level y.number, old) :: (g.spot level z.number, old') ::
    (g.below level y ++ (g.below level z ++ (cs.flatMap (g.cells level) ++
      ds.flatMap (g.cells level))))) R

/-- The pair is one of two neighbours among the children, of which one is
`x`. -/
def IsPair {β : Type} (g : Regime K V) (level : Nat) (block : Subtree κ ν level → β) (r : Span κ)
    (keys : List κ) (children : List (Subtree κ ν level)) (x : Subtree κ ν level) (H R : Heap)
    (p : Neighbours β) : Prop :=
  ∃ as k bs cs y z ds, keys = as ++ k :: bs ∧ children = cs ++ y :: z :: ds ∧ (x = y ∨ x = z) ∧
    p = ⟨as.length, y.number, block y, z.number, block z⟩ ∧ g.Near level r as k bs cs y z ds H R

variable {β : Type} {level : Nat} {r : Span κ} {as bs : List κ} {cs ds : List (Subtree κ ν level)}
  {x : Subtree κ ν level} {H R : Heap} {old : Bytes} {block : Subtree κ ν level → β}

/-- The pair with the neighbour on the left. -/
theorem isPair_left {k : κ} {y : Subtree κ ν level}
    (h : g.Hole level r (as ++ [k]) bs (cs ++ [y]) ds)
    (hproper : (r.between (as ++ [k]) bs).Proper)
    (hx : g.Fair level (r.between (as ++ [k]) bs) x) (hmass : g.mass level x ≤ g.room level)
    (hH : H.Holds ((g.spot level x.number, old) :: (g.below level x ++
      ((cs ++ [y]).flatMap (g.cells level) ++ ds.flatMap (g.cells level)))) R) :
    g.IsPair level block r (as ++ [k] ++ bs) (cs ++ [y] ++ x :: ds) x H R
      ⟨as.length, y.number, block y, x.number, block x⟩ := by
  obtain ⟨hbefore, hy⟩ := before_concat.1 h.before
  have hspan : r.between (as ++ [k]) bs = ⟨some k, (r.between as bs).upper?⟩ := by
    simp [Span.between]
  refine ⟨as, k, bs, cs, y, x, ds, by simp, by simp, .inr rfl, rfl,
    ⟨hbefore, h.after, fun a ha => h.fits a ?_⟩, h.fits k (by simp), hy.fair, hspan ▸ hx,
    fun a ha => hy.proper a ha k rfl, (hspan ▸ hproper) k rfl, hy.tight.mass_le, hmass,
    .inl hy.tight, (g.cell level y).2, old, hH.perm ?_⟩
  · rcases List.mem_append.1 ha with ha | ha <;> simp [ha]
  · rw [List.flatMap_append, List.flatMap_singleton, g.cells_eq level y, g.cell_mk]
    refine List.perm_iff_count.2 fun c => ?_
    simp only [List.count_append, List.count_cons]
    omega

/-- The pair with the neighbour on the right. -/
theorem isPair_right {k : κ} {z : Subtree κ ν level} (h : g.Hole level r as (k :: bs) cs (z :: ds))
    (hproper : (r.between as (k :: bs)).Proper)
    (hx : g.Fair level (r.between as (k :: bs)) x) (hmass : g.mass level x ≤ g.room level)
    (hH : H.Holds ((g.spot level x.number, old) :: (g.below level x ++
      (cs.flatMap (g.cells level) ++ (z :: ds).flatMap (g.cells level)))) R) :
    g.IsPair level block r (as ++ k :: bs) (cs ++ x :: z :: ds) x H R
      ⟨as.length, x.number, block x, z.number, block z⟩ := by
  obtain ⟨hz, hafter⟩ := h.after
  refine ⟨as, k, bs, cs, x, z, ds, rfl, rfl, .inl rfl, rfl,
    ⟨h.before, hafter, fun a ha => h.fits a ?_⟩, h.fits k (by simp), hx, hz.fair,
    fun a ha => hproper a ha k rfl, hz.proper k rfl, hmass, hz.tight.mass_le, .inr hz.tight, old,
    (g.cell level z).2, hH.perm ?_⟩
  · rcases List.mem_append.1 ha with ha | ha <;> simp [ha]
  · rw [List.flatMap_cons, g.cells_eq level z, g.cell_mk]
    refine List.perm_iff_count.2 fun c => ?_
    simp only [List.count_append, List.count_cons]
    omega

variable [K.Lawful]

section Settled

variable {σ : Type} [Store σ] [LawfulStore σ] {t : Tree σ K V} {position : Nat} {k k' : κ}
  {y z y' z' : Subtree κ ν level}

/-- Neighbours that were written anew, with another separator between them, settle a
change of their items. -/
theorem Near.settles_replace (hn : g.Near level r as k bs cs y z ds H R) (hv : g.shape.Valid)
    (hk' : g.FitsKey k') (hy' : g.Sound level ⟨(r.between as bs).lower?, some k'⟩ y')
    (hz' : g.Sound level ⟨some k', (r.between as bs).upper?⟩ z') (hy : y'.number = y.number)
    (hz : z'.number = z.number)
    (hitems : y'.items level ++ z'.items level = y.items level ++ z.items level)
    (hbelow : g.below level y' ++ g.below level z' = g.below level y ++ g.below level z)
    (hH : (heap t).Holds (g.cell level z' :: g.cell level y' :: (g.below level y ++
      (g.below level z ++ (cs.flatMap (g.cells level) ++ ds.flatMap (g.cells level))))) R) :
    g.Settles level r (g.node (as ++ k :: bs) ((cs ++ y :: z :: ds).map Subtree.number)) position
      ((cs ++ y :: z :: ds).flatMap (Subtree.items level)) R (.replace as.length (K.bytes k')) t := by
  have hfocus : (cs ++ y :: z :: ds).flatMap (Subtree.items level) =
      cs.flatMap (Subtree.items level) ++ (y'.items level ++ z'.items level ++
        ds.flatMap (Subtree.items level)) := by
    rw [hitems, List.flatMap_append, List.flatMap_cons, List.flatMap_cons, List.append_assoc]
  rw [hfocus]
  refine Regime.settles_replace hv hn.hole hn.fits hk' hy' hz' (hH.perm ?_) hy hz
  rw [← List.append_assoc (g.below level y), ← hbelow, g.cells_eq level y', g.cells_eq level z']
  refine List.perm_iff_count.2 fun c => ?_
  simp only [List.count_append, List.count_cons]
  omega

/-- Neighbours that were written as one settle a change of their items. -/
theorem Near.settles_remove (hn : g.Near level r as k bs cs y z ds H R)
    (hy' : g.Sound level (r.between as bs) y') (hy : y'.number = y.number)
    (hitems : y'.items level = y.items level ++ z.items level)
    (hbelow : g.below level y' = g.below level y ++ g.below level z)
    (hH : (heap t).Holds (g.cell level y' :: (g.below level y ++ (g.below level z ++
      (cs.flatMap (g.cells level) ++ ds.flatMap (g.cells level))))) R) :
    g.Settles level r (g.node (as ++ k :: bs) ((cs ++ y :: z :: ds).map Subtree.number)) position
      ((cs ++ y :: z :: ds).flatMap (Subtree.items level)) R (.remove as.length) t := by
  have hfocus : (cs ++ y :: z :: ds).flatMap (Subtree.items level) =
      cs.flatMap (Subtree.items level) ++ (y'.items level ++ ds.flatMap (Subtree.items level)) := by
    rw [hitems, List.flatMap_append, List.flatMap_cons, List.flatMap_cons, List.append_assoc]
  rw [← List.append_assoc, ← hbelow, ← List.cons_append, ← g.cells_eq] at hH
  rw [hfocus]
  exact Regime.settles_remove hn.hole hn.fits hy' hH hy

end Settled

theorem left?_concat {k : κ} {y : Subtree κ ν level}
    (h : g.Hole level r (as ++ [k]) bs (cs ++ [y]) ds) :
    Parent.left? ⟨g.node (as ++ [k] ++ bs) ((cs ++ [y] ++ x :: ds).map Subtree.number),
      (as ++ [k]).length⟩ = .ok (some (as.length, y.number)) := by
  have hlengths := h.lengths
  have hchild : Index.child (g.node (as ++ [k] ++ bs) ((cs ++ [y] ++ x :: ds).map Subtree.number))
      as.length = .ok y.number := by
    refine Index.child_ofParts (by simp at *; omega) h.writes ?_
    have : cs.length = as.length := by simpa using hlengths.1
    simp [← this]
  simp only [Parent.left?, List.length_append, List.length_singleton, Nat.add_eq_zero_iff,
    Nat.one_ne_zero, and_false, ↓reduceIte, Nat.add_sub_cancel, hchild]
  rfl

theorem right?_cons {k : κ} {z : Subtree κ ν level}
    (h : g.Hole level r as (k :: bs) cs (z :: ds)) :
    Parent.right? ⟨g.node (as ++ k :: bs) ((cs ++ x :: z :: ds).map Subtree.number), as.length⟩ =
      .ok (some (as.length, z.number)) := by
  have hlengths := h.lengths
  have hlen : ((cs ++ x :: z :: ds).map Subtree.number).length = (as ++ k :: bs).length + 1 := by
    simp at *
    omega
  have hchild : Index.child (g.node (as ++ k :: bs) ((cs ++ x :: z :: ds).map Subtree.number))
      (as.length + 1) = .ok z.number := by
    refine Index.child_ofParts hlen h.writes ?_
    simp [← hlengths.1]
  simp only [Parent.right?, hchild]
  rw [if_pos (by rw [node, Index.length_ofParts hlen]; simp)]
  rfl

section Read

variable {load : BlockNumber → Except Error β}

/-- A child is the first one, or makes a pair with the neighbour on the left. -/
theorem left?_run (h : g.Hole level r as bs cs ds) (hproper : (r.between as bs).Proper)
    (hx : g.Fair level (r.between as bs) x) (hmass : g.mass level x ≤ g.room level)
    (hH : H.Holds ((g.spot level x.number, old) :: (g.below level x ++
      (cs.flatMap (g.cells level) ++ ds.flatMap (g.cells level)))) R)
    (hload : ∀ y ∈ cs, load y.number = .ok (block y)) :
    let p : Parent K := ⟨g.node (as ++ bs) ((cs ++ x :: ds).map Subtree.number), as.length⟩
    as = [] ∧ p.left? = .ok none ∨
      ∃ i m b, p.left? = .ok (some (i, m)) ∧ load m = .ok b ∧
        g.IsPair level block r (as ++ bs) (cs ++ x :: ds) x H R ⟨i, m, b, x.number, block x⟩ := by
  rcases List.eq_nil_or_concat' as with rfl | ⟨as, k, rfl⟩
  · exact .inl ⟨rfl, rfl⟩
  · obtain ⟨cs, y, rfl⟩ : ∃ cs' y, cs = cs' ++ [y] := by
      refine (List.eq_nil_or_concat' cs).resolve_left ?_
      rintro rfl
      simpa using h.lengths.1
    exact .inr ⟨_, _, _, left?_concat h, hload y (by simp), isPair_left h hproper hx hmass hH⟩

/-- A child is the last one, or makes a pair with the neighbour on the right. -/
theorem right?_run (h : g.Hole level r as bs cs ds) (hproper : (r.between as bs).Proper)
    (hx : g.Fair level (r.between as bs) x) (hmass : g.mass level x ≤ g.room level)
    (hH : H.Holds ((g.spot level x.number, old) :: (g.below level x ++
      (cs.flatMap (g.cells level) ++ ds.flatMap (g.cells level)))) R)
    (hload : ∀ y ∈ ds, load y.number = .ok (block y)) :
    let p : Parent K := ⟨g.node (as ++ bs) ((cs ++ x :: ds).map Subtree.number), as.length⟩
    bs = [] ∧ p.right? = .ok none ∨
      ∃ i m b, p.right? = .ok (some (i, m)) ∧ load m = .ok b ∧
        g.IsPair level block r (as ++ bs) (cs ++ x :: ds) x H R ⟨i, x.number, block x, m, b⟩ := by
  have hlengths := h.lengths
  match bs, ds, hlengths.2 with
  | [], [], _ =>
    have hlen : ((cs ++ [x]).map Subtree.number).length = (as ++ []).length + 1 := by
      simpa using hlengths.1
    refine .inl ⟨rfl, if_neg ?_⟩
    rw [node, Index.length_ofParts hlen]
    simp
  | k :: bs, z :: ds, _ =>
    exact .inr ⟨_, _, _, right?_cons h, hload z (List.mem_cons_self ..),
      isPair_right h hproper hx hmass hH⟩

/-- The pairs read from a parent are pairs of neighbours, and there are some if
the parent has separators. -/
theorem pairs_run (h : g.Hole level r as bs cs ds)
    (hproper : (r.between as bs).Proper) (hx : g.Fair level (r.between as bs) x)
    (hmass : g.mass level x ≤ g.room level)
    (hH : H.Holds ((g.spot level x.number, old) :: (g.below level x ++
      (cs.flatMap (g.cells level) ++ ds.flatMap (g.cells level)))) R)
    (hload : ∀ y ∈ cs ++ ds, load y.number = .ok (block y)) :
    ∃ ps, Parent.pairs ⟨g.node (as ++ bs) ((cs ++ x :: ds).map Subtree.number), as.length⟩ load
        x.number (block x) = .ok ps ∧
      (∀ p ∈ ps, g.IsPair level block r (as ++ bs) (cs ++ x :: ds) x H R p) ∧
      (as ++ bs ≠ [] → ps ≠ []) := by
  have hleft := left?_run h hproper hx hmass hH fun y hy => hload y (List.mem_append_left _ hy)
  have hright := right?_run h hproper hx hmass hH fun y hy => hload y (List.mem_append_right _ hy)
  rcases hleft with ⟨has, hleft⟩ | ⟨i, m, b, hleft, hm, hpair⟩
  · rcases hright with ⟨hbs, hright⟩ | ⟨i', m', b', hright, hm', hpair'⟩
    · exact ⟨[], by simp only [Parent.pairs, hleft, hright]; rfl, List.forall_mem_nil _,
        by simp [has, hbs]⟩
    · exact ⟨[⟨i', x.number, block x, m', b'⟩], by
        simp only [Parent.pairs, hleft, hright, hm', bind, Except.bind]; rfl,
        List.forall_mem_singleton.2 hpair', by simp⟩
  · rcases hright with ⟨hbs, hright⟩ | ⟨i', m', b', hright, hm', hpair'⟩
    · exact ⟨[⟨i, m, b, x.number, block x⟩], by
        simp only [Parent.pairs, hleft, hright, hm, bind, Except.bind]; rfl,
        List.forall_mem_singleton.2 hpair, by simp⟩
    · exact ⟨[⟨i, m, b, x.number, block x⟩, ⟨i', x.number, block x, m', b'⟩], by
        simp only [Parent.pairs, hleft, hright, hm, hm', bind, Except.bind]; rfl,
        List.forall_mem_cons.2 ⟨hpair, List.forall_mem_singleton.2 hpair'⟩, by simp⟩

end Read

end PagedMap.Regime
