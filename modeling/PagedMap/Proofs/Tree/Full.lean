/-
# Changes in a full store

Taking a key out, and giving it a value that is no longer than the one it has, needs
no free block if all keys are written in the same number of bytes. The leaf of the key
does not grow (`Slims.bytesOf_le`). An index block of which no new separator is
demanded has no more separators than before, and as many bytes for each; so it does not
grow either, although they are other keys (`Regime.updateNode_spares`). By induction
on the number of index levels no block on the way is cut in two
(`Regime.updateBelow_spares`). So the change cannot fail for want of a block, and no
pool has more blocks allocated than before (`Tree.reachable_spares`).

Key definitions: `Slims`, `Regime.SparesBelow`, `Device.Within`.
Key theorems: `Regime.updateBelow_spares`, `Regime.update_spares`,
`Device.Exact.within_of_sparing`, `Tree.reachable_spares`.
-/
import PagedMap.Proofs.Tree.Lookup
import PagedMap.Proofs.Tree.RolledBack
import PagedMap.Proofs.Tree.Sparing

namespace PagedMap

open Block (bytesOf)

variable {σ κ ν : Type} [LinearOrder κ] {K : OrderedCodec κ} {V : Codec ν} {k : κ}
  {f : Option ν → Option ν} {items items' : List (κ × ν)}

/-- The change does not make what the key has among the items longer. -/
def Slims (K : OrderedCodec κ) (V : Codec ν) (k : κ) (f : Option ν → Option ν)
    (items : List (κ × ν)) : Prop :=
  ∀ {o items'}, Alters k o (f o) items items' →
    bytesOf K V (itemOf k (f o)) ≤ bytesOf K V (itemOf k o)

theorem slims_erase : Slims K V k (fun _ => none) items := fun _ => Nat.zero_le _

theorem slims_insert {v old : ν} (hmem : (k, old) ∈ items) (hle : V.width v ≤ V.width old) :
    Slims K V k (fun _ => some v) items := by
  intro o items' halters
  obtain rfl : o = some old := halters.old_iff.1 hmem
  simpa [itemOf, Block.length_record] using hle

theorem Slims.bytesOf_le (h : Slims K V k f items) {o : Option ν}
    (halters : Alters k o (f o) items items') : bytesOf K V items' ≤ bytesOf K V items := by
  have hitem := h halters
  obtain ⟨xs, ys, rfl, rfl, -, -⟩ := halters
  simp only [Block.bytesOf_append]
  omega

namespace Regime

variable [Store σ] [LawfulStore σ] {g : Regime K V} {level : Nat} {r : Span κ} {R : Heap}
  {t : Tree σ K V}

/-- What the key has is among the items of the child under which it belongs. -/
theorem Route.slims {x : Subtree κ ν (level + 1)} {as bs : List κ}
    {cs ds : List (Subtree κ ν level)}
    {c : Subtree κ ν level} (hroute : g.Route level r x k as bs cs c ds)
    (h : Slims K V k f (x.items (level + 1))) : Slims K V k f (c.items level) := by
  intro o items' halters
  have hwide := halters.widen hroute.before hroute.after
  rw [← hroute.items_eq] at hwide
  exact h hwide

section Way

variable [K.Lawful] [V.Lawful] {edit : Leaf K V → Except Error (LeafEdit K V (Option ν))}

/-- No new separator is demanded, and no block was taken. -/
def SparingEnd (t : Tree σ K V) (p : Demand × Option ν) (t' : Tree σ K V) : Prop :=
  p.1.isSplit = false ∧ Store.Sparing t.store t'.store

/-- A leaf that does not grow is written back without taking a block, if it can be written
back at all. -/
theorem updateLeaf_spares (hedit : g.Edits edit k f) (h : g.On t) {x : LeafNode κ ν}
    (hx : g.FairLeaf r x) (hmass : g.mass 0 x ≤ g.room 0) (hk : r.Has k)
    (hcell : heap t (g.cell 0 x).1 = some (g.cell 0 x).2) (hslims : Slims K V k f x.items)
    {parent? : Option (Parent K)}
    (hwrite : ∀ items' t₁, g.FairLeaf r ⟨x.number, items'⟩ → bytesOf K V items' ≤ g.room 0 →
      g.On t₁ → Gains (items'.length - x.items.length) t t₁ → t₁.store = t.store →
      Ends (Tree.writeBackLeaf parent? x.number (g.leaf items')) t₁ (fun _ _ => False)
        fun _ _ => True) :
    Ends (Tree.updateBelow (K.bytes k) edit 0 parent? x.number) t (fun _ _ => False)
      (SparingEnd t) := by
  refine updateLeaf_ends hedit h hx hmass hk hcell (fun o _ => ⟨rfl, .refl _⟩) ?_
  intro o items' t₁ halters hfair _ hon hgains hstore
  have hmass' : bytesOf K V items' ≤ g.room 0 := Nat.le_trans (hslims.bytesOf_le halters) hmass
  have hfits : (g.leaf items').isOverflowed = false := by
    rw [← Bool.not_eq_true, isOverflowed_leaf h.shape_valid (x := ⟨x.number, items'⟩)]
    exact Nat.not_lt.2 hmass'
  refine ((hwrite items' t₁ hfair hmass' hon hgains hstore).and
    (Tree.writeBackLeaf_spares parent? x.number hfits t₁)).mono (fun _ _ he => he.1) ?_
  rintro d t₂ ⟨-, hsplit, hsparing⟩
  exact ⟨hsplit, hstore ▸ hsparing⟩

/-- A change below a child that does not make it larger takes no block. -/
def SparesBelow (σ : Type) [Store σ] [LawfulStore σ] (g : Regime K V)
    (edit : Leaf K V → Except Error (LeafEdit K V (Option ν))) (k : κ)
    (f : Option ν → Option ν) (level : Nat) : Prop :=
  ∀ {t : Tree σ K V} {r : Span κ} {as bs : List κ} {cs ds : List (Subtree κ ν level)}
    {x : Subtree κ ν level} {R : Heap}, g.On t → g.Hole level r as bs cs ds → as ++ bs ≠ [] →
    g.Sound level (r.between as bs) x → (r.between as bs).Has k → Slims K V k f (x.items level) →
    (heap t).Holds (g.cells level x ++ (cs.flatMap (g.cells level) ++
      ds.flatMap (g.cells level))) R →
    Ends (Tree.updateBelow (K.bytes k) edit level
        (some ⟨g.node (as ++ bs) ((cs ++ x :: ds).map Subtree.number), as.length⟩) x.number) t
      (fun _ _ => False) (SparingEnd t)

omit [K.Lawful] [V.Lawful] in
/-- The index block is reworked without a new separator, so it has as much room as before. -/
theorem Reworked.weight_le_of_isSplit (hK : K.Uniform) {x x' : Subtree κ ν (level + 1)}
    {others : List Cell} {o : Option ν} {t' : Tree σ K V}
    (h : g.Reworked level r k f x others R t o x' t') (hx : g.FairNode (g.Sound level) r x)
    {d : Demand} {position : Nat} (happly : d.apply (g.block x) position = .ok (g.block x'))
    (hsplit : d.isSplit = false) : Index.weight K x'.keys ≤ Index.weight K x.keys := by
  have hlength := Demand.length_apply_le happly hsplit
  rw [block, block, node, node, Index.length_ofParts (FairNode.length hx),
    Index.length_ofParts (FairNode.length h.fair)] at hlength
  exact Index.weight_le_of_length_le hK hlength

omit [V.Lawful] in
/-- If the child can be changed without taking a block, the index block is written back
without taking one, if it can be written back at all. -/
theorem updateNode_spares (hK : K.Uniform) (ih : g.UpdatesBelow σ edit k f level)
    (ih' : g.SparesBelow σ edit k f level) (hw : K.Writes k) (h : g.On t)
    {x : Subtree κ ν (level + 1)} (hx : g.FairNode (g.Sound level) r x)
    (hmass : Index.weight K x.keys ≤ g.room 1) (hne : x.keys ≠ []) (hk : r.Has k)
    (hslims : Slims K V k f (x.items (level + 1))) {others : List Cell}
    (hH : (heap t).Holds (g.cells (level + 1) x ++ others) R) {parent? : Option (Parent K)}
    (hwrite : ∀ o x' t₁, g.Reworked level r k f x others R t o x' t₁ →
      Index.weight K x'.keys ≤ g.room 1 →
      Ends (Tree.writeBackIndex parent? x'.number (g.block x')) t₁ (fun _ _ => False)
        fun _ _ => True) :
    Ends (Tree.updateBelow (K.bytes k) edit (level + 1) parent? x.number) t (fun _ _ => False)
      (SparingEnd t) := by
  obtain ⟨place, c, hplace, hchild, hinner⟩ := child_ends ih hw h hx hne hk hH
  -- the child is the one that the route leads to, and so it is spared too
  obtain ⟨place', as, bs, cs, d, ds, hroute, hplace', hposition, hnumber⟩ := exists_route hx hk hw
  obtain rfl := Except.ok.inj (hplace'.symm.trans hplace)
  rw [← hposition] at hnumber
  obtain rfl := Except.ok.inj (hnumber.symm.trans hchild)
  obtain ⟨M, hM, -⟩ := hroute.holds hH
  have hspares := ih' h hroute.hole (hroute.keys_eq ▸ hne) hroute.sound hroute.has
    (hroute.slims hslims) hM
  rw [hroute.node_eq, ← hposition] at hspares
  refine visitNode_ends h hx hmass (hH.get (List.mem_cons_self ..)) hplace hchild
    ((hspares.and hinner).imp_error fun _ _ he => he.1) (fun o t₁ hp => hp.1) ?_
  rintro d o t₁ ⟨⟨hsplit, hsparing⟩, x', happly, hr⟩
  refine ⟨_, happly, ?_⟩
  have hmass' := Nat.le_trans (hr.weight_le_of_isSplit hK hx happly hsplit) hmass
  have hfits : (g.block x').isOverflowed = false := by
    rw [← Bool.not_eq_true, isOverflowed_block h.shape_valid hr.fair.chain.length]
    exact Nat.not_lt.2 hmass'
  rw [← hr.number_eq]
  refine ((hwrite o x' t₁ hr hmass').and
    (Tree.writeBackIndex_spares parent? x'.number hfits t₁)).mono (fun _ _ he => he.1) ?_
  rintro d' t₂ ⟨-, hsplit', hsparing'⟩
  exact ⟨hsplit', hsparing.trans hsparing'⟩

/-- A change goes down to the leaf of the key and comes back without taking a block. -/
theorem updateBelow_spares (hK : K.Uniform) (hedit : g.Edits edit k f) : ∀ (level : Nat),
    g.SparesBelow σ edit k f level
  | 0, t, r, as, bs, cs, ds, (x : LeafNode κ ν), R, h, hole, hne, hx, hk, hslims, hH => by
    refine updateLeaf_spares hedit h hx.1 hx.2.mass_le hk hH.1 hslims ?_
    intro items' t₁ hfair hmass hon _ hstore
    have hH' : (heap t₁).Holds ((g.spot 0 x.number, (g.cell 0 x).2) ::
        (cs.flatMap (g.cells 0) ++ ds.flatMap (g.cells 0))) R := by
      rw [heap, hstore]
      exact hH
    have hwrite := writeBackLeaf_fits hon hole hne hx.proper hfair hmass hH'
    have hnumbers : (cs ++ ⟨x.number, items'⟩ :: ds).map Subtree.number =
        (cs ++ x :: ds).map Subtree.number := Subtree.map_number_focus rfl
    rw [hnumbers] at hwrite
    exact hwrite.imp fun _ _ _ => trivial
  | level + 1, t, r, as, bs, cs, ds, x, R, h, hole, hne, hx, hk, hslims, hH => by
    have hw := hK.writes k
    have hkeys : x.keys ≠ [] := fun hnil => hx.2.count_ne_zero (congrArg List.length hnil)
    refine updateNode_spares hK (updateBelow_ends hedit hw level)
      (updateBelow_spares hK hedit level) hw h hx.1 hx.2.mass_le hkeys hk hslims hH ?_
    intro o x' t₁ hr hmass
    have hwrite := writeBackIndex_fits hr.on hole hne hx.proper hr.fair hmass hr.holds_spot
    rw [Subtree.map_number_focus hr.number_eq] at hwrite
    exact hwrite.imp fun _ _ _ => trivial

/-- The root is changed without taking a block. -/
theorem updateRoot_spares (hK : K.Uniform) (hedit : g.Edits edit k f) : ∀ {level : Nat}
    {x : Subtree κ ν level}, g.Rooted level x R t → Slims K V k f (x.items level) →
    Ends (Tree.updateBelow (K.bytes k) edit level none x.number) t (fun _ _ => False)
      (SparingEnd t)
  | 0, (x : LeafNode κ ν), h, hslims => by
    refine updateLeaf_spares hedit h.on h.sound.fair h.sound.mass_le (Span.has_all k) h.holds.1
      hslims ?_
    intro items' t₁ hfair hmass hon hgains hstore
    have hH' : (heap t₁).Holds [(g.spot 0 x.number, (g.cell 0 x).2)] R := by
      rw [heap, hstore]
      exact h.holds
    exact (writeBackLeaf_root_fits (x := ⟨x.number, items'⟩) hon
      (hgains.root_eq.trans h.root_eq) (hgains.leafLevel_eq.trans h.leafLevel_eq) hfair hmass
      hH').imp fun _ _ _ => trivial
  | level + 1, x, h, hslims => by
    have hw := hK.writes k
    have hfair : g.FairNode (g.Sound level) Span.all x := h.sound.fair
    have hkeys : x.keys ≠ [] := fun hnil =>
      h.sound.count_ne_zero (Nat.succ_ne_zero _) (congrArg List.length hnil)
    have hH : (heap t).Holds (g.cells (level + 1) x ++ []) R := by
      rw [List.append_nil]
      exact h.holds
    refine updateNode_spares hK (updateBelow_ends hedit hw level)
      (updateBelow_spares hK hedit level) hw h.on hfair h.sound.mass_le hkeys (Span.has_all k)
      hslims hH ?_
    intro o x' t₁ hr hmass
    have hH' : (heap t₁).Holds ((g.spot (level + 1) x'.number, (g.cell (level + 1) x).2) ::
        x'.children.flatMap (g.cells level)) R := by
      rw [← List.append_nil (x'.children.flatMap _)]
      exact hr.holds_spot
    have hlevel : t₁.descriptor.leafLevel = level := by
      rw [hr.gains.leafLevel_eq, h.leafLevel_eq]
      omega
    exact (writeBackIndex_root_fits hr.on ((hr.gains.root_eq.trans h.root_eq).trans
      hr.number_eq.symm) hlevel hr.fair hmass hH').imp fun _ _ _ => trivial

/-- A change that does not make what the key has longer succeeds and takes no block. -/
theorem update_spares (hK : K.Uniform) (hedit : g.Edits edit k f) (h : g.Holding items R t)
    (hslims : Slims K V k f items) :
    Ends (Tree.update (K.bytes k) edit) t (fun _ _ => False)
      fun _ t' => Store.Sparing t.store t'.store := by
  obtain ⟨level, x, hrooted, rfl⟩ := h
  rw [Tree.update]
  refine ends_bind_get ?_
  rw [hrooted.indexLevels_eq, hrooted.root_eq]
  refine (((updateRoot_spares hK hedit hrooted hslims).and
    (updateRoot_ends hedit (hK.writes k) hrooted)).imp_error fun _ _ he => he.1).bind ?_
  rintro ⟨d, o⟩ t₂ ⟨⟨hsplit, hsparing⟩, items', t₁, -, -, ⟨-, hhalved⟩ | ⟨hnothing, -, -⟩⟩
  · obtain ⟨y, k', z, rfl, -⟩ := hhalved
    cases hsplit
  · obtain rfl : d = .nothing := hnothing
    exact ends_pure hsparing

/-- Once what one key has is altered, a tree tells that of this key, and of every other key what
it told before. -/
theorem get?_of_alters (hK : K.Uniform) {t' : Tree σ K V} {R' : Heap} {o o' : Option ν}
    (halters : Alters k o o' items items') (h : g.Holding items R t) (h' : g.Holding items' R' t')
    (a : κ) : t'.get? a = if a = k then .ok o' else t.get? a := by
  obtain ⟨p, hp, hget, -⟩ := lookup_run h (hK.writes a)
  obtain ⟨q, hq, hget', -⟩ := lookup_run h' (hK.writes a)
  have hmem (v : ν) : v ∈ q ↔ a = k ∧ v ∈ o' ∨ a ≠ k ∧ v ∈ p := by
    rw [← hq, halters.mem_iff, ← hp]
  rw [hget', hget]
  by_cases hak : a = k
  · rw [if_pos hak]
    exact congrArg Except.ok (Option.ext fun v => by simpa [hak] using hmem v)
  · rw [if_neg hak]
    exact congrArg Except.ok (Option.ext fun v => by simpa [hak] using hmem v)

/-- A key can be taken out, which takes no block. -/
theorem erase_spares (hK : K.Uniform) (h : g.Stores items R t) (k : κ) :
    ∃ o t', t.get? k = .ok o ∧ Tree.erase k t = (.ok o, t') ∧
      Store.Sparing t.store t'.store ∧
      ∀ a, t'.get? a = if a = k then .ok none else t.get? a := by
  have hw := hK.writes k
  obtain ⟨o', hmem, hget, -⟩ := lookup_run h.holding hw
  have hspares : Ends (Tree.erase k) t (fun _ _ => False)
      fun _ t' => Store.Sparing t.store t'.store := by
    rw [Tree.erase]
    exact ends_bind_lift hw (update_spares hK (edits_erase hw) h.holding slims_erase)
  obtain ⟨o, t', hrun, hsparing, items', halters, hstores⟩ :=
    ((hspares.and (erase_ends h hw)).imp_error fun _ _ he => he.1).exists_ok
  obtain rfl : o' = o := Option.ext fun v => (hmem v).symm.trans halters.old_iff
  exact ⟨o', t', hget, hrun, hsparing, get?_of_alters hK halters h.holding hstores.holding⟩

omit [K.Lawful] [V.Lawful] in
/-- A value that is no longer than one that is stored is within the limits. -/
theorem Holding.fitsItem (h : g.Holding items R t) {v old : ν} (hmem : (k, old) ∈ items)
    (hv : V.Writes v) (hle : V.width v ≤ V.width old) : g.FitsItem (k, v) := by
  obtain ⟨level, x, hrooted, rfl⟩ := h
  have hold := hrooted.sound.fair.fitsItem hrooted.sound.mass_le _ hmem
  refine ⟨⟨hold.writes.1, hv⟩, ?_, hold.width_le⟩
  have hlength := hold.length_le
  rw [Block.length_record] at hlength ⊢
  exact Nat.le_trans (Nat.add_le_add_left hle _) hlength

/-- A key can be given a value that is no longer than the one it has, which takes no block. -/
theorem insert_spares (hK : K.Uniform) (h : g.Stores items R t) {v old : ν}
    (hget : t.get? k = .ok (some old)) (hv : V.Writes v) (hle : V.width v ≤ V.width old) :
    ∃ t', Tree.insert k v t = (.ok (some old), t') ∧ Store.Sparing t.store t'.store ∧
      ∀ a, t'.get? a = if a = k then .ok (some v) else t.get? a := by
  have hw := hK.writes k
  obtain ⟨_, hmem, hget', -⟩ := lookup_run h.holding hw
  obtain rfl := Except.ok.inj (hget.symm.trans hget')
  have hmem_old : (k, old) ∈ items := (hmem old).2 rfl
  have hfits := h.holding.fitsItem hmem_old hv hle
  have hspares : Ends (Tree.insert k v) t (fun _ _ => False)
      fun _ t' => Store.Sparing t.store t'.store := by
    rw [Tree.insert]
    exact ends_bind_get (ends_bind_lift (encodeEntry_eq h.holding.on hfits)
      (update_spares hK (edits_insert hfits) h.holding (slims_insert hmem_old hle)))
  obtain ⟨o, t', hrun, hsparing, items', halters, hstores⟩ :=
    ((hspares.and (insert_ends h hfits)).imp_error fun _ _ he => he.1).exists_ok
  obtain rfl : o = some old := halters.old_iff.1 hmem_old
  exact ⟨t', hrun, hsparing, get?_of_alters hK halters h.holding hstores.holding⟩

end Way

end Regime

/-! ### Counts -/

namespace Device

variable {s s' s'' : Device} {kind : Pool} {n : BlockNumber} {v : Option Bytes}

/-- The second store is exact, and has no blocks that the first one has not. -/
structure Within (s s' : Device) : Prop where
  exact : s'.Exact
  shape_eq : s'.shape = s.shape
  held : ∀ q, (s'.heap q).isSome → (s.heap q).isSome

/-- A block that is written or freed was there. -/
theorem Within.changed (h : s.Within s') (hchanged : s'.Changed kind n v s'')
    (hfaithful : s''.Faithful) (hget : (s'.bits kind).get n.toNat = true) : s.Within s'' := by
  refine ⟨⟨hchanged.valid, hfaithful⟩, hchanged.shape_eq.trans h.shape_eq, fun q hq => h.held q ?_⟩
  rw [hchanged.heap_eq] at hq
  by_cases hspot : q = (s'.shape.home kind, n)
  · rw [hspot, h.exact.isSome_heap, hget]
  · rwa [Function.update_of_ne hspot] at hq

theorem Exact.within_of_sparing (hs : s.Exact) (h : Store.Sparing s s') : s.Within s' := by
  induction h with
  | refl => exact ⟨hs, rfl, fun _ hq => hq⟩
  | write kind n data _ hrun ih =>
    obtain ⟨hchanged, hfaithful, hget⟩ := ((write_ends ih.exact.valid kind n data).and
      (Faithful.write_ends ih.exact kind n data)).of_ok hrun
    exact ih.changed hchanged hfaithful hget
  | free kind n _ hrun ih =>
    obtain ⟨hchanged, hfaithful, hget⟩ := ((free_ends ih.exact.valid kind n).and
      (Faithful.free_ends ih.exact kind n)).of_ok hrun
    exact ih.changed hchanged hfaithful hget

theorem Within.allocatedCount_le (h : s.Within s') (hs : s.Exact) (kind : Pool) :
    Store.allocatedCount s' kind ≤ Store.allocatedCount s kind := by
  rw [h.exact.allocatedCount_eq, hs.allocatedCount_eq, Ideal.numbers, Ideal.numbers]
  have hshape : s'.ideal.shape = s.ideal.shape := h.shape_eq
  rw [hshape]
  refine List.countP_mono_left fun n _ hn => ?_
  rw [Ideal.holds, hshape] at hn
  exact h.held _ hn

end Device

namespace Tree

variable {s : Device}

/-- The store of a reachable tree is exact. -/
theorem Reachable.exact {t : Tree Device K V} [K.Lawful] [V.Lawful] (hs : s.Used)
    (hblank : IsBlank s) (ht : Reachable K V s t) : t.store.Exact :=
  (ht.mirrored Device.matching_mirrors hs.exact.matching hblank).stores.exact.1

/-- **Deleting works in a full store.** If the keys are integers, any key can be taken out of
a tree, and a key can be given a value whose encoding is no longer than that of the value it
has. This answers what the key had, and no pool has more blocks allocated than before; the key
is gone, or has the new value, and every other key has what it had. -/
theorem reachable_spares {key : KeyKind} (hkey : key ≠ .byteString) (hkey' : key ≠ .text)
    {V : Codec ν} [V.Lawful] (hs : s.Used) (hblank : IsBlank s) {t : Tree Device key.codec V}
    (ht : Reachable key.codec V s t) :
    (∀ k, ∃ o t', t.get? k = .ok o ∧ erase k t = (.ok o, t') ∧
      (∀ kind, Store.allocatedCount t'.store kind ≤ Store.allocatedCount t.store kind) ∧
      ∀ a, t'.get? a = if a = k then .ok none else t.get? a) ∧
    ∀ k v old bs bs', t.get? k = .ok (some old) → V.encode old = .ok bs → V.encode v = .ok bs' →
      bs'.length ≤ bs.length → ∃ t', insert k v t = (.ok (some old), t') ∧
        (∀ kind, Store.allocatedCount t'.store kind ≤ Store.allocatedCount t.store kind) ∧
        ∀ a, t'.get? a = if a = k then .ok (some v) else t.get? a := by
  have hK := KeyKind.codec_uniform hkey hkey'
  have hexact := ht.exact hs hblank
  obtain ⟨items, hstores⟩ := Regime.reachable_stores hs.valid hblank ht
  refine ⟨fun k => ?_, fun k v old bs bs' hget hold hv hle => ?_⟩
  · obtain ⟨o, t', hget, hrun, hsparing, hafter⟩ := Regime.erase_spares hK hstores k
    exact ⟨o, t', hget, hrun, (hexact.within_of_sparing hsparing).allocatedCount_le hexact, hafter⟩
  · have hwidth : V.width v ≤ V.width old := by
      rwa [Codec.width, Codec.width, Codec.bytes_of_encode hold, Codec.bytes_of_encode hv]
    obtain ⟨t', hrun, hsparing, hafter⟩ :=
      Regime.insert_spares hK hstores hget (Codec.writes_of_encode hv) hwidth
    exact ⟨t', hrun, (hexact.within_of_sparing hsparing).allocatedCount_le hexact, hafter⟩

/-- Four entries take the three blocks that there are. One of them is taken out, or one gets
another value. -/
theorem reachable_spares_narrow : ∃ t u v : Tree Device word32 word32.toCodec,
    Reachable word32 word32.toCodec narrow t ∧ Store.allocatedCount t.store .leaf = 3 ∧
      Store.maxBlocks t.store .leaf = 3 ∧
      erase 2 t = (.ok (some 20), u) ∧ Store.allocatedCount u.store .leaf ≤ 3 ∧
      u.get? 2 = .ok none ∧ insert 3 31 t = (.ok (some 30), v) ∧
      Store.allocatedCount v.store .leaf ≤ 3 ∧ v.get? 3 = .ok (some 31) := by
  obtain ⟨⟨answers, t⟩, hrun, hfound⟩ := exists_ok_of_toOption
    (f := fun r => (Store.allocatedCount r.2.store .leaf, Store.maxBlocks r.2.store .leaf,
      (r.2.get? 2).toOption, (r.2.get? 3).toOption))
    (b := (3, 3, some (some 20), some (some 30)))
    (x := session word32 word32.toCodec narrow
      [.insert 1 10, .insert 2 20, .insert 3 30, .insert 4 40]) (by decide +kernel)
  obtain ⟨hcount, hmax, htwo, hthree⟩ : Store.allocatedCount t.store .leaf = 3 ∧
      Store.maxBlocks t.store .leaf = 3 ∧ (t.get? 2).toOption = some (some 20) ∧
      (t.get? 3).toOption = some (some 30) := by simpa using hfound
  have ht := reachable_of_session hrun
  obtain ⟨hspares, hreplaces⟩ := reachable_spares
    (show KeyKind.word32 ≠ .byteString by decide) (by decide)
    (V := (ValueKind.key .word32).codec) (.fresh narrow_fresh) ⟨_, rfl, rfl⟩ ht
  obtain ⟨o, u, hget, hu, hle, hgone⟩ := hspares (2 : UInt32)
  obtain rfl := Except.ok.inj (hget.symm.trans (eq_ok_of_toOption htwo))
  obtain ⟨v, hv, hle', hhas⟩ := hreplaces (3 : UInt32) (31 : UInt32) (30 : UInt32) _ _
    (eq_ok_of_toOption hthree) rfl rfl (Nat.le_refl _)
  exact ⟨t, u, v, ht, hcount, hmax, hu, hcount ▸ hle .leaf, (hgone _).trans (if_pos rfl), hv,
    hcount ▸ hle' .leaf, (hhas _).trans (if_pos rfl)⟩

end Tree

end PagedMap
