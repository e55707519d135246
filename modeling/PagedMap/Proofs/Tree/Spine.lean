/-
# The open index blocks of a tree that is being filled

Of each level one index block is open: it has separators, each with the child to its
left, but no last child yet. The open blocks of a tree that is being filled are its
right edge (`Regime.Spine`), and what is below their children is sound. A further
separator goes into the lowest; a full one is written without its last separator,
which goes up (`Regime.addSeparator_ends`). In the end the open blocks are closed
from the lowest on, each as the last child of the next (`Regime.writeLevels_ends`).

Key definitions: `Regime.opened`, `Regime.Spine`, `Regime.Edge`.
Key theorems: `Regime.addSeparator_ends`, `Regime.writeLevels_ends`.
-/
import PagedMap.Proofs.Tree.Root
import PagedMap.Tree.Load

namespace PagedMap

variable {σ κ ν : Type} [Store σ] [LawfulStore σ] {K : OrderedCodec κ} {V : Codec ν}

/-- The loading may have changed in the blocks of the tree and in the list of those
written. -/
structure Loading.Keeps (l l' : Loading σ K V) : Prop where
  levels : l'.levels = l.levels
  previous : l'.previous? = l.previous?
  leaf : l'.leaf = l.leaf
  count : l'.count = l.count
  lastKey : l'.lastKey? = l.lastKey?

namespace Loading.Keeps

variable {l l' l'' : Loading σ K V}

omit [Store σ] [LawfulStore σ] in
theorem refl (l : Loading σ K V) : Loading.Keeps l l := ⟨rfl, rfl, rfl, rfl, rfl⟩

omit [Store σ] [LawfulStore σ] in
theorem trans (h : Loading.Keeps l l') (h' : Loading.Keeps l' l'') : Loading.Keeps l l'' :=
  ⟨h'.levels.trans h.levels, h'.previous.trans h.previous, h'.leaf.trans h.leaf,
    h'.count.trans h.count, h'.lastKey.trans h.lastKey⟩

end Loading.Keeps

namespace Regime

variable {g : Regime K V} {level : Nat} {R : Heap} {l : Loading σ K V} {ks : List κ} {k : κ}

/-- The index block of separators whose last child is still to come. -/
def opened (g : Regime K V) (ks : List κ) (cs : List (Subtree κ ν level)) : Index K :=
  g.node ks (cs.map Subtree.number ++ [noBlock])

section Opened

variable {cs : List (Subtree κ ν level)}

omit [Store σ] [LawfulStore σ] in
theorem opened_eq (h : cs.length = ks.length) : g.opened ks cs =
    Block.ofItems K word32.toCodec (g.size 1) (ks.zip (cs.map Subtree.number)) noBlock := by
  have hzip : ks.zip (cs.map Subtree.number ++ [noBlock]) = ks.zip (cs.map Subtree.number) := by
    rw [← List.append_nil ks, List.zip_append (by simp [h]), List.zip_nil_left, List.append_nil,
      List.append_nil]
  rw [opened, node, Index.ofParts, hzip, List.getLastD_concat]

omit [Store σ] [LawfulStore σ] in
theorem zip_concat (h : cs.length = ks.length) (k : κ) (c : Subtree κ ν level) :
    (ks ++ [k]).zip ((cs ++ [c]).map Subtree.number) =
      ks.zip (cs.map Subtree.number) ++ [(k, c.number)] := by
  rw [List.map_append, List.zip_append (by simp [h])]
  rfl

omit [Store σ] [LawfulStore σ] in
/-- An open block gets its last child. -/
theorem opened_close (h : cs.length = ks.length) (c : Subtree κ ν level) :
    ({ g.opened ks cs with last := c.number } : Index K) =
      g.node ks ((cs ++ [c]).map Subtree.number) := by
  have hzip : ks.zip (cs.map Subtree.number ++ [c.number]) = ks.zip (cs.map Subtree.number) := by
    rw [← List.append_nil ks, List.zip_append (by simp [h]), List.zip_nil_left, List.append_nil,
      List.append_nil]
  rw [opened_eq h, List.map_append, List.map_singleton, node, Index.ofParts, hzip,
    List.getLastD_concat]
  rfl

omit [Store σ] [LawfulStore σ] in
theorem fits_opened (hv : g.shape.Valid) (h : cs.length = ks.length) (n : BlockNumber) :
    (g.opened ks cs).fits (Index.separatorEntry (K.bytes k) n) = true ↔
      Index.weight K ks + (K.width k + 4) ≤ g.room 1 := by
  have hsize := size_eq hv 1
  rw [opened_eq h, Block.fits, Block.occupied_ofItems, Index.bytesOf_zip (by simp [h]),
    Index.length_separatorEntry, Block.capacity_ofItems, decide_eq_true_iff]
  omega

omit [Store σ] [LawfulStore σ] in
/-- An open block takes a separator that fits. -/
theorem opened_append (h : cs.length = ks.length) {c : Subtree κ ν level}
    (hfits : (g.opened ks cs).fits (Index.separatorEntry (K.bytes k) c.number) = true) :
    (g.opened ks cs).append (Index.separatorEntry (K.bytes k) c.number) =
      .ok (g.opened (ks ++ [k]) (cs ++ [c])) := by
  rw [Block.append, if_pos hfits, opened_eq h, opened_eq (by simp [h]), zip_concat h]
  simp only [Block.ofItems, List.map_append, List.map_singleton, Index.separatorEntry_eq]

omit [Store σ] [LawfulStore σ] in
/-- A first separator opens a block. -/
theorem append_empty (hv : g.shape.Valid) (hk : g.FitsKey k) (c : Subtree κ ν level) :
    (Index.empty K (g.size 1)).append (Index.separatorEntry (K.bytes k) c.number) =
      .ok (g.opened [k] [c]) := by
  have hfits : (g.opened [] ([] : List (Subtree κ ν level))).fits
      (Index.separatorEntry (K.bytes k) c.number) = true := by
    have := hk.length_le hv
    have := g.third_le 1
    rw [fits_opened hv rfl, Index.weight_nil]
    omega
  exact opened_append rfl hfits

variable [LinearOrder κ] [K.Lawful]

omit [Store σ] [LawfulStore σ] in
/-- An open block gives its last separator up. -/
theorem opened_concat (h : cs.length = ks.length) (hk : K.Writes k) (c : Subtree κ ν level) :
    (g.opened (ks ++ [k]) (cs ++ [c])).length = ks.length + 1 ∧
    (g.opened (ks ++ [k]) (cs ++ [c])).keyBytes ks.length = .ok (K.bytes k) ∧
    Index.child (g.opened (ks ++ [k]) (cs ++ [c])) ks.length = .ok c.number ∧
    ∃ e b, (g.opened (ks ++ [k]) (cs ++ [c])).removeAt ks.length = .ok (e, b) ∧
      ({ b with last := c.number } : Index K) = g.node ks ((cs ++ [c]).map Subtree.number) := by
  have hzip : (ks.zip (cs.map Subtree.number)).length = ks.length := by
    rw [List.length_zip, List.length_map]
    omega
  have hget : (ks.zip (cs.map Subtree.number) ++ [(k, c.number)])[ks.length]? =
      some (k, c.number) := by
    rw [← hzip, List.getElem?_concat_length]
  have hitem : Block.WritesItem K word32.toCodec (k, c.number) := ⟨hk, word32_writes _⟩
  have hremove := @Block.removeAt_ofItems _ _ K word32.toCodec (g.size 1)
    noBlock (ks.zip (cs.map Subtree.number)) [] (k, c.number)
  rw [hzip, List.append_nil, ← opened_eq h] at hremove
  rw [opened_eq (by simp [h]), zip_concat h]
  have hlen : (Block.ofItems K word32.toCodec (g.size 1)
      (ks.zip (cs.map Subtree.number) ++ [(k, c.number)]) noBlock).length = ks.length + 1 := by
    rw [Block.length_ofItems, List.length_append, hzip]
    rfl
  refine ⟨hlen, Block.keyBytes_ofItems hget hitem, ?_, _, _, hremove, opened_close h c⟩
  rw [Index.child, if_pos (by omega)]
  exact Block.payload_ofItems hget hitem

omit [Store σ] [LawfulStore σ] in
/-- The last separator of an open block is exchanged. -/
theorem opened_replace (h : cs.length = ks.length) (hw : ∀ a ∈ ks ++ [k], K.Writes a) (k' : κ)
    (c c' : Subtree κ ν level) (hc : c'.number = c.number) :
    Index.replaceSeparator (g.opened (ks ++ [k]) (cs ++ [c]))
        ((g.opened (ks ++ [k]) (cs ++ [c])).length - 1) (K.bytes k') =
      .ok (g.opened (ks ++ [k']) (cs ++ [c'])) := by
  have hlen : (g.opened (ks ++ [k]) (cs ++ [c])).length - 1 = ks.length := by
    rw [opened_eq (by simp [h]), zip_concat h, Block.length_ofItems, List.length_append,
      List.length_zip, List.length_map, h, Nat.min_self]
    rfl
  have hreplace := @Index.replaceSeparator_ofParts _ K (g.size 1) ks [] (cs.map Subtree.number)
    [] _ _ k c.number noBlock k' (by simpa using h) rfl hw
  rw [hlen]
  simp only [opened, node, List.map_append, List.map_singleton, List.append_assoc, hc]
  exact hreplace

omit [Store σ] [LawfulStore σ] [LinearOrder κ] [K.Lawful] in
theorem weight_le_of_not_isOverflowed (hv : g.shape.Valid) (h : cs.length = ks.length)
    (hover : (g.opened ks cs).isOverflowed = false) : Index.weight K ks ≤ g.room 1 := by
  have hsize := size_eq hv 1
  rw [opened_eq h, Block.isOverflowed, Block.occupied_ofItems, Index.bytesOf_zip (by simp [h]),
    Block.capacity_ofItems, decide_eq_false_iff_not] at hover
  omega

end Opened

/-! ### Spines -/

/-- The separators and children of an open block are well-placed, and there are some. -/
structure Opens (g : Regime K V) [LinearOrder κ] (level : Nat) (lo? : Option κ) (ks : List κ)
    (cs : List (Subtree κ ν level)) : Prop where
  ne_nil : ks ≠ []
  fits : ∀ k ∈ ks, g.FitsKey k
  weight_le : Index.weight K ks ≤ g.room 1
  before : Before (g.Sound level) lo? ks cs

variable [LinearOrder κ]

/-- The open index blocks from some level up, the bound that they set to what is to
come, the items below them, and the cells of what is below them. -/
inductive Spine (g : Regime K V) :
    Nat → List (Index K) → Option κ → List (κ × ν) → List Cell → Prop
  | nil {level : Nat} : Spine g level [] none [] []
  | cons {level : Nat} {ks : List κ} {cs : List (Subtree κ ν level)} {lo? : Option κ}
      {above : List (Index K)} {items : List (κ × ν)} {cells : List Cell} :
      g.Opens level lo? ks cs → Spine g (level + 1) above lo? items cells →
      Spine g level (g.opened ks cs :: above) (ks.getLast?.or lo?)
        (items ++ cs.flatMap (Subtree.items level)) (cs.flatMap (g.cells level) ++ cells)

/-- A spine whose last separator and the child to its left are given. -/
def Edge (g : Regime K V) (level : Nat) (levels : List (Index K)) (k : κ) (c : Subtree κ ν level)
    (items : List (κ × ν)) (cells : List Cell) : Prop :=
  ∃ (ks : List κ) (cs : List (Subtree κ ν level)) (lo? : Option κ) (above : List (Index K))
    (items' : List (κ × ν)) (cells' : List Cell),
    levels = g.opened (ks ++ [k]) (cs ++ [c]) :: above ∧
    g.Opens level lo? (ks ++ [k]) (cs ++ [c]) ∧ g.Spine (level + 1) above lo? items' cells' ∧
    items = items' ++ cs.flatMap (Subtree.items level) ∧
    cells = cs.flatMap (g.cells level) ++ cells'

omit [Store σ] [LawfulStore σ] in
theorem Edge.spine {levels : List (Index K)} {c : Subtree κ ν level} {items : List (κ × ν)}
    {cells : List Cell} (h : g.Edge level levels k c items cells) :
    ∃ cells', g.Spine level levels (some k) (items ++ c.items level) cells' ∧
      cells'.Perm (g.cells level c ++ cells) := by
  obtain ⟨ks, cs, lo?, above, items', cells', rfl, hopens, habove, rfl, rfl⟩ := h
  have hspine := Spine.cons hopens habove
  rw [List.getLast?_concat, Option.some_or, List.flatMap_append, List.flatMap_singleton,
    ← List.append_assoc] at hspine
  refine ⟨_, hspine, List.perm_iff_count.2 fun c => ?_⟩
  simp only [List.flatMap_append, List.flatMap_cons, List.flatMap_nil, List.count_append,
    List.count_nil]
  omega

omit [Store σ] [LawfulStore σ] in
/-- A child at the end closes an open block. -/
theorem Opens.close {lo? : Option κ} {cs : List (Subtree κ ν level)} {c : Subtree κ ν level}
    {hi? : Option κ} {n : BlockNumber} (hfits : ∀ a ∈ ks, g.FitsKey a)
    (hbefore : Before (g.Sound level) lo? ks cs)
    (hc : g.Sound level ⟨ks.getLast?.or lo?, hi?⟩ c) :
    g.Fair (level + 1) ⟨lo?, hi?⟩ (⟨n, ks, cs ++ [c]⟩ : Subtree κ ν (level + 1)) := by
  refine ⟨hfits, ?_⟩
  have hchain := (@chain_focus _ _ (g.Sound level) [] [] ks cs ⟨lo?, hi?⟩ c
    hbefore.length).2 ⟨hbefore, hc, trivial⟩
  rwa [List.append_nil] at hchain

omit [Store σ] [LawfulStore σ] in
theorem edge_single {c : Subtree κ ν level} {lo? : Option κ} {above : List (Index K)}
    {items : List (κ × ν)} {cells : List Cell} (hc : g.Opens level lo? [k] [c])
    (habove : g.Spine (level + 1) above lo? items cells) :
    g.Edge level (g.opened [k] [c] :: above) k c items cells :=
  ⟨[], [], lo?, above, items, cells, rfl, hc, habove, by simp, by simp⟩

omit [Store σ] [LawfulStore σ] in
theorem opens_single (hv : g.shape.Valid) {lo? : Option κ} {c : Subtree κ ν level}
    (hk : g.FitsKey k) (hc : g.Sound level ⟨lo?, some k⟩ c) : g.Opens level lo? [k] [c] := by
  have := hk.length_le hv
  have := g.third_le 1
  refine ⟨List.cons_ne_nil _ _, fun a ha => ?_, ?_, hc, trivial⟩
  · rw [List.mem_singleton.1 ha]
    exact hk
  · rw [Index.weight_cons, Index.weight_nil]
    omega

omit [Store σ] [LawfulStore σ] in
theorem Opens.concat {lo? : Option κ} {cs : List (Subtree κ ν level)} {c : Subtree κ ν level}
    (h : g.Opens level lo? ks cs) (hk : g.FitsKey k)
    (hc : g.Sound level ⟨ks.getLast?.or lo?, some k⟩ c)
    (hfits : Index.weight K ks + (K.width k + 4) ≤ g.room 1) :
    g.Opens level lo? (ks ++ [k]) (cs ++ [c]) := by
  refine ⟨by simp, fun a ha => ?_, ?_, before_concat.2 ⟨h.before, hc⟩⟩
  · rcases List.mem_append.1 ha with ha | ha
    · exact h.fits a ha
    · rw [List.mem_singleton.1 ha]
      exact hk
  · rw [Index.weight_append, Index.weight_cons, Index.weight_nil]
    exact hfits

omit [Store σ] [LawfulStore σ] in
/-- The last separator and the child to its left are exchanged. -/
theorem Opens.exchange {lo? : Option κ} {cs : List (Subtree κ ν level)} {c c' : Subtree κ ν level}
    {k' : κ} (h : g.Opens level lo? (ks ++ [k]) (cs ++ [c])) (hk : g.FitsKey k')
    (hweight : Index.weight K (ks ++ [k']) ≤ g.room 1)
    (hc : g.Sound level ⟨ks.getLast?.or lo?, some k'⟩ c') :
    g.Opens level lo? (ks ++ [k']) (cs ++ [c']) := by
  refine ⟨by simp, fun a ha => ?_, hweight, before_concat.2 ⟨(before_concat.1 h.before).1, hc⟩⟩
  rcases List.mem_append.1 ha with ha | ha
  · exact h.fits a (List.mem_append_left _ ha)
  · rw [List.mem_singleton.1 ha]
    exact hk

omit [Store σ] [LawfulStore σ] in
/-- An open block into which a separator does not fit is sound when it gives its last
separator up. -/
theorem Opens.full (hv : g.shape.Valid) {lo? : Option κ} {cs : List (Subtree κ ν level)}
    {m : BlockNumber} (h : g.Opens level lo? ks cs) (hk : g.FitsKey k)
    (hfits : (g.opened ks cs).fits (Index.separatorEntry (K.bytes k) m) = false) :
    ∃ ks' k' cs' c', ks = ks' ++ [k'] ∧ cs = cs' ++ [c'] ∧ cs'.length = ks'.length ∧
      ∀ n : BlockNumber, g.Sound (level + 1) ⟨lo?, some k'⟩
        (⟨n, ks', cs' ++ [c']⟩ : Subtree κ ν (level + 1)) := by
  have hlen := h.before.length
  rw [← Bool.not_eq_true, fits_opened hv hlen] at hfits
  obtain ⟨ks, k', rfl⟩ := (List.eq_nil_or_concat' ks).resolve_left h.ne_nil
  obtain ⟨cs, c', rfl⟩ := (List.eq_nil_or_concat' cs).resolve_left fun hnil => by
    rw [hnil] at hlen
    simp at hlen
  obtain ⟨hbefore, hc⟩ := before_concat.1 h.before
  have hweight := h.weight_le
  rw [Index.weight_append, Index.weight_cons, Index.weight_nil] at hfits hweight
  have := hk.length_le hv
  have := (h.fits k' (by simp)).length_le hv
  have := g.third_le 1
  have := third_ge hv 1
  refine ⟨ks, k', cs, c', rfl, rfl, by simpa using hlen, fun n => sound_iff.2
    ⟨Opens.close (fun a ha => h.fits a (by simp [ha])) hbefore hc, ?_, fun hcount => ?_,
      fun _ => ?_⟩⟩
  · change Index.weight K ks ≤ g.room 1
    omega
  · obtain rfl : ks = [] := List.eq_nil_of_length_eq_zero hcount
    rw [Index.weight_nil] at hfits
    omega
  · change g.room 1 < 6 * Index.weight K ks
    omega

/-! ### Filling -/

omit [Store σ] [LawfulStore σ] [LinearOrder κ] in
/-- What is done with the tree changes nothing else. -/
theorem ends_onTree_set {α : Type} {act : Action (Tree σ K V) α}
    {E : Error → Loading σ K V → Prop} {Q : α → Loading σ K V → Prop}
    (h : Ends act l.tree (fun e t => E e { l with tree := t })
      fun a t => Q a { l with tree := t }) :
    Ends (Loading.onTree act) l E Q := by
  rw [Ends] at h
  simp only [Ends, Loading.onTree]
  split at h <;> next hrun =>
    rw [hrun]
    exact h

omit [Store σ] [LawfulStore σ] [LinearOrder κ] in
theorem ends_onTree {α : Type} {act : Action (Tree σ K V) α} {E : Error → Tree σ K V → Prop}
    {Q : α → Tree σ K V → Prop} (h : Ends act l.tree E Q) :
    Ends (Loading.onTree act) l (fun e l' => E e l'.tree) fun a l' =>
      Loading.Keeps l l' ∧ Q a l'.tree :=
  ends_onTree_set (h.imp fun _ _ hq => ⟨⟨rfl, rfl, rfl, rfl, rfl⟩, hq⟩)

/-- Filling stops because a pool is full. -/
def Stops (g : Regime K V) (e : Error) (l : Loading σ K V) : Prop := IsOutOfSpace e ∧ g.On l.tree

omit [LinearOrder κ] in
theorem loading_allocate_ends {kind : Pool} {data : Bytes} {Q : BlockNumber → Tree σ K V → Prop}
    (h : g.On l.tree) (hends : Ends (Tree.onStore (Store.allocate kind data)) l.tree
      (fun e t' => IsFull kind e ∧ t' = l.tree) Q) :
    Ends (Loading.allocate kind data) l g.Stops
      fun n l' => Loading.Keeps l l' ∧ Q n l'.tree := by
  refine ((ends_onTree hends).imp_error ?_).bind fun n l' hn => ?_
  · rintro e l' ⟨he, heq⟩
    exact ⟨he.isOutOfSpace, heq ▸ h⟩
  · obtain ⟨hkeeps, hq⟩ := hn
    exact ⟨⟨hkeeps.levels, hkeeps.previous, hkeeps.leaf, hkeeps.count, hkeeps.lastKey⟩, hq⟩

variable [K.Lawful]

/-- A separator and the child to its left go into the lowest open block. -/
theorem addSeparator_ends : ∀ {levels : List (Index K)} {level : Nat} {k : κ}
    {c : Subtree κ ν level} {lo? : Option κ} {items : List (κ × ν)} {cells : List Cell} {R : Heap}
    {l : Loading σ K V}, g.On l.tree → g.Spine level levels lo? items cells → g.FitsKey k →
    g.Sound level ⟨lo?, some k⟩ c → (heap l.tree).Holds (g.cells level c ++ cells) R →
    Ends (Loading.addSeparator (g.size 1) (K.bytes k) c.number levels) l g.Stops
      fun levels' l' => Loading.Keeps l l' ∧ g.Stays l.tree l'.tree ∧
        ∃ cells', g.Edge level levels' k c items cells' ∧
          (heap l'.tree).Holds (g.cells level c ++ cells') R
  | [], level, k, c, _, _, _, R, l, h, .nil, hk, hc, hH => by
    exact ends_bind_lift (append_empty h.shape_valid hk c) (ends_pure ⟨Loading.Keeps.refl l,
      Stays.refl h, _, edge_single (opens_single h.shape_valid hk hc) .nil, hH⟩)
  | node :: above, level, k, c, _, _, _, R, l, h, hspine, hk, hc, hH => by
    cases hspine with
    | @cons _ ks cs lo? _ items cells hopens habove =>
      have hlen := hopens.before.length
      rw [Loading.addSeparator]
      cases hfits : (g.opened ks cs).fits (Index.separatorEntry (K.bytes k) c.number) with
      | true =>
        rw [if_pos rfl]
        rw [fits_opened h.shape_valid hlen] at hfits
        exact ends_bind_lift (opened_append hlen ((fits_opened h.shape_valid hlen _).2 hfits))
          (ends_pure ⟨Loading.Keeps.refl l, Stays.refl h, _,
            ⟨ks, cs, lo?, above, items, cells, rfl,
              hopens.concat hk hc hfits, habove, rfl, rfl⟩, hH⟩)
      | false =>
        -- the last separator goes up, and the child under it closes the full block
        rw [if_neg Bool.false_ne_true]
        obtain ⟨ks, k₁, cs, c₁, rfl, rfl, hlen₁, hsound⟩ := hopens.full h.shape_valid hk hfits
        obtain ⟨hlength, hkey, hchild, e, b, hremove, hclosed⟩ :=
          opened_concat (g := g) hlen₁ (hopens.fits k₁ (by simp)).writes c₁
        rw [List.getLast?_concat, Option.some_or] at hc
        have hmass := (hsound 0).tight.mass_le
        have hH₀ : (heap l.tree).Holds ((cs ++ [c₁]).flatMap (g.cells level) ++
            cells ++ g.cells level c) R := hH.perm List.perm_append_comm
        have hends := addIndex_ends h _ ((hsound 0).fair.chain.length) hmass hH₀
        simp only [hlength, Nat.add_sub_cancel]
        refine ends_bind_lift hkey (ends_bind_lift hchild (ends_bind_lift hremove ?_))
        simp only [hclosed]
        refine (loading_allocate_ends h hends).bind ?_
        rintro n l₁ ⟨hkeeps, -, hstays, hH₁⟩
        obtain ⟨M, hM, hMR⟩ : ∃ M, (heap l₁.tree).Holds
            (g.cells (level + 1) ⟨n, ks, cs ++ [c₁]⟩ ++ cells) M ∧ M.Holds (g.cells level c) R :=
          Heap.holds_append.1 hH₁
        -- the new separator opens the next block of this level
        refine ends_bind_lift (append_empty h.shape_valid hk c) ?_
        refine (addSeparator_ends hstays.on habove (hopens.fits k₁ (by simp)) (hsound n)
          hM).bind ?_
        rintro above' l₂ ⟨hkeeps', hstays', cells', hedge, hH₂⟩
        obtain ⟨cells'', hspine, hperm⟩ := hedge.spine
        refine ends_pure ⟨hkeeps.trans hkeeps', hstays.trans hstays', _,
          edge_single (opens_single h.shape_valid hk hc) hspine, ?_⟩
        refine (Heap.holds_append.2 ⟨M, hH₂, hMR⟩).perm ?_
        refine List.perm_append_comm.trans (List.Perm.append_left _ hperm.symm)

omit [K.Lawful] in
/-- The open blocks are closed from the lowest on. -/
theorem writeLevels_ends (hdense : g.isDense = false) : ∀ {levels : List (Index K)} {level : Nat}
    {c : Subtree κ ν level} {lo? : Option κ} {items : List (κ × ν)} {cells : List Cell} {R : Heap}
    {l : Loading σ K V}, g.On l.tree → g.Spine level levels lo? items cells →
    g.Fair level ⟨lo?, none⟩ c → g.mass level c ≤ g.room level →
    (level ≠ 0 ∨ levels ≠ [] → c.count level ≠ 0) → c.number.toNat ≤ maxInt32 →
    (heap l.tree).Holds (g.cells level c ++ cells) R →
    Ends (Loading.writeLevels c.number levels) l g.Stops
      fun n l' => Loading.Keeps l l' ∧ g.Stays l.tree l'.tree ∧ n.toNat ≤ maxInt32 ∧
        ∃ (top : Nat) (x : Subtree κ ν top), top = level + levels.length ∧ x.number = n ∧
          g.SoundRoot top x ∧ x.items top = items ++ c.items level ∧
          (heap l'.tree).Holds (g.cells top x) R
  | [], level, c, _, _, _, R, l, h, hspine, hc, hmass, hcount, hnumber, hH => by
    cases hspine
    rw [List.append_nil] at hH
    exact ends_pure ⟨Loading.Keeps.refl l, Stays.refl h, hnumber, level, c, rfl, rfl,
      ⟨hc, hmass, fun h0 => hcount (.inl h0)⟩, rfl, hH⟩
  | node :: above, level, c, _, _, _, R, l, h, hspine, hc, hmass, hcount, _, hH => by
    cases hspine with
    | @cons _ ks cs lo? _ items cells hopens habove =>
      have hlen := hopens.before.length
      have hsound : g.Sound level ⟨ks.getLast?.or lo?, none⟩ c := sound_iff.2 ⟨hc, hmass,
        hcount (.inr (List.cons_ne_nil _ _)), fun hd => by rw [hdense] at hd; cases hd⟩
      have hH₀ : (heap l.tree).Holds ((cs ++ [c]).flatMap (g.cells level) ++ cells) R := by
        refine hH.perm (List.perm_iff_count.2 fun c => ?_)
        simp only [List.flatMap_append, List.flatMap_singleton, List.count_append]
        omega
      -- the child closes the open block, which is then the child on the level above
      have hlen' : (cs ++ [c]).length = ks.length + 1 := by rw [List.length_append, hlen]; rfl
      have hends := addIndex_ends h _ hlen' hopens.weight_le hH₀
      rw [Loading.writeLevels, opened_close hlen]
      refine (loading_allocate_ends h hends).bind ?_
      rintro n l₁ ⟨hkeeps, hn, hstays, hH₁⟩
      have hn' := Nat.le_trans (Nat.le_of_lt hn) (h.shape_valid.maxBlocks_le .index)
      have hfair := Opens.close (n := n) hopens.fits hopens.before hsound
      have hweight : g.mass (level + 1) (⟨n, ks, cs ++ [c]⟩ : Subtree κ ν (level + 1)) ≤
          g.room (level + 1) := hopens.weight_le
      refine (writeLevels_ends hdense hstays.on habove hfair hweight (fun _ hnil => ?_) hn'
        hH₁).imp ?_
      · exact hopens.ne_nil (List.eq_nil_of_length_eq_zero hnil)
      · rintro m l₂ ⟨hkeeps', hstays', hm, top, x, htop, hnumber, hroot, hitems, hH₂⟩
        refine ⟨hkeeps.trans hkeeps', hstays.trans hstays', hm, top, x, ?_, hnumber, hroot, ?_, hH₂⟩
        · rw [htop, List.length_cons]
          omega
        · simpa using hitems

end Regime

end PagedMap
