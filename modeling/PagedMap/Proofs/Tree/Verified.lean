/-
# Checking a sound tree

A tree that holds items passes its own check (`Regime.verify_run`): its blocks are
allocated, the keys in each ascend within the fences that lead to it, and the entries
are counted once.

Key definition: `Span.fences`.
Key theorems: `Regime.verifyBelow_run`, `Regime.verify_run`.
-/
import PagedMap.Proofs.Tree.Calls
import PagedMap.Tree.Verify

namespace PagedMap

variable {κ ν τ : Type} {K : OrderedCodec κ} {V : Codec ν}

/-- The encoded bounds. -/
def Span.fences (K : OrderedCodec κ) (r : Span κ) : Fences :=
  ⟨r.lower?.map K.bytes, r.upper?.map K.bytes⟩

/-- The bounds can be encoded. -/
def Span.Written (K : OrderedCodec κ) (r : Span κ) : Prop :=
  (∀ k ∈ r.lower?, K.Writes k) ∧ ∀ k ∈ r.upper?, K.Writes k

section Keys

variable [LinearOrder κ] [K.Lawful] {n : BlockNumber} {r : Span κ} {ks : List κ}

theorem checkAscending_map : ∀ {ks : List κ}, (∀ k ∈ ks, K.Writes k) → ks.Pairwise (· < ·) →
    Tree.checkAscending K n (ks.map K.bytes) = .ok ()
  | [], _, _ => rfl
  | [_], _, _ => rfl
  | a :: b :: ks, hw, hs => by
    have hcompare := OrderedCodec.compareEncoded_bytes (hw a (by simp)) (hw b (by simp))
    have hab : compare a b = .lt :=
      compare_lt_iff_lt.2 ((List.pairwise_cons.1 hs).1 b (List.mem_cons_self ..))
    have ih := checkAscending_map (fun k hk => hw k (List.mem_cons_of_mem a hk))
      (List.pairwise_cons.1 hs).2
    rw [List.map_cons] at ih
    simp only [List.map_cons, Tree.checkAscending, hcompare, hab, bind, Except.bind, ih]

theorem checkLower_map (hr : r.Written K) (hw : ∀ k ∈ ks, K.Writes k)
    (h : ∀ k ∈ ks, ∀ a ∈ r.lower?, a ≤ k) :
    Tree.checkLower K n (r.fences K).lower? (ks.map K.bytes).head? = .ok () := by
  cases ks with
  | nil =>
    cases hlower : r.lower? <;> simp [Span.fences, hlower, Tree.checkLower, pure, Except.pure]
  | cons k ks =>
    cases hlower : r.lower? with
    | none => simp [Span.fences, hlower, Tree.checkLower, pure, Except.pure]
    | some a =>
      have hk := List.mem_cons_self (a := k) (l := ks)
      have hcompare := OrderedCodec.compareEncoded_bytes (hw k hk) (hr.1 a hlower)
      have hle : compare k a ≠ .lt := fun hlt =>
        not_lt_of_ge (h k hk a hlower) (compare_lt_iff_lt.1 hlt)
      simp only [Span.fences, hlower, Option.map_some, List.map_cons, List.head?_cons,
        Tree.checkLower, hcompare, bind, Except.bind]
      cases horder : compare k a with
      | lt => exact (hle horder).elim
      | _ => rfl

theorem checkUpper_map (hr : r.Written K) (hw : ∀ k ∈ ks, K.Writes k)
    (h : ∀ k ∈ ks, ∀ b ∈ r.upper?, k < b) :
    Tree.checkUpper K n (r.fences K).upper? (ks.map K.bytes).getLast? = .ok () := by
  obtain rfl | ⟨ks, k, rfl⟩ := List.eq_nil_or_concat' ks
  · cases hupper : r.upper? <;> simp [Span.fences, hupper, Tree.checkUpper, pure, Except.pure]
  · cases hupper : r.upper? with
    | none => simp [Span.fences, hupper, Tree.checkUpper, pure, Except.pure]
    | some b =>
      have hk : k ∈ ks ++ [k] := by simp
      have hcompare := OrderedCodec.compareEncoded_bytes (hw k hk) (hr.2 b hupper)
      have hlt : compare k b = .lt := compare_lt_iff_lt.2 (h k hk b hupper)
      simp only [Span.fences, hupper, Option.map_some, List.map_append, List.map_cons,
        List.map_nil, List.getLast?_concat, Tree.checkUpper, hcompare, hlt, bind, Except.bind]
      rfl

/-- Keys that ascend within bounds pass the check of a block. -/
theorem checkWithin_map (hr : r.Written K) (hw : ∀ k ∈ ks, K.Writes k)
    (hs : ks.Pairwise (· < ·)) (hlower : ∀ k ∈ ks, ∀ a ∈ r.lower?, a ≤ k)
    (hupper : ∀ k ∈ ks, ∀ b ∈ r.upper?, k < b) :
    Tree.checkWithin K n (ks.map K.bytes) (r.fences K) = .ok () := by
  simp only [Tree.checkWithin, checkAscending_map hw hs, checkLower_map hr hw hlower,
    checkUpper_map hr hw hupper, bind, Except.bind]

end Keys

/-- The fences of the children are their bounds. -/
theorem mapM_children {α : Type} {f : BlockNumber → Fences → Except Error α} {m : τ → BlockNumber}
    {h : τ → α} : ∀ {r : Span κ} {ks : List κ} {cs : List τ},
    Chain (fun r c => f (m c) (r.fences K) = .ok (h c)) r ks cs →
    ((cs.map m).zip ((r.fences K).children (ks.map K.bytes))).mapM (fun c => f c.1 c.2) =
      .ok (cs.map h)
  | r, [], [c], hc => by
    simp only [List.map_cons, List.map_nil, Fences.children, List.zip_cons_cons, List.zip_nil_right,
      List.mapM_cons, List.mapM_nil, bind, Except.bind,
      show f (m c) (r.fences K) = .ok (h c) from hc, pure, Except.pure]
  | r, k :: ks, c :: cs, hc => by
    have hfirst : f (m c) ⟨(r.fences K).lower?, some (K.bytes k)⟩ = .ok (h c) := hc.1
    have hrest := mapM_children (f := f) (m := m) (h := h) hc.2
    have hspan : Span.fences K ⟨some k, r.upper?⟩ = ⟨some (K.bytes k), (r.fences K).upper?⟩ := rfl
    rw [hspan] at hrest
    simp only [List.map_cons, Fences.children, List.zip_cons_cons, List.mapM_cons, hfirst, hrest,
      bind, Except.bind, pure, Except.pure]

namespace Regime

variable {σ : Type} [Store σ] [LawfulStore σ] {g : Regime K V} {R : Heap} {t : Tree σ K V}
  {items : List (κ × ν)}

theorem checkAllocated_eq (h : g.On t) {level : Nat} {n : BlockNumber}
    (hn : (heap t (g.spot level n)).isSome) : t.checkAllocated (kind level) n = .ok () := by
  rw [Tree.checkAllocated, LawfulStore.isAllocated_eq h.valid, h.shape]
  exact if_pos hn

variable [LinearOrder κ] [K.Lawful] [V.Lawful]

/-- The check of what is below a block counts its items. -/
theorem verifyBelow_run (h : g.On t) : ∀ {level : Nat} {x : Subtree κ ν level} {r : Span κ},
    r.Written K → g.Fair level r x → g.mass level x ≤ g.room level →
    (∀ c ∈ g.cells level x, heap t c.1 = some c.2) →
    t.verifyBelow level x.number (r.fences K) = .ok (x.items level).length
  | 0, (x : LeafNode κ ν), r, hr, hx, hmass, hcells => by
    have hcell := hcells _ (List.mem_cons_self ..)
    have hread := readLeaf_eq h hcell (FairLeaf.fits hx) hmass
    have hallocated := checkAllocated_eq h (Option.isSome_iff_exists.2 ⟨_, hcell⟩)
    have hkeys : (g.leaf x.items).keys = .ok ((x.items.map Prod.fst).map K.bytes) := by
      rw [List.map_map]
      exact Block.keys_ofItems fun i hi => (FairLeaf.fits hx i hi).writes
    have hwithin : Tree.checkWithin K x.number ((x.items.map Prod.fst).map K.bytes) (r.fences K) =
        .ok () := by
      refine checkWithin_map hr ?_ (List.pairwise_map.2 (FairLeaf.ascending hx)) ?_ ?_ <;>
        rintro k hk <;> obtain ⟨i, hi, rfl⟩ := List.mem_map.1 hk
      · exact (FairLeaf.fits hx i hi).writes.1
      · exact (FairLeaf.within hx i hi).1
      · exact (FairLeaf.within hx i hi).2
    have hlen : (g.leaf x.items).length = x.items.length := Block.length_ofItems
    change t.checkAllocated .leaf x.number = .ok () at hallocated
    change t.verifyBelow 0 x.number (r.fences K) = .ok x.items.length
    simp only [Tree.verifyBelow, hallocated, hread, hkeys, hwithin, hlen, bind, Except.bind, pure,
      Except.pure]
  | level + 1, x, r, hr, hx, hmass, hcells => by
    have hcell := hcells _ (List.mem_cons_self ..)
    have hread := readIndex_eq h hcell hx.fits (FairNode.length hx) hmass
    have hallocated := checkAllocated_eq h
      (Option.isSome_iff_exists.2 ⟨_, hcell⟩)
    have hw : ∀ k ∈ x.keys, K.Writes k := fun k hk => (hx.fits k hk).writes
    have hlen := FairNode.length hx
    have hsorted := FairNode.keys hx
    have hkeys : (g.node x.keys (x.children.map Subtree.number)).keys =
        .ok (x.keys.map K.bytes) := Index.keys_ofParts hlen hw
    have hwithin : Tree.checkWithin K x.number (x.keys.map K.bytes) (r.fences K) = .ok () :=
      checkWithin_map hr hw hsorted.1 (fun k hk a ha => le_of_lt ((hsorted.2 k hk).1 a ha))
        fun k hk => (hsorted.2 k hk).2
    have hchildren : Index.children (g.node x.keys (x.children.map Subtree.number)) =
        .ok (x.children.map Subtree.number) := Index.children_ofParts hlen hw
    -- each child is checked between the separators around it
    have hchain : Chain (fun r c => t.verifyBelow level c.number (r.fences K) =
        .ok (c.items level).length) r x.keys x.children := by
      refine hx.chain.imp_of_mem fun r' c hc hlower hupper hsound => ?_
      refine verifyBelow_run h ⟨fun k hk => ?_, fun k hk => ?_⟩ hsound.fair hsound.tight.mass_le
        fun cell hcell => hcells cell (List.mem_cons_of_mem _ (List.mem_flatMap.2 ⟨c, hc, hcell⟩))
      · exact (hlower k hk).elim (hw k) (hr.1 k)
      · exact (hupper k hk).elim (hw k) (hr.2 k)
    have hcounts := mapM_children hchain
    have hsum : (x.children.map fun c => (c.items level).length).foldr (· + ·) 0 =
        (x.items (level + 1)).length := by
      rw [Subtree.items_succ, List.length_flatMap, List.sum_eq_foldr]
    change t.checkAllocated .index x.number = .ok () at hallocated
    simp only [Tree.verifyBelow, hallocated, hread, hkeys, hwithin, hchildren, hcounts,
      hsum, bind, Except.bind, pure, Except.pure]

/-- A tree that stores items passes its check. -/
theorem verify_run (h : g.Stores items R t) : t.verify = .ok () := by
  have hlen := h.length_eq
  obtain ⟨level, x, hrooted, rfl⟩ := h.holding
  have hcount : t.verifyBelow t.descriptor.indexLevels t.descriptor.root ⟨none, none⟩ =
      .ok (x.items level).length := by
    rw [hrooted.root_eq, hrooted.indexLevels_eq]
    exact verifyBelow_run hrooted.on (r := Span.all)
      ⟨(fun _ hk => nomatch hk), (fun _ hk => nomatch hk)⟩ hrooted.sound.fair
      hrooted.sound.mass_le fun _ hc => hrooted.holds.get hc
  simp only [Tree.verify, hcount, hlen, bind, Except.bind]
  exact if_neg fun hne => hne rfl

end Regime

end PagedMap
