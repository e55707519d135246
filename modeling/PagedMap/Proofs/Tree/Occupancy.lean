/-
# How full the blocks are

Evening out with a neighbour is done as far as it can be, and may leave a block less
than half full. A bound remains: in a tree that has not been loaded every leaf but the
root fills more than a third of its room, and every index block but the root more than
a sixth (`Regime.Sound.filled`, `Tree.session_fills`). Every change settles to blocks
that are dense in this sense (`Regime.call_ends_of`), since entries and separators take
a third of the room at most.

Key definitions: `Tree.LeafFilled`, `Tree.IndexFilled`.
Key theorems: `Regime.Sound.filled`, `Regime.Stores.filled`, `Tree.session_fills`.
-/
import PagedMap.Proofs.Tree.Blocks
import PagedMap.Proofs.Tree.Refinement

namespace PagedMap

namespace Tree

variable {σ κ ν : Type} [Store σ] {K : OrderedCodec κ} {V : Codec ν}

/-- The entries of the leaf take more than a third of its room. -/
def LeafFilled (t : Tree σ K V) (n : BlockNumber) : Prop :=
  ∃ leaf, t.readLeaf n = .ok leaf ∧ Store.blockSize t.store .leaf - 8 < 3 * leaf.entryBytes

/-- The separators of the index block take more than a sixth of its room. -/
def IndexFilled (t : Tree σ K V) (n : BlockNumber) : Prop :=
  ∃ node, t.readIndex n = .ok node ∧ Store.blockSize t.store .index - 8 < 6 * node.entryBytes

end Tree

namespace Regime

variable {σ κ ν : Type} [Store σ] [LawfulStore σ] [LinearOrder κ] {K : OrderedCodec κ}
  {V : Codec ν} [K.Lawful] [V.Lawful] {g : Regime K V} {R : Heap} {t : Tree σ K V}
  {items : List (κ × ν)}

/-- The blocks of a dense subtree, its uppermost block with them, are filled. -/
theorem Sound.filled (h : g.On t) (hdense : g.isDense = true) :
    ∀ {level : Nat} {x : Subtree κ ν level} {r : Span κ}, g.Sound level r x →
      (∀ c ∈ g.cells level x, heap t c.1 = some c.2) →
      (∀ n ∈ x.leafNumbers level, t.LeafFilled n) ∧ ∀ n ∈ x.indexNumbers level, t.IndexFilled n
  | 0, (x : LeafNode κ ν), r, hx, hcells => by
    have hread := readLeaf_eq h (hcells _ (List.mem_cons_self ..)) hx.1.fits hx.2.mass_le
    have hlarge : g.room 0 < 3 * Block.bytesOf K V x.items := hx.2.room_lt hdense
    refine ⟨fun n hn => ?_, fun _ hn => by cases hn⟩
    obtain rfl : n = x.number := List.mem_singleton.1 hn
    refine ⟨_, hread, ?_⟩
    rw [h.blockSize_eq, leaf, Block.entryBytes_ofItems]
    exact hlarge
  | level + 1, x, r, hx, hcells => by
    have hread := readIndex_eq h (hcells _ (List.mem_cons_self ..)) hx.1.fits
      (FairNode.length hx.1) hx.2.mass_le
    have hlarge : g.room 1 < 6 * Index.weight K x.keys := hx.2.room_lt hdense
    have hchildren : ∀ c ∈ x.children, (∀ n ∈ c.leafNumbers level, t.LeafFilled n) ∧
        ∀ n ∈ c.indexNumbers level, t.IndexFilled n := by
      intro c hc
      obtain ⟨r', hsound⟩ := hx.1.chain.of_mem c hc
      exact hsound.filled h hdense fun cell hcell =>
        hcells cell (List.mem_cons_of_mem _ (List.mem_flatMap.2 ⟨c, hc, hcell⟩))
    refine ⟨fun n hn => ?_, fun n hn => ?_⟩
    · obtain ⟨c, hc, hn⟩ := List.mem_flatMap.1 hn
      exact (hchildren c hc).1 n hn
    · rcases List.mem_cons.1 hn with rfl | hn
      · refine ⟨_, hread, ?_⟩
        rw [h.blockSize_eq, node, Index.entryBytes_ofParts (FairNode.length hx.1)]
        exact hlarge
      · obtain ⟨c, hc, hn⟩ := List.mem_flatMap.1 hn
        exact (hchildren c hc).2 n hn

/-- In a tree of a dense regime only the root may be nearly empty. -/
theorem Stores.filled (hdense : g.isDense = true) (h : g.Stores items R t) :
    ∃ indexes leaves, t.blocks = .ok (indexes, leaves) ∧
      (∀ n ∈ leaves, t.descriptor.leafLevel = -1 ∧ n = t.descriptor.root ∨ t.LeafFilled n) ∧
      ∀ n ∈ indexes, n = t.descriptor.root ∨ t.IndexFilled n := by
  obtain ⟨level, x, hrooted, -⟩ := h.holding
  have hcells : ∀ c ∈ g.cells level x, heap t c.1 = some c.2 := fun _ hc => hrooted.holds.get hc
  refine ⟨x.indexNumbers level, x.leafNumbers level, ?_, ?_⟩
  · rw [Tree.blocks_eq, hrooted.root_eq, hrooted.indexLevels_eq]
    exact blocksBelow_run hrooted.on hrooted.sound.fair hrooted.sound.mass_le hcells
  cases level with
  | zero =>
    refine ⟨fun n hn => .inl ⟨hrooted.leafLevel_eq, ?_⟩, fun _ hn => by cases hn⟩
    rw [hrooted.root_eq]
    exact List.mem_singleton.1 hn
  | succ level =>
    have hchildren : ∀ c ∈ IndexNode.children x, (∀ n ∈ c.leafNumbers level, t.LeafFilled n) ∧
        ∀ n ∈ c.indexNumbers level, t.IndexFilled n := by
      intro c hc
      obtain ⟨r, hsound⟩ := FairNode.chain hrooted.sound.fair |>.of_mem c hc
      exact hsound.filled hrooted.on hdense fun cell hcell =>
        hcells cell (List.mem_cons_of_mem _ (List.mem_flatMap.2 ⟨c, hc, hcell⟩))
    refine ⟨fun n hn => .inr ?_, fun n hn => ?_⟩
    · obtain ⟨c, hc, hn⟩ := List.mem_flatMap.1 hn
      exact (hchildren c hc).1 n hn
    · rcases List.mem_cons.1 hn with rfl | hn
      · exact .inl hrooted.root_eq.symm
      · obtain ⟨c, hc, hn⟩ := List.mem_flatMap.1 hn
        exact .inr ((hchildren c hc).2 n hn)

end Regime

namespace Tree

variable {κ ν : Type} [LinearOrder κ] {K : OrderedCodec κ} {V : Codec ν} [K.Lawful] [V.Lawful]

/-- However a tree was changed since it was opened, unless it was loaded, every leaf but
the root fills more than a third of its room and every index block but the root more
than a sixth. -/
theorem session_fills {s : Device} {calls : List (Call κ ν)} {answers : List (Option ν)}
    {t : Tree Device K V} (hs : s.Used) (hblank : IsBlank s) (hcalls : ∀ c ∈ calls, c.isLoad = false)
    (hrun : session K V s calls = .ok (answers, t)) :
    ∃ indexes leaves, t.blocks = .ok (indexes, leaves) ∧
      (∀ n ∈ leaves, t.descriptor.leafLevel = -1 ∧ n = t.descriptor.root ∨ t.LeafFilled n) ∧
      ∀ n ∈ indexes, n = t.descriptor.root ∨ t.IndexFilled n := by
  obtain ⟨t₀, s', hopen, hmade⟩ := session_ok hrun
  let g : Regime K V := ⟨s.shape, true⟩
  have h₀ : g.Stores (∅ : Map κ ν).toList s.heap t₀ :=
    Regime.ofStore_stores_of hs.valid rfl hblank hopen
  have hends := Regime.mapM_call_ends_of
    (fun c hc hload => Bool.noConfusion ((hcalls c hc).symm.trans hload)) h₀
  obtain ⟨m, -, hstores⟩ := hends.of_ok hmade
  exact hstores.filled rfl

/-- Four entries of eight bytes are in two leaves, which have at least nine bytes each. -/
theorem session_fills_small : ∃ t : Tree Device word32 word32.toCodec,
    (∃ answers, session word32 word32.toCodec Device.small (Device.smallCalls.take 4) =
      .ok (answers, t)) ∧
    t.blocks = .ok ([2], [0, 1]) ∧ t.LeafFilled 0 ∧ t.LeafFilled 1 := by
  obtain ⟨⟨answers, t⟩, hrun, hfound⟩ := exists_ok_of_toOption
    (f := fun r => (r.2.blocks.toOption, r.2.descriptor.leafLevel))
    (b := (some ([2], [0, 1]), 0))
    (x := session word32 word32.toCodec Device.small (Device.smallCalls.take 4)) (by decide +kernel)
  obtain ⟨hblocks, hlevel⟩ : t.blocks.toOption = some ([2], [0, 1]) ∧ t.descriptor.leafLevel = 0 :=
    Prod.mk.inj hfound
  have hcalls : ∀ c ∈ Device.smallCalls.take 4, c.isLoad = false := by decide
  obtain ⟨indexes, leaves, hlists, hleaves, -⟩ := session_fills (K := KeyKind.word32.codec)
    (V := (ValueKind.key .word32).codec) (.fresh Device.small_fresh) ⟨_, rfl, rfl⟩ hcalls hrun
  have hfilled : ∀ n ∈ leaves, t.LeafFilled n := fun n hn =>
    (hleaves n hn).resolve_left fun hroot => absurd (hroot.1.symm.trans hlevel) (by decide)
  obtain ⟨rfl, rfl⟩ : indexes = [2] ∧ leaves = [0, 1] :=
    Prod.mk.inj (Option.some.inj ((congrArg Except.toOption hlists).symm.trans hblocks))
  exact ⟨t, ⟨answers, hrun⟩, hlists, hfilled 0 (by simp), hfilled 1 (by simp)⟩

end Tree

end PagedMap
