/-
# Whose blocks are whose

The blocks that a tree lists are different blocks, none of which the store held before the
tree was opened; together with those that it held they are all that is allocated, and
those that it held are as they were (`Tree.reachable_owns`).

Key definition: `Shape.listed`.
Key theorems: `Regime.Stores.owns`, `Tree.reachable_owns`.
-/
import Mathlib.Data.List.Nodup
import PagedMap.Proofs.Codec.Kinds
import PagedMap.Proofs.Tree.Blocks
import PagedMap.Proofs.Tree.Fresh

namespace PagedMap

/-- The index blocks and the leaves, or those of them that are in the pool. -/
def Shape.listed (g : Shape) (b : List BlockNumber × List BlockNumber) (kind : Pool) :
    List BlockNumber :=
  if g.isShared then b.1 ++ b.2
  else
    match kind with
    | .index => b.1
    | .leaf => b.2

namespace Regime

variable {σ κ ν : Type} {K : OrderedCodec κ} {V : Codec ν} {g : Regime K V}
  {b : List BlockNumber × List BlockNumber} {kind : Pool} {n : BlockNumber}

theorem mem_listed : n ∈ g.shape.listed b kind ↔ (g.shape.home kind, n) ∈ g.spots b := by
  cases hshared : g.shape.isShared <;> cases kind <;>
    simp [Shape.listed, spots, hshared, spot, Regime.kind, Shape.home]

theorem nodup_listed (h : (g.spots b).Nodup) : (g.shape.listed b kind).Nodup := by
  rw [spots] at h
  unfold Shape.listed
  cases hshared : g.shape.isShared with
  | true =>
    have hspot (level : Nat) : g.spot level = fun n => (Pool.leaf, n) := by
      funext n
      cases level <;> simp [spot, Regime.kind, Shape.home, hshared]
    rw [hspot, hspot, ← List.map_append] at h
    exact List.Nodup.of_map _ h
  | false =>
    obtain ⟨hindex, hleaf, -⟩ := List.nodup_append.1 h
    cases kind
    · exact List.Nodup.of_map _ hleaf
    · exact List.Nodup.of_map _ hindex

variable [Store σ] [LawfulStore σ] [LinearOrder κ] [K.Lawful]

/-- A tree that stores items beside what another state of the store holds owns the other
blocks. -/
theorem Stores.owns {s : σ} {t : Tree σ K V} {items : List (κ × ν)} (hs : LawfulStore.Valid s)
    (hshape : LawfulStore.shape s = g.shape) (h : g.Stores items (LawfulStore.heap s) t) :
    ∃ b, t.blocks = .ok b ∧ ∀ kind,
      (g.shape.listed b kind).Nodup ∧
      (∀ n, Store.isAllocated t.store kind n = true ↔
        n ∈ g.shape.listed b kind ∨ Store.isAllocated s kind n = true) ∧
      (∀ n ∈ g.shape.listed b kind, Store.isAllocated s kind n = false) ∧
      ∀ n, Store.isAllocated s kind n = true →
        Store.read t.store kind n = Store.read s kind n := by
  have hon := h.holding.on
  obtain ⟨b, hblocks, cells, hspots, hholds⟩ := blocks_run h.holding
  have hrest : ∀ q, LawfulStore.heap s q = if q ∈ g.spots b then none else heap t q := by
    intro q
    rw [← hspots]
    exact hholds.rest_eq q
  have hsome : ∀ q ∈ g.spots b, (heap t q).isSome := by
    intro q hq
    rw [← hspots] at hq
    obtain ⟨c, hc, rfl⟩ := List.mem_map.1 hq
    exact Option.isSome_iff_exists.2 ⟨c.2, hholds.get hc⟩
  have hbefore (kind : Pool) (n : BlockNumber) : Store.isAllocated s kind n =
      (if (g.shape.home kind, n) ∈ g.spots b then none
        else heap t (g.shape.home kind, n)).isSome := by
    rw [LawfulStore.isAllocated_eq hs, hshape, hrest]
  have hafter (kind : Pool) (n : BlockNumber) :
      Store.isAllocated t.store kind n = (heap t (g.shape.home kind, n)).isSome := by
    rw [LawfulStore.isAllocated_eq hon.valid, hon.shape]
    rfl
  refine ⟨b, hblocks, fun kind => ⟨nodup_listed (hspots ▸ hholds.nodup), fun n => ?_,
    fun n hn => ?_, fun n hn => ?_⟩⟩
  · rw [hbefore, hafter]
    by_cases hmem : (g.shape.home kind, n) ∈ g.spots b
    · exact ⟨fun _ => .inl (mem_listed.2 hmem), fun _ => hsome _ hmem⟩
    · rw [if_neg hmem]
      exact ⟨.inr, fun hor => hor.resolve_left (mt mem_listed.1 hmem)⟩
  · rw [hbefore, if_pos (mem_listed.1 hn)]
    rfl
  · rw [LawfulStore.isAllocated_eq hs] at hn
    obtain ⟨bs, hbs⟩ := Option.isSome_iff_exists.1 hn
    have hread := LawfulStore.read_eq hs hbs
    rw [hrest, hshape] at hbs
    split at hbs
    · cases hbs
    · exact (LawfulStore.read_eq hon.valid (by rw [hon.shape]; exact hbs)).trans hread.symm

end Regime

namespace Tree

variable {κ ν : Type} [LinearOrder κ] {K : OrderedCodec κ} {V : Codec ν} [K.Lawful] [V.Lawful]

/-- A tree that was opened in a store that tells of none owns its blocks and changes no
other. -/
theorem reachable_owns {s : Device} {t : Tree Device K V} (hs : s.Used) (hblank : IsBlank s)
    (ht : Reachable K V s t) :
    ∃ b, t.blocks = .ok b ∧ ∀ kind,
      (s.shape.listed b kind).Nodup ∧
      (∀ n, Store.isAllocated t.store kind n = true ↔
        n ∈ s.shape.listed b kind ∨ Store.isAllocated s kind n = true) ∧
      (∀ n ∈ s.shape.listed b kind, Store.isAllocated s kind n = false) ∧
      ∀ n, Store.isAllocated s kind n = true →
        Store.read t.store kind n = Store.read s kind n := by
  obtain ⟨items, hstores⟩ := Regime.reachable_stores hs.valid hblank ht
  exact hstores.owns hs.valid rfl

/-- A store in which something else has the first block. -/
def occupied : Device := (Store.allocate .leaf [1, 2, 3] Device.small).2

/-- A tree in a store that something else has a block of. -/
theorem reachable_owns_occupied : ∃ (t : Tree Device word32 word32.toCodec)
    (b : List BlockNumber × List BlockNumber),
    Reachable word32 word32.toCodec occupied t ∧ t.blocks = .ok b ∧ t.length = 3 ∧
      (b.1 ++ b.2).Nodup ∧ 0 ∉ b.1 ++ b.2 ∧
      Store.read t.store .leaf 0 = .ok (1 :: 2 :: 3 :: List.replicate 29 0) := by
  obtain ⟨⟨answers, t⟩, hrun, hlength⟩ := exists_ok_of_toOption (f := fun r => r.2.length)
    (x := session word32 word32.toCodec occupied Device.smallCalls) (b := 3) (by decide +kernel)
  have ht := reachable_of_session hrun
  obtain ⟨b, hblocks, howned⟩ := reachable_owns (K := KeyKind.word32.codec)
    (V := (ValueKind.key .word32).codec) (.allocate _ _ (.fresh Device.small_fresh))
    ⟨_, rfl, rfl⟩ ht
  obtain ⟨hnodup, -, hnew, hkept⟩ := howned .leaf
  have hfirst : Store.isAllocated occupied .leaf 0 = true := by decide +kernel
  refine ⟨t, b, ht, hblocks, hlength, hnodup, fun hmem => ?_, (hkept 0 hfirst).trans rfl⟩
  exact absurd ((hnew 0 hmem).symm.trans hfirst) Bool.false_ne_true

end Tree

end PagedMap
