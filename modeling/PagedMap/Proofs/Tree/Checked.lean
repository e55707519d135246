/-
# What the check of a tree shows

The blocks need not have been written by this program: leaves may be empty, index blocks may
have no separators, and a block may be referenced twice. If the check passes, the blocks
below the root are a subtree whose keys ascend between the separators
(`Tree.exists_checked`). The spans of the children of a block lie one after the other within
its own, so the items of a checked subtree ascend although some of its leaves may have none
(`Tree.Checked.orderly`).

Key definitions: `Orderly`, `Tree.CheckedLeaf`, `Tree.CheckedIndex`, `Tree.Checked`.
Key theorems: `Chain.orderly`, `Tree.exists_checked`, `Tree.Checked.orderly`.
-/
import PagedMap.Proofs.Block.Foreign
import PagedMap.Proofs.Tree.Route
import PagedMap.Proofs.Tree.Verified

namespace PagedMap

variable {κ ν τ : Type} [LinearOrder κ] {K : OrderedCodec κ} {V : Codec ν}

/-- The items, if there are any, ascend within the bounds. -/
structure Orderly (r : Span κ) (items : List (κ × ν)) : Prop where
  ascending : Ascending items
  within : ∀ i ∈ items, r.Has i.1

/-- If the separators ascend within the bounds and the items of every child are orderly, all
items are. -/
theorem Chain.orderly {H : Span κ → τ → Prop} {f : τ → List (κ × ν)}
    (hH : ∀ r c, H r c → Orderly r (f c)) : ∀ {r : Span κ} {ks : List κ} {cs : List τ},
    ks.Pairwise (· < ·) → (∀ k ∈ ks, r.Has k) → Chain H r ks cs → Orderly r (cs.flatMap f)
  | r, [], [c], _, _, h => by
    rw [List.flatMap_singleton]
    exact hH r c h
  | r, k :: ks, c :: cs, hs, hr, h => by
    obtain ⟨hk, hks⟩ := List.pairwise_cons.1 hs
    obtain ⟨hkr, hksr⟩ := List.forall_mem_cons.1 hr
    have hc := hH _ _ h.1
    have hcs : Orderly ⟨some k, r.upper?⟩ (cs.flatMap f) :=
      Chain.orderly hH hks (fun l hl => ⟨fun a ha => Option.some.inj ha ▸ le_of_lt (hk l hl),
        (hksr l hl).2⟩) h.2
    have hlt : ∀ i ∈ f c, i.1 < k := fun i hi => (hc.within i hi).2 k rfl
    have hle : ∀ j ∈ cs.flatMap f, k ≤ j.1 := fun j hj => (hcs.within j hj).1 k rfl
    rw [List.flatMap_cons]
    refine ⟨ascending_append.2 ⟨hc.ascending, hcs.ascending,
      fun i hi j hj => lt_of_lt_of_le (hlt i hi) (hle j hj)⟩, fun i hi => ?_⟩
    rcases List.mem_append.1 hi with hi | hi
    · exact ⟨(hc.within i hi).1, fun b hb => lt_trans (hlt i hi) (hkr.2 b hb)⟩
    · exact ⟨fun a ha => le_trans (hkr.1 a ha) (hle i hi), (hcs.within i hi).2⟩

/-! ### Keys that pass -/

section Keys

variable [K.Lawful] {n : BlockNumber} {r : Span κ}

theorem pairwise_of_checkAscending : ∀ {ks : List κ}, (∀ k ∈ ks, K.Writes k) →
    Tree.checkAscending K n (ks.map K.bytes) = .ok () → ks.Pairwise (· < ·)
  | [], _, _ => List.Pairwise.nil
  | [_], _, _ => List.pairwise_singleton ..
  | a :: b :: ks, hw, h => by
    have hcompare := OrderedCodec.compareEncoded_bytes (hw a (by simp)) (hw b (by simp))
    simp only [List.map_cons, Tree.checkAscending, hcompare, bind, Except.bind] at h
    split at h
    · next hlt =>
      have hsorted := pairwise_of_checkAscending (fun k hk => hw k (List.mem_cons_of_mem a hk)) h
      refine List.pairwise_cons.2 ⟨List.forall_mem_cons.2 ⟨compare_lt_iff_lt.1 hlt, ?_⟩, hsorted⟩
      exact fun k hk => lt_trans (compare_lt_iff_lt.1 hlt) ((List.pairwise_cons.1 hsorted).1 k hk)
    · cases h

/-- The first of the keys is not below the bound, so none is. -/
theorem le_of_checkLower {ks : List κ} (hr : r.Written K) (hw : ∀ k ∈ ks, K.Writes k)
    (hs : ks.Pairwise (· < ·))
    (h : Tree.checkLower K n (r.fences K).lower? (ks.map K.bytes).head? = .ok ()) :
    ∀ k ∈ ks, ∀ a ∈ r.lower?, a ≤ k := by
  intro k hk a ha
  obtain ⟨b, ks, rfl⟩ := List.exists_cons_of_ne_nil (List.ne_nil_of_mem hk)
  have hcompare := OrderedCodec.compareEncoded_bytes (hw b (List.mem_cons_self ..)) (hr.1 a ha)
  simp only [Span.fences, Option.mem_def.1 ha, Option.map_some, List.map_cons, List.head?_cons,
    Tree.checkLower, hcompare, bind, Except.bind] at h
  have hle : a ≤ b := by
    refine not_lt.1 fun hlt => ?_
    rw [compare_lt_iff_lt.2 hlt] at h
    cases h
  rcases List.mem_cons.1 hk with rfl | hk
  · exact hle
  · exact le_trans hle (le_of_lt ((List.pairwise_cons.1 hs).1 k hk))

/-- The last of the keys is below the bound, so all are. -/
theorem lt_of_checkUpper {ks : List κ} (hr : r.Written K) (hw : ∀ k ∈ ks, K.Writes k)
    (hs : ks.Pairwise (· < ·))
    (h : Tree.checkUpper K n (r.fences K).upper? (ks.map K.bytes).getLast? = .ok ()) :
    ∀ k ∈ ks, ∀ b ∈ r.upper?, k < b := by
  intro k hk b hb
  obtain rfl | ⟨ks, l, rfl⟩ := List.eq_nil_or_concat' ks
  · cases hk
  have hcompare := OrderedCodec.compareEncoded_bytes (hw l (by simp)) (hr.2 b hb)
  simp only [Span.fences, Option.mem_def.1 hb, Option.map_some, List.map_append, List.map_cons,
    List.map_nil, List.getLast?_concat, Tree.checkUpper, hcompare, bind, Except.bind] at h
  have hlt : l < b := by
    split at h
    · next hlt => exact compare_lt_iff_lt.1 hlt
    · cases h
  rcases List.mem_append.1 hk with hk | hk
  · exact lt_trans ((List.pairwise_append.1 hs).2.2 k hk l (List.mem_singleton_self l)) hlt
  · rwa [List.mem_singleton.1 hk]

/-- Keys that pass the check of a block ascend within its bounds. -/
theorem ordered_of_checkWithin {ks : List κ} (hr : r.Written K) (hw : ∀ k ∈ ks, K.Writes k)
    (h : Tree.checkWithin K n (ks.map K.bytes) (r.fences K) = .ok ()) :
    ks.Pairwise (· < ·) ∧ ∀ k ∈ ks, r.Has k := by
  obtain ⟨⟨⟩, hascending, h⟩ := exists_of_bind_eq_ok h
  obtain ⟨⟨⟩, hlower, hupper⟩ := exists_of_bind_eq_ok h
  have hs := pairwise_of_checkAscending hw hascending
  exact ⟨hs, fun k hk => ⟨le_of_checkLower hr hw hs hlower k hk,
    lt_of_checkUpper hr hw hs hupper k hk⟩⟩

end Keys

omit [LinearOrder κ] in
/-- Where a step succeeds for every child in its fences, there is a chain of what the steps
have shown. -/
theorem exists_chain {α : Type} {f : BlockNumber → Fences → Except Error α} {m : τ → BlockNumber}
    {h : τ → α} {H : Span κ → τ → Prop}
    (hstep : ∀ {n : BlockNumber} {r : Span κ} {a : α}, r.Written K → f n (r.fences K) = .ok a →
      ∃ c, m c = n ∧ H r c ∧ h c = a) :
    ∀ {ks : List κ} {ns : List BlockNumber} {r : Span κ} {as : List α}, r.Written K →
      (∀ k ∈ ks, K.Writes k) → ns.length = ks.length + 1 →
      ((ns.zip ((r.fences K).children (ks.map K.bytes))).mapM fun c => f c.1 c.2) = .ok as →
      ∃ cs, cs.map m = ns ∧ Chain H r ks cs ∧ cs.map h = as
  | [], [n], r, as, hr, _, _, hmap => by
    obtain ⟨a, as', ha, has, rfl⟩ := exists_of_mapM_cons hmap
    obtain rfl : [] = as' := Except.ok.inj has
    obtain ⟨c, rfl, hc, rfl⟩ := hstep hr ha
    exact ⟨[c], rfl, hc, rfl⟩
  | k :: ks, n :: ns, r, as, hr, hw, hlen, hmap => by
    obtain ⟨hk, hks⟩ := List.forall_mem_cons.1 hw
    obtain ⟨a, as', ha, has, rfl⟩ := exists_of_mapM_cons hmap
    have hwritten : ∀ l ∈ some k, K.Writes l := fun l hl => Option.some.inj hl ▸ hk
    obtain ⟨c, rfl, hc, rfl⟩ := hstep (r := ⟨r.lower?, some k⟩) ⟨hr.1, hwritten⟩ ha
    obtain ⟨cs, rfl, hcs, rfl⟩ := exists_chain hstep (r := ⟨some k, r.upper?⟩) ⟨hwritten, hr.2⟩ hks
      (Nat.succ.inj hlen) has
    exact ⟨c :: cs, rfl, ⟨hc, hcs⟩, rfl⟩

namespace Tree

variable {σ : Type} [Store σ] (t : Tree σ K V)

/-- A leaf of items, whose pointer may be anything. -/
def leafWith (items : List (κ × ν)) (last : BlockNumber) : Leaf K V :=
  Block.ofItems K V (Store.blockSize t.store .leaf) items last

/-- An index block of separators and children. -/
def indexWith (keys : List κ) (children : List BlockNumber) : Index K :=
  Index.ofParts K (Store.blockSize t.store .index) keys children

/-- The leaf can be read; its items ascend within the bounds. -/
structure CheckedLeaf (r : Span κ) (x : LeafNode κ ν) : Prop where
  read : ∃ last, t.readLeaf x.number = .ok (t.leafWith x.items last)
  writes : ∀ i ∈ x.items, Block.WritesItem K V i
  orderly : Orderly r x.items

/-- The index block can be read; its separators ascend within the bounds, and each child is
checked within its own. -/
structure CheckedIndex {level : Nat} (H : Span κ → Subtree κ ν level → Prop) (r : Span κ)
    (x : IndexNode κ (Subtree κ ν level)) : Prop where
  read : t.readIndex x.number = .ok (t.indexWith x.keys (x.children.map Subtree.number))
  writes : ∀ k ∈ x.keys, K.Writes k
  ascending : x.keys.Pairwise (· < ·)
  within : ∀ k ∈ x.keys, r.Has k
  chain : Chain H r x.keys x.children

/-- The blocks at and below a block are a subtree that was checked within bounds. -/
def Checked : (level : Nat) → Span κ → Subtree κ ν level → Prop
  | 0, r, x => t.CheckedLeaf r x
  | level + 1, r, x => t.CheckedIndex (Checked level) r x

variable {t}

/-- The items of a checked subtree ascend within its bounds. -/
theorem Checked.orderly : ∀ {level : Nat} {r : Span κ} {x : Subtree κ ν level},
    t.Checked level r x → Orderly r (x.items level)
  | 0, _, _, h => CheckedLeaf.orderly h
  | _ + 1, _, _, h => Chain.orderly (fun _ _ hc => Checked.orderly hc) (CheckedIndex.ascending h)
    (CheckedIndex.within h) (CheckedIndex.chain h)

theorem Checked.readIndex {level : Nat} {r : Span κ} {x : Subtree κ ν (level + 1)}
    (h : t.Checked (level + 1) r x) :
    t.readIndex (Subtree.number x) = .ok (t.indexWith x.keys (x.children.map Subtree.number)) :=
  CheckedIndex.read h

/-- The leaves of a checked subtree are checked. -/
theorem Checked.leaves : ∀ {level : Nat} {r : Span κ} {x : Subtree κ ν level},
    t.Checked level r x → ∀ y ∈ x.leaves level, ∃ r, t.CheckedLeaf r y
  | 0, r, x, h, y, hy => by
    obtain rfl := List.mem_singleton.1 hy
    exact ⟨r, h⟩
  | level + 1, r, x, h, y, hy => by
    obtain ⟨c, hc, hy⟩ := List.mem_flatMap.1 hy
    obtain ⟨r', hchecked⟩ := (CheckedIndex.chain h).of_mem c hc
    exact Checked.leaves hchecked y hy

section Inversion

variable [K.Lawful] [K.Faithful] [V.Faithful]

theorem exists_checkedLeaf {n : BlockNumber} {r : Span κ} {count : Nat} (hr : r.Written K)
    (h : t.verifyBelow 0 n (r.fences K) = .ok count) :
    ∃ x : LeafNode κ ν, x.number = n ∧ t.CheckedLeaf r x ∧ x.items.length = count := by
  obtain ⟨⟨⟩, -, h⟩ := exists_of_bind_eq_ok h
  obtain ⟨leaf, hread, h⟩ := exists_of_bind_eq_ok h
  obtain ⟨keys, hkeys, h⟩ := exists_of_bind_eq_ok h
  obtain ⟨⟨⟩, hwithin, h⟩ := exists_of_bind_eq_ok h
  obtain ⟨bs, -, hblock⟩ := exists_of_bind_eq_ok hread
  obtain ⟨items, last, rfl, hitems⟩ := Block.exists_ofItems hblock
  obtain rfl : items.length = count := Block.length_ofItems.symm.trans (Except.ok.inj h)
  rw [Block.keys_ofItems hitems] at hkeys
  obtain rfl : (items.map Prod.fst).map K.bytes = keys :=
    (List.map_map ..).trans (Except.ok.inj hkeys)
  obtain ⟨hascending, hhas⟩ := ordered_of_checkWithin hr
    (List.forall_mem_map.2 fun i hi => (hitems i hi).1) hwithin
  exact ⟨⟨n, items⟩, rfl, ⟨⟨last, hread⟩, hitems, List.pairwise_map.1 hascending,
    List.forall_mem_map.1 hhas⟩, rfl⟩

/-- If the check passes, the blocks below a block are a checked subtree with so many items as
were counted. -/
theorem exists_checked : ∀ {level : Nat} {n : BlockNumber} {r : Span κ} {count : Nat},
    r.Written K → t.verifyBelow level n (r.fences K) = .ok count →
    ∃ x : Subtree κ ν level, x.number = n ∧ t.Checked level r x ∧ (x.items level).length = count
  | 0, _, _, _, hr, h => exists_checkedLeaf hr h
  | level + 1, n, r, count, hr, h => by
    obtain ⟨⟨⟩, -, h⟩ := exists_of_bind_eq_ok h
    obtain ⟨node, hread, h⟩ := exists_of_bind_eq_ok h
    obtain ⟨keys, hkeys, h⟩ := exists_of_bind_eq_ok h
    obtain ⟨⟨⟩, hwithin, h⟩ := exists_of_bind_eq_ok h
    obtain ⟨children, hchildren, h⟩ := exists_of_bind_eq_ok h
    obtain ⟨counts, hcounts, h⟩ := exists_of_bind_eq_ok h
    obtain ⟨bs, -, hblock⟩ := exists_of_bind_eq_ok hread
    obtain ⟨ks, cs, rfl, hlen, hw⟩ := Index.exists_ofParts hblock
    rw [Index.keys_ofParts hlen hw] at hkeys
    obtain rfl : ks.map K.bytes = keys := Except.ok.inj hkeys
    rw [Index.children_ofParts hlen hw] at hchildren
    obtain rfl : cs = children := Except.ok.inj hchildren
    obtain ⟨hascending, hhas⟩ := ordered_of_checkWithin hr hw hwithin
    obtain ⟨xs, rfl, hchain, rfl⟩ := exists_chain (h := fun c => (Subtree.items level c).length)
      (fun hr hc => exists_checked hr hc) hr hw hlen hcounts
    refine ⟨⟨n, ks, xs⟩, rfl, ⟨hread, hw, hascending, hhas, hchain⟩, ?_⟩
    rw [← Except.ok.inj h, Subtree.items_succ, List.length_flatMap, List.sum_eq_foldr]

end Inversion

end Tree

end PagedMap
