/-
# The rank of a key and the key of a rank

A tree that calls have made tells of every key how many of its entries have smaller keys,
in the whole tree and in the leaf to which the key belongs, and of every rank the key that
has it. What it tells are counts of the entries that a scan gives, and the one undoes the
other (`Tree.reachable_ranks`).

Key theorems: `Regime.rank?_run`, `Tree.reachable_ranks`.
-/
import PagedMap.Proofs.Codec.Kinds
import PagedMap.Proofs.Tree.Fresh
import PagedMap.Proofs.Tree.Rank
import PagedMap.Proofs.Tree.Scan

namespace PagedMap

namespace Regime

variable {σ κ ν : Type} [Store σ] [LawfulStore σ] [LinearOrder κ] {K : OrderedCodec κ}
  {V : Codec ν} [K.Lawful] [V.Lawful] {g : Regime K V} {R : Heap} {t : Tree σ K V}
  {items : List (κ × ν)} {k : κ}

/-- A tree tells of a key where it stands, and tells it also when only stored keys are
asked for, if the key is stored. -/
theorem rank?_run (h : g.Stores items R t) (hw : K.Writes k) :
    ∃ xs, t.LeafFor k items xs ∧ t.rank k = .ok (.of k xs items) ∧
      t.rank? k = .ok (if k ∈ items.map Prod.fst then some (.of k xs items) else none) := by
  obtain ⟨xs, hleaf, hrank⟩ := rank_run h hw
  refine ⟨xs, hleaf, hrank, ?_⟩
  rw [Tree.rank?, hrank]
  simp only [Except.map, Rank.of, decide_eq_true_eq]

/-- The rank that is told of a stored key has this key. -/
theorem keyAt?_rank (h : g.Stores items R t) (hk : k ∈ items.map Prod.fst) :
    ∃ r, t.rank? k = .ok (some r) ∧ t.keyAt? r.smaller = .ok (some k) := by
  obtain ⟨⟨k, v⟩, hmem, rfl⟩ := List.mem_map.1 hk
  obtain ⟨level, x, hrooted, hitems⟩ := h.holding
  have hfits := hrooted.sound.fair.fitsItem hrooted.sound.mass_le (k, v) (hitems ▸ hmem)
  obtain ⟨xs, -, -, hrank⟩ := rank?_run h hfits.writes.1
  refine ⟨.of k xs items, by rw [hrank, if_pos hk], ?_⟩
  rw [keyAt?_run h, show (Rank.of k xs items).smaller = smallerIn k items from rfl,
    h.ascending.getElem?_smallerIn hmem]
  rfl

end Regime

namespace Tree

variable {κ ν : Type} [LinearOrder κ] {K : OrderedCodec κ} {V : Codec ν} [K.Lawful] [V.Lawful]

/-- What a tree that calls have made tells of keys and of ranks are counts of its entries. -/
theorem reachable_ranks {s : Device} {t : Tree Device K V} (hs : s.Used) (hblank : IsBlank s)
    (ht : Reachable K V s t) :
    ∃ items, Ascending items ∧ t.iter = .ok (items.map .ok) ∧ t.length = items.length ∧
      (∀ k e, K.encode k = .error e → t.rank k = .error e ∧ t.rank? k = .error e) ∧
      (∀ k probe, K.encode k = .ok probe →
        ∃ xs, t.LeafFor k items xs ∧ t.rank k = .ok (.of k xs items) ∧
          t.rank? k = .ok (if k ∈ items.map Prod.fst then some (.of k xs items) else none)) ∧
      (∀ i, t.keyAt? i = .ok (items[i]?.map Prod.fst)) ∧
      ∀ k ∈ items.map Prod.fst,
        ∃ r, t.rank? k = .ok (some r) ∧ t.keyAt? r.smaller = .ok (some k) := by
  obtain ⟨items, hstores⟩ := Regime.reachable_stores hs.valid hblank ht
  refine ⟨items, hstores.ascending, Regime.iter_run hstores.holding, hstores.length_eq,
    fun k e he => ?_, fun k probe hencode => ?_, Regime.keyAt?_run hstores,
    fun k hk => Regime.keyAt?_rank hstores hk⟩
  · have hrank : t.rank k = .error e := Regime.rank_refused he
    exact ⟨hrank, by rw [rank?, hrank]; rfl⟩
  · exact Regime.rank?_run hstores (Codec.writes_of_encode hencode)

/-- Ranks in a tree with two leaves: of a key that is not stored, and of one that is. -/
theorem reachable_ranks_small : ∃ t : Tree Device word32 word32.toCodec,
    Reachable word32 word32.toCodec Device.small t ∧ t.length = 4 ∧
      (t.rank 5).map Rank.smaller = .ok 4 ∧ t.rank? 5 = .ok none ∧
      (t.rank? 3).map (Option.map Rank.smaller) = .ok (some 2) ∧
      t.keyAt? 2 = .ok (some 3) ∧ t.keyAt? 4 = .ok none := by
  obtain ⟨⟨answers, t⟩, hrun, hiter⟩ := exists_ok_of_toOption
    (f := fun r => r.2.iter.toOption.map (List.filterMap Except.toOption))
    (b := some [(1, 10), (2, 20), (3, 30), (4, 40)])
    (x := session word32 word32.toCodec Device.small (Device.smallCalls.take 4)) (by decide +kernel)
  have ht := reachable_of_session hrun
  obtain ⟨items, -, hitems, hlength, -, hranks, hkeys, -⟩ := reachable_ranks
    (K := KeyKind.word32.codec) (V := (ValueKind.key .word32).codec) (.fresh Device.small_fresh)
    ⟨_, rfl, rfl⟩ ht
  obtain rfl : items = ([(1, 10), (2, 20), (3, 30), (4, 40)] : List (UInt32 × UInt32)) := by
    have hall := (congrArg (fun i => i.toOption.map (List.filterMap Except.toOption)) hitems).symm
    have hfilter : (items.map (.ok : _ → Except Error _)).filterMap Except.toOption = items := by
      rw [List.filterMap_map, show Except.toOption ∘ Except.ok = some from rfl,
        List.filterMap_some]
    exact hfilter.symm.trans (Option.some.inj (hall.trans hiter))
  obtain ⟨xs, -, hrank, hrank'⟩ := hranks (5 : UInt32) _ rfl
  obtain ⟨ys, -, -, hstored⟩ := hranks (3 : UInt32) _ rfl
  have hnew : (5 : UInt32) ∉ ([1, 2, 3, 4] : List UInt32) := by decide
  have hold : (3 : UInt32) ∈ ([1, 2, 3, 4] : List UInt32) := by decide
  exact ⟨t, ht, hlength, congrArg (Except.map Rank.smaller) hrank,
    hrank'.trans (congrArg Except.ok (if_neg hnew)),
    congrArg (Except.map (Option.map Rank.smaller))
      (hstored.trans (congrArg Except.ok (if_pos hold))),
    hkeys 2, hkeys 4⟩

end Tree

end PagedMap
