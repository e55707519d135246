/-
# Trees that cannot be told apart

What a tree answers depends only on the items that it stores, not on how they lie in its
blocks. So a tree into which entries were loaded answers from then on what a tree answers
into which they were put one by one (`Tree.load_alike`). Entries are loaded if and only if
they are in ascending order and within the limits, unless a pool is full
(`Regime.Stores.load`).

Key definitions: `Tree.Alike`, `Tree.Loadable`.
Key theorems: `Regime.Stores.alike`, `Regime.Stores.load`, `Tree.load_alike`.
-/
import PagedMap.Proofs.Tree.Rank
import PagedMap.Proofs.Tree.Scan
import PagedMap.Proofs.Tree.Total
import PagedMap.Proofs.Tree.Verified

namespace PagedMap

namespace Tree

variable {σ τ κ ν : Type} [Store σ] [Store τ] {K : OrderedCodec κ} {V : Codec ν}

/-- The trees give the same answers. -/
structure Alike (t : Tree σ K V) (u : Tree τ K V) : Prop where
  length_eq : t.length = u.length
  get?_eq : ∀ k, t.get? k = u.get? k
  scan_eq : ∀ descending lower upper,
    t.scan descending lower upper = u.scan descending lower upper
  keyAt?_eq : ∀ i, t.keyAt? i = u.keyAt? i
  smaller_eq : ∀ k, (t.rank k).map Rank.smaller = (u.rank k).map Rank.smaller
  smaller?_eq : ∀ k, (t.rank? k).map (Option.map Rank.smaller) =
    (u.rank? k).map (Option.map Rank.smaller)

/-- The keys ascend, and no entry is too long. -/
def Loadable [LinearOrder κ] (t : Tree σ K V) (entries : List (κ × ν)) : Prop :=
  Ascending entries ∧ ∀ i ∈ entries, ¬ t.TooLong i.1 i.2

end Tree

section Maps

variable {κ ν : Type} [LinearOrder κ]

/-- Putting in entries whose keys ascend puts each behind those before it. -/
theorem toList_mapM_insert : ∀ {entries seen : List (κ × ν)} {m : Map κ ν}, m.toList = seen →
    Ascending (seen ++ entries) →
    ((entries.map fun i => Call.insert i.1 i.2).mapM Call.onMap m).2.toList = seen ++ entries
  | [], seen, m, hm, _ => by
    rw [List.append_nil]
    exact hm
  | (k, v) :: entries, seen, m, hm, hs => by
    rw [List.append_cons] at hs ⊢
    have hseen := ascending_append.1 (ascending_append.1 hs).1
    have halters : Alters k none (some v) seen (seen ++ [(k, v)]) :=
      ⟨seen, [], by simp [itemOf], rfl, fun i hi => hseen.2.2 i hi _ (List.mem_singleton_self _),
        List.forall_mem_nil _⟩
    have hinsert : (m.insert k v).toList = seen ++ [(k, v)] :=
      halters.toList_eq hseen.1 hm fun _ => Std.TreeMap.getElem?_insert
    rw [List.map_cons, mapM_onMap_cons]
    exact toList_mapM_insert hinsert hs

end Maps

namespace Regime

variable {σ τ κ ν : Type} [Store σ] [LawfulStore σ] [Store τ] [LawfulStore τ] [LinearOrder κ]
  {K : OrderedCodec κ} {V : Codec ν} [K.Lawful] [V.Lawful] {g g' : Regime K V} {R R' : Heap}
  {t : Tree σ K V} {u : Tree τ K V} {items entries : List (κ × ν)}

/-! ### What a tree answers -/

omit [Store τ] [LawfulStore τ] in
theorem Stores.smaller_eq (h : g.Stores items R t) (k : κ) :
    (t.rank k).map Rank.smaller = (K.encode k).map (fun _ => smallerIn k items) ∧
      (t.rank? k).map (Option.map Rank.smaller) = (K.encode k).map fun _ =>
        if k ∈ items.map Prod.fst then some (smallerIn k items) else none := by
  rw [Tree.rank?]
  cases hencode : K.encode k with
  | error e =>
    rw [rank_refused hencode]
    exact ⟨rfl, rfl⟩
  | ok b =>
    obtain ⟨xs, -, hrank⟩ := rank_run h (Codec.writes_of_encode hencode)
    rw [hrank]
    refine ⟨rfl, ?_⟩
    by_cases hmem : k ∈ items.map Prod.fst <;> simp [Except.map, Rank.of, hmem]

/-- Trees that store the same items are alike. -/
theorem Stores.alike (h : g.Stores items R t) (h' : g'.Stores items R' u) : t.Alike u := by
  obtain ⟨m, rfl⟩ : ∃ m : Map κ ν, m.toList = items := ⟨_, toList_ofList h.ascending⟩
  constructor
  · rw [h.length_eq, h'.length_eq]
  · intro k
    rw [(h.lookup k).1, (h'.lookup k).1]
  · intro descending lower upper
    rw [scan_eq h.holding, scan_eq h'.holding]
  · intro i
    rw [keyAt?_run h, keyAt?_run h']
  · intro k
    rw [(h.smaller_eq k).1, (h'.smaller_eq k).1]
  · intro k
    rw [(h.smaller_eq k).2, (h'.smaller_eq k).2]

/-! ### Loading -/

omit [Store τ] [LawfulStore τ] [K.Lawful] [V.Lawful] in
theorem loadable_iff (h : g.On t) (hw : ∀ i ∈ entries, K.Writes i.1 ∧ V.Writes i.2) :
    g.Loadable entries ↔ t.Loadable entries := by
  have hfits : ∀ i ∈ entries, g.FitsItem i ↔ ¬ t.TooLong i.1 i.2 := fun i hi =>
    fitsItem_iff h (hw i hi).1 (hw i hi).2
  exact ⟨fun hall => ⟨hall.ascending, fun i hi => (hfits i hi).1 (hall.fits i hi)⟩,
    fun hall => ⟨hall.1, fun i hi => (hfits i hi).2 (hall.2 i hi)⟩⟩

omit [Store τ] [LawfulStore τ] [V.Lawful] in
/-- Entries that can be encoded are loaded into an empty tree if and only if they are in
ascending order and within the limits, unless a pool is full. -/
theorem Stores.load (hdense : g.isDense = false) (h : g.Stores ([] : List (κ × ν)) R t)
    (hw : ∀ i ∈ entries, K.Writes i.1 ∧ V.Writes i.2) (hlen : entries.length ≤ maxInt32) :
    Ends (Tree.load entries) t
      (fun e _ => IsOutOfSpace e ∨ IsInvalidArgument e ∧ ¬ t.Loadable entries)
      fun _ t' => t.Loadable entries ∧ g.Stores entries R t' := by
  have hiff := loadable_iff h.holding.on hw
  refine (load_ends hdense h.holding).mono ?_ ?_
  · rintro e - (⟨-, hsize⟩ | ⟨-, hlarge⟩ | hspace | ⟨hinvalid, hnot⟩ | ⟨i, hi, he⟩)
    · exact absurd h.size_eq hsize
    · exact absurd hlen (Nat.not_le.2 hlarge)
    · exact .inl hspace
    · exact .inr ⟨hinvalid, fun hall => hnot (hiff.2 hall)⟩
    · exact (he.elim (Codec.not_writes_of_error · (hw i hi).1)
        (Codec.not_writes_of_error · (hw i hi).2)).elim
  · rintro - t' ⟨-, hholding, hsize⟩
    have hstores : g.Stores entries R t' := ⟨hholding, hsize⟩
    obtain ⟨level, x, hrooted, rfl⟩ := hholding
    exact ⟨hiff.1 ⟨hstores.ascending, hrooted.sound.fair.fitsItem hrooted.sound.mass_le⟩, hstores⟩

end Regime

namespace Tree

variable {κ ν : Type} [LinearOrder κ] {K : OrderedCodec κ} {V : Codec ν} [K.Lawful] [V.Lawful]

/-- Entries that can be encoded are loaded into an empty tree if they are in ascending order
and within the limits, and refused if not, unless a pool is full. The tree then has just
these entries, and whatever is put into it or taken out of it afterwards, it gives the
same answers as any tree into which the entries were put one by one, when it was empty. -/
theorem load_alike {s : Device} {t : Tree Device K V} {entries : List (κ × ν)} (hs : s.Used)
    (hblank : IsBlank s) (ht : Reachable K V s t) (hempty : t.length = 0)
    (hw : ∀ i ∈ entries, K.Writes i.1 ∧ V.Writes i.2) (hlen : entries.length ≤ maxInt32) :
    Ends (load entries) t
      (fun e _ => IsOutOfSpace e ∨ IsInvalidArgument e ∧ ¬ t.Loadable entries)
      fun _ t₁ => t.Loadable entries ∧ t₁.verify = .ok () ∧ t₁.iter = .ok (entries.map .ok) ∧
        t₁.length = entries.length ∧
        ∀ (s' : Device) (u u₁ : Tree Device K V) (filled : List (Option ν)),
          s'.Used → IsBlank s' → Reachable K V s' u → u.length = 0 →
          (entries.map fun i => Call.insert i.1 i.2).mapM call u = (.ok filled, u₁) →
          ∀ (calls : List (Call κ ν)) (t₂ u₂ : Tree Device K V) (answers answers' : List (Option ν)),
            calls.mapM call t₁ = (.ok answers, t₂) → calls.mapM call u₁ = (.ok answers', u₂) →
            answers = answers' ∧ t₂.Alike u₂ := by
  have hnil {s : Device} {t : Tree Device K V} (hs : s.Used) (hblank : IsBlank s)
      (ht : Reachable K V s t) (hempty : t.length = 0) :
      (Regime.ofShape K V s.shape).Stores ([] : List (κ × ν)) (LawfulStore.heap s) t := by
    obtain ⟨items, hstores⟩ := Regime.reachable_stores hs.valid hblank ht
    obtain rfl : items = [] := List.eq_nil_of_length_eq_zero (hstores.length_eq.symm.trans hempty)
    exact hstores
  refine (Regime.Stores.load rfl (hnil hs hblank ht hempty) hw hlen).imp ?_
  rintro - t₁ ⟨hloadable, hstores⟩
  refine ⟨hloadable, Regime.verify_run hstores, Regime.iter_run hstores.holding, hstores.length_eq,
    fun s' u u₁ filled hs' hblank' hu hempty' hfill calls t₂ u₂ answers answers' hrun hrun' => ?_⟩
  have hempty'' :
      (Regime.ofShape K V s'.shape).Stores (∅ : Map κ ν).toList (LawfulStore.heap s') u :=
    hnil hs' hblank' hu hempty'
  obtain ⟨m, hmap, hstores'⟩ := (Regime.mapM_call_ends rfl hempty'').of_ok hfill
  have hfilled : ((entries.map fun i => Call.insert i.1 i.2).mapM Call.onMap
      (∅ : Map κ ν)).2.toList = [] ++ entries := toList_mapM_insert rfl hloadable.1
  obtain rfl : m.toList = entries := (congrArg (fun r => r.2.toList) hmap).symm.trans hfilled
  obtain ⟨m₂, hmap₂, hstores₂⟩ := (Regime.mapM_call_ends rfl hstores).of_ok hrun
  obtain ⟨m₂', hmap₂', hstores₂'⟩ := (Regime.mapM_call_ends rfl hstores').of_ok hrun'
  obtain ⟨rfl, rfl⟩ := Prod.mk.inj (hmap₂.symm.trans hmap₂')
  exact ⟨rfl, hstores₂.alike hstores₂'⟩

/-- Four entries, which are loaded into two leaves and put one by one into two others. -/
theorem load_alike_small : ∃ t t₁ u₁ t₂ u₂ : Tree Device word32 word32.toCodec,
    Reachable word32 word32.toCodec Device.small t ∧
      load [(1, 10), (2, 20), (3, 30), (4, 40)] t = (.ok (), t₁) ∧ t₁.descriptor.leafLevel = 0 ∧
      [.insert 1 10, .insert 2 20, .insert 3 30, .insert 4 40].mapM call t =
        (.ok [none, none, none, none], u₁) ∧
      [.insert 2 21, .erase 1].mapM call t₁ = (.ok [some 20, some 10], t₂) ∧
      [.insert 2 21, .erase 1].mapM call u₁ = (.ok [some 20, some 10], u₂) ∧
      t₁.iter = .ok [.ok (1, 10), .ok (2, 20), .ok (3, 30), .ok (4, 40)] ∧ t₂.Alike u₂ := by
  obtain ⟨⟨answers, t⟩, hrun, hfound⟩ := exists_ok_of_toOption
    (f := fun r =>
      let t₁ := load [(1, 10), (2, 20), (3, 30), (4, 40)] r.2
      let u₁ := [.insert 1 10, .insert 2 20, .insert 3 30, .insert 4 40].mapM call r.2
      r.2.length == 0 && t₁.1.toOption == some () && t₁.2.descriptor.leafLevel == 0 &&
        u₁.1.toOption == some [none, none, none, none] &&
        ([.insert 2 21, .erase 1].mapM call t₁.2).1.toOption == some [some 20, some 10] &&
        ([.insert 2 21, .erase 1].mapM call u₁.2).1.toOption == some [some 20, some 10])
    (b := true) (x := session word32 word32.toCodec Device.small []) (by decide +kernel)
  simp only [Bool.and_eq_true, beq_iff_eq] at hfound
  obtain ⟨⟨⟨⟨⟨hempty, hload⟩, hlevel⟩, hfill⟩, hcalls⟩, hcalls'⟩ := hfound
  have ht := reachable_of_session hrun
  have hw : ∀ i ∈ ([(1, 10), (2, 20), (3, 30), (4, 40)] : List (UInt32 × UInt32)),
      KeyKind.word32.codec.Writes i.1 ∧ (ValueKind.key .word32).codec.Writes i.2 :=
    fun _ _ => ⟨rfl, rfl⟩
  have hends := load_alike (K := KeyKind.word32.codec) (V := (ValueKind.key .word32).codec)
    (.fresh Device.small_fresh) ⟨_, rfl, rfl⟩ ht hempty hw (by decide)
  obtain ⟨-, -, hiter, -, halike⟩ := hends.of_ok (Prod.ext (eq_ok_of_toOption hload) rfl)
  obtain ⟨-, h⟩ := halike Device.small t _ _ (.fresh Device.small_fresh) ⟨_, rfl, rfl⟩ ht hempty
    (Prod.ext (eq_ok_of_toOption hfill) rfl)
    [.insert (2 : UInt32) (21 : UInt32), .erase (1 : UInt32)] _ _ _ _
    (Prod.ext (eq_ok_of_toOption hcalls) rfl) (Prod.ext (eq_ok_of_toOption hcalls') rfl)
  exact ⟨t, _, _, _, _, ht, Prod.ext (eq_ok_of_toOption hload) rfl, hlevel,
    Prod.ext (eq_ok_of_toOption hfill) rfl, Prod.ext (eq_ok_of_toOption hcalls) rfl,
    Prod.ext (eq_ok_of_toOption hcalls') rfl, hiter, h⟩

end Tree

end PagedMap
