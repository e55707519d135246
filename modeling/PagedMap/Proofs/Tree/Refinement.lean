/-
# A tree is a map

Every call answers what a map of the standard library answers, and changes the items of
the tree as it changes the map (`Call.onMap_outcome`). So after any session in a new
store the tree has as many items as the map, and tells of every key what the map tells
(`Tree.session_refines`).

Key definition: `Call.onMap`.
Key theorems: `toList_eq`, `Call.onMap_outcome`, `Regime.mapM_call_ends`,
`Tree.session_refines`.
-/
import PagedMap.Proofs.Codec.Kinds
import PagedMap.Proofs.Tree.Fresh
import PagedMap.Proofs.Tree.Lookup
import Std.Data.TreeMap.Lemmas

namespace PagedMap

/-- A map of the standard library. -/
abbrev Map (κ ν : Type) [Ord κ] : Type := Std.TreeMap κ ν compare

/-- Makes a call on a map. -/
def Call.onMap {κ ν : Type} [Ord κ] : Call κ ν → StateM (Map κ ν) (Option ν)
  | .insert key value => fun m => (m[key]?, m.insert key value)
  | .insertIfNew key value => fun m => (m[key]?, m.insertIfNew key value)
  | .erase key => fun m => (m[key]?, m.erase key)
  | .truncate => fun _ => (none, ∅)
  | .load entries => fun _ => (none, .ofList entries)

section Maps

variable {κ ν : Type} [LinearOrder κ] {m : Map κ ν} {items items' : List (κ × ν)} {k : κ}
  {v : ν} {o : Option ν}

/-- Lists in ascending order with the same members are the same. -/
theorem Ascending.ext (h : Ascending items) (h' : Ascending items')
    (hmem : ∀ i, i ∈ items ↔ i ∈ items') : items = items' := by
  have hnodup {items : List (κ × ν)} (h : Ascending items) : items.Nodup :=
    h.imp fun hlt heq => absurd (heq ▸ hlt) (lt_irrefl _)
  refine ((List.perm_ext_iff_of_nodup (hnodup h) (hnodup h')).2 hmem).eq_of_pairwise ?_ h h'
  intro a b _ _ hab hba
  exact absurd hba (lt_asymm hab)

theorem ascending_toList (m : Map κ ν) : Ascending m.toList :=
  Std.TreeMap.ordered_keys_toList.imp fun h => compare_lt_iff_lt.1 h

/-- Items in ascending order that tell the same as a map are the items of the map. -/
theorem toList_eq (h : Ascending items) (hmem : ∀ k v, (k, v) ∈ items ↔ m[k]? = some v) :
    m.toList = items :=
  (ascending_toList m).ext h fun i =>
    (Std.TreeMap.mem_toList_iff_getElem?_eq_some (k := i.1) (v := i.2)).trans (hmem i.1 i.2).symm

theorem mem_iff_getElem? (h : m.toList = items) : (k, v) ∈ items ↔ m[k]? = some v :=
  h ▸ Std.TreeMap.mem_toList_iff_getElem?_eq_some

theorem Alters.getElem?_eq {o' : Option ν} (h : Alters k o o' items items')
    (hm : m.toList = items) : m[k]? = o :=
  Option.ext fun _ => (mem_iff_getElem? hm).symm.trans h.old_iff

/-- What alters the item of a key alters the map at this key. -/
theorem Alters.toList_eq {o' : Option ν} {m' : Map κ ν} (h : Alters k o o' items items')
    (hs : Ascending items) (hm : m.toList = items)
    (hget : ∀ a, m'[a]? = if compare k a = .eq then o' else m[a]?) : m'.toList = items' := by
  refine PagedMap.toList_eq (h.ascending hs) fun a v => ?_
  rw [h.mem_iff, hget]
  by_cases ha : a = k
  · subst ha
    simp [Option.mem_def]
  · have hne : compare k a ≠ .eq := fun heq => ha (compare_eq_iff_eq.1 heq).symm
    simp [ha, hne, mem_iff_getElem? hm]

/-- The map of entries in ascending order has these entries. -/
theorem toList_ofList (h : Ascending items) :
    (Std.TreeMap.ofList items compare).toList = items := by
  have hdistinct : items.Pairwise fun a b => ¬ compare a.1 b.1 = .eq :=
    h.imp fun hlt heq => by
      rw [compare_lt_iff_lt.2 hlt] at heq
      cases heq
  refine toList_eq h fun k v => ⟨fun hmem => ?_, fun hget => ?_⟩
  · exact Std.TreeMap.getElem?_ofList_of_mem (compare_eq_iff_eq.2 rfl) hdistinct hmem
  · by_cases hk : k ∈ items.map Prod.fst
    · obtain ⟨⟨a, w⟩, hmem, rfl⟩ := List.mem_map.1 hk
      have hsame := Std.TreeMap.getElem?_ofList_of_mem (compare_eq_iff_eq.2 rfl) hdistinct hmem
      obtain rfl := Option.some.inj (hsame.symm.trans hget)
      exact hmem
    · rw [Std.TreeMap.getElem?_ofList_of_contains_eq_false (by simpa using hk)] at hget
      cases hget

/-- A call makes of the items and answers what it makes of the map and answers there. -/
theorem Call.onMap_outcome {c : Call κ ν} (h : c.Outcome items o items') (hs : Ascending items)
    (hs' : Ascending items') (hm : m.toList = items) :
    ∃ m', c.onMap m = (o, m') ∧ m'.toList = items' := by
  cases c with
  | insert k v =>
    have halters : Alters k o (some v) items items' := h
    obtain rfl := halters.getElem?_eq hm
    exact ⟨_, rfl, halters.toList_eq hs hm fun _ => Std.TreeMap.getElem?_insert⟩
  | insertIfNew k v =>
    have halters : Alters k o (o.or (some v)) items items' := h
    obtain rfl := halters.getElem?_eq hm
    refine ⟨_, rfl, halters.toList_eq hs hm fun a => ?_⟩
    have hmem := Std.TreeMap.mem_iff_isSome_getElem? (t := m) (a := k)
    rw [Std.TreeMap.getElem?_insertIfNew]
    by_cases hk : compare k a = .eq
    · obtain rfl := compare_eq_iff_eq.1 hk
      cases hget : m[k]? <;> simp_all
    · simp [hk]
  | erase k =>
    have halters : Alters k o none items items' := h
    obtain rfl := halters.getElem?_eq hm
    exact ⟨_, rfl, halters.toList_eq hs hm fun _ => Std.TreeMap.getElem?_erase⟩
  | truncate =>
    obtain ⟨rfl, rfl⟩ := h
    exact ⟨_, rfl, rfl⟩
  | load entries =>
    obtain ⟨rfl, -, rfl⟩ := h
    exact ⟨_, rfl, toList_ofList hs'⟩

omit [LinearOrder κ] in
theorem mapM_onMap_cons [Ord κ] (c : Call κ ν) (calls : List (Call κ ν)) (m : Map κ ν) :
    (c :: calls).mapM Call.onMap m =
      let first := c.onMap m
      let rest := calls.mapM Call.onMap first.2
      (first.1 :: rest.1, rest.2) := by
  rw [List.mapM_cons]
  rfl

end Maps

namespace Regime

variable {σ κ ν : Type} [Store σ] [LawfulStore σ] [LinearOrder κ] {K : OrderedCodec κ}
  {V : Codec ν} [K.Lawful] [V.Lawful] {g : Regime K V} {R : Heap}

/-- Calls that succeed answer what a map answers, and the tree stores what the map has. -/
theorem mapM_call_ends_of : ∀ {calls : List (Call κ ν)},
    (∀ c ∈ calls, c.isLoad = true → g.isDense = false) →
    ∀ {t : Tree σ K V} {m : Map κ ν}, g.Stores m.toList R t →
    Ends (calls.mapM Tree.call) t (fun _ _ => True) fun answers t' =>
      ∃ m', calls.mapM Call.onMap m = (answers, m') ∧ g.Stores m'.toList R t'
  | [], _, _, m, h => ends_pure ⟨m, rfl, h⟩
  | c :: calls, hdense, t, m, h => by
    rw [List.mapM_cons]
    have hcall := call_ends_of (hdense c (List.mem_cons_self ..)) h
    refine (hcall.imp_error fun _ _ _ => trivial).bind fun answer t₁ hcall => ?_
    obtain ⟨items', houtcome, h₁⟩ := hcall
    obtain ⟨m₁, hmap, rfl⟩ := Call.onMap_outcome houtcome h.ascending h₁.ascending rfl
    have hrest := mapM_call_ends_of (fun c hc => hdense c (List.mem_cons_of_mem _ hc)) h₁
    refine hrest.bind fun answers t' hcalls => ?_
    obtain ⟨m', hmaps, h'⟩ := hcalls
    refine ends_pure ⟨m', ?_, h'⟩
    rw [mapM_onMap_cons, hmap]
    dsimp only
    rw [hmaps]

theorem mapM_call_ends (hdense : g.isDense = false) {calls : List (Call κ ν)} {t : Tree σ K V}
    {m : Map κ ν} (h : g.Stores m.toList R t) :
    Ends (calls.mapM Tree.call) t (fun _ _ => True) fun answers t' =>
      ∃ m', calls.mapM Call.onMap m = (answers, m') ∧ g.Stores m'.toList R t' :=
  mapM_call_ends_of (fun _ _ _ => hdense) h

/-- What a tree tells of a key is what a map with its items tells. -/
theorem Stores.lookup {t : Tree σ K V} {m : Map κ ν} (h : g.Stores m.toList R t) (k : κ) :
    t.get? k = (K.encode k).map (fun _ => m[k]?) ∧
      t.getItem? k = (K.encode k).map (fun _ => m[k]?.map fun v => (k, v)) ∧
      t.contains k = (K.encode k).map fun _ => m[k]?.isSome := by
  cases hencode : K.encode k with
  | error e => exact Tree.lookup_refused hencode
  | ok b =>
    obtain ⟨o, ho, hget, hitem, hcontains⟩ := lookup_run h.holding (Codec.writes_of_encode hencode)
    obtain rfl : m[k]? = o := Option.ext fun v => (mem_iff_getElem? rfl).symm.trans (ho v)
    exact ⟨hget, hitem, hcontains⟩

end Regime

namespace Tree

/-- A session in a new store answers what a map answers, and in the end the tree tells
its length and of every key what the map tells. -/
theorem session_refines {o : Options} {s : Device} (hs : Device.Fresh o s) (key : KeyKind)
    (value : ValueKind) :
    (∃ t, session key.codec value.codec s [] = .ok ([], t)) ∧
      ∀ calls answers t, session key.codec value.codec s calls = .ok (answers, t) →
        ∃ m, calls.mapM Call.onMap (∅ : Map key.Item value.Item) = (answers, m) ∧
          t.length = m.size ∧
          ∀ k, t.get? k = (key.codec.encode k).map (fun _ => m[k]?) ∧
            t.getItem? k = (key.codec.encode k).map (fun _ => m[k]?.map fun v => (k, v)) ∧
            t.contains k = (key.codec.encode k).map fun _ => m[k]?.isSome := by
  have hblank := hs.blank
  constructor
  · obtain ⟨t, s', hopen⟩ := hblank.opens key.codec value.codec
    exact ⟨t, by rw [session, hopen]; rfl⟩
  · intro calls answers t hrun
    obtain ⟨t₀, s', hopen, hcalls⟩ := session_ok hrun
    have h₀ : (Regime.ofShape key.codec value.codec s.shape).Stores
        (∅ : Map key.Item value.Item).toList s.heap t₀ :=
      Regime.ofStore_stores hblank.valid hblank.isBlank hopen
    obtain ⟨m, hmap, hstores⟩ := (Regime.mapM_call_ends rfl h₀).of_ok hcalls
    exact ⟨m, hmap, hstores.length_eq.trans Std.TreeMap.length_toList, hstores.lookup⟩

/-- What calls answer that put a key in twice, take one out again and do not find one. -/
theorem session_refines_small : ∃ t : Tree Device word32 word32.toCodec,
    session word32 word32.toCodec Device.small Device.smallCalls =
      .ok ([none, none, none, none, some 30, some 20, none], t) ∧
    t.length = 3 ∧ t.get? 3 = .ok (some 30) ∧ t.contains 2 = .ok false := by
  obtain ⟨⟨answers, t⟩, hrun, rfl⟩ := exists_ok_of_toOption (f := Prod.fst)
    (x := session word32 word32.toCodec Device.small Device.smallCalls)
    (b := [none, none, none, none, some 30, some 20, none]) (by decide +kernel)
  obtain ⟨m, hmap, hlength, htells⟩ :=
    (session_refines Device.small_fresh .word32 (.key .word32)).2 _ _ _ hrun
  obtain rfl : _ = m := congrArg Prod.snd hmap
  have hfound : (Device.smallCalls.mapM Call.onMap (∅ : Map UInt32 UInt32)).2[(3 : UInt32)]? =
      some 30 := by decide +kernel
  have hgone : (Device.smallCalls.mapM Call.onMap (∅ : Map UInt32 UInt32)).2[(2 : UInt32)]?.isSome =
      false := by decide +kernel
  exact ⟨t, hrun, hlength.trans (by decide +kernel),
    (htells (3 : UInt32)).1.trans (congrArg Except.ok hfound),
    (htells (2 : UInt32)).2.2.trans (congrArg Except.ok hgone)⟩

end Tree

end PagedMap
