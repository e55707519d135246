/-
# Calls in stores that do the same

A tree is filled from entries alike in stores that do the same (`Tree.load_leads`); so
every call does the same in both (`Tree.run_agrees`). After a call that succeeds the
reserve of the first store tells the descriptor, unless it is unsaved (`Tree.run_mirrored`).

Key definitions: `TreeCall`, `Loading.Mirrored`.
Key theorems: `Tree.load_leads`, `Tree.run_agrees`, `Tree.run_mirrored`.
-/
import PagedMap.Proofs.Tree.Mirrored

namespace PagedMap

variable {σ τ κ ν α : Type} [Store σ] [Store τ] {K : OrderedCodec κ} {V : Codec ν}
  {R : σ → τ → Prop}

/-- What is done to an open tree: it is called, or saved. -/
inductive TreeCall (κ ν : Type) where
  | change (c : Call κ ν)
  | save

/-- Calls the tree or saves it. Saving answers nothing. -/
def TreeCall.run : TreeCall κ ν → Action (Tree σ K V) (Option ν)
  | .change c => Tree.call c
  | .save => do
    Tree.save
    return none

namespace Loading

/-- The trees are in stores that mirror each other, and all else is the same. -/
structure Mirrored (R : σ → τ → Prop) (l : Loading σ K V) (m : Loading τ K V) : Prop where
  tree : l.tree.Mirrored (fun _ => R) m.tree
  written_eq : l.written = m.written
  levels_eq : l.levels = m.levels
  previous?_eq : l.previous? = m.previous?
  leaf_eq : l.leaf = m.leaf
  count_eq : l.count = m.count
  lastKey?_eq : l.lastKey? = m.lastKey?

omit [Store σ] [Store τ] in
theorem onTree_agrees {act : Action (Tree σ K V) α} {act' : Action (Tree τ K V) α}
    (h : Agrees (Tree.Mirrored fun _ => R) act act') :
    Agrees (Mirrored R) (onTree act) (onTree act') := by
  intro l m hlm
  obtain ⟨hr, hR⟩ := h l.tree m.tree hlm.tree
  exact ⟨hr, { hlm with tree := hR }⟩

variable (hR : Mirrors fun _ => R)
include hR

theorem allocate_agrees (kind : Pool) (data : Bytes) :
    Agrees (Mirrored R (K := K) (V := V)) (allocate kind data) (allocate kind data) := by
  rw [allocate, allocate]
  refine (onTree_agrees (Tree.onStore_agrees fun d? =>
    hR.allocate_agrees d? kind data)).bind fun n => ?_
  refine (agrees_modify fun l m hlm => ?_).bind fun _ => agrees_pure _
  exact { hlm with written_eq := congrArg _ hlm.written_eq }

theorem addSeparator_agrees (capacity : Nat) : ∀ (levels : List (Index K)) key left,
    Agrees (Mirrored R (V := V)) (addSeparator capacity key left levels)
      (addSeparator capacity key left levels)
  | [], key, left => (agrees_lift rfl).bind fun _ => agrees_pure _
  | node :: above, key, left => by
    rw [addSeparator, addSeparator]
    refine agrees_ite ((agrees_lift rfl).bind fun _ => agrees_pure _) ?_
    refine (agrees_lift rfl).bind fun upKey => (agrees_lift rfl).bind fun upChild => ?_
    refine (agrees_lift rfl).bind fun full => (allocate_agrees hR _ _).bind fun n => ?_
    refine (agrees_lift rfl).bind fun fresh => ?_
    exact (addSeparator_agrees capacity above upKey n).bind fun _ => agrees_pure _

theorem closeLeaf_agrees (nextKey : Bytes) :
    Agrees (Mirrored R (K := K) (V := V)) (closeLeaf nextKey) (closeLeaf nextKey) := by
  rw [closeLeaf, closeLeaf]
  refine agrees_bind_get fun l m hlm => ?_
  rw [hlm.leaf_eq, hlm.levels_eq, (hlm.tree.twin hR).blockSize_eq]
  refine (agrees_set ?_).bind fun _ => (agrees_lift rfl).bind fun low => ?_
  · exact { hlm with leaf_eq := rfl, levels_eq := rfl }
  refine (agrees_lift rfl).bind fun key => (allocate_agrees hR _ _).bind fun n => ?_
  refine (addSeparator_agrees hR _ _ key n).bind fun levels => agrees_modify fun l m hlm => ?_
  exact { hlm with levels_eq := rfl, previous?_eq := rfl }

omit [Store σ] [Store τ] hR in
theorem checkAscending_agrees (key : Bytes) :
    Agrees (Mirrored R (K := K) (V := V)) (checkAscending key) (checkAscending key) := by
  rw [checkAscending, checkAscending]
  refine agrees_bind_get fun l m hlm => ?_
  rw [hlm.lastKey?_eq, hlm.count_eq]
  cases m.lastKey? with
  | none => exact agrees_pure _
  | some last =>
    refine (agrees_lift rfl).bind fun order => ?_
    cases order with
    | lt => exact agrees_pure _
    | eq => exact agrees_throw _
    | gt => exact agrees_throw _

theorem add_agrees (entry : κ × ν) :
    Agrees (Mirrored R (K := K) (V := V)) (add entry) (add entry) := by
  rw [add, add]
  refine agrees_bind_get fun l m hlm => ?_
  rw [(hlm.tree.twin hR).encodeEntry_eq, hlm.leaf_eq]
  refine (agrees_lift rfl).bind ?_
  rintro ⟨key, bytes⟩
  refine (checkAscending_agrees key).bind fun _ => ?_
  have hput : Agrees (Mirrored R)
      (do
        let l ← get
        let leaf ← l.leaf.append bytes
        set { l with leaf, count := l.count + 1, lastKey? := some key } :
        Action (Loading σ K V) PUnit)
      (do
        let l ← get
        let leaf ← l.leaf.append bytes
        set { l with leaf, count := l.count + 1, lastKey? := some key }) := by
    refine agrees_bind_get fun l m hlm => ?_
    rw [hlm.leaf_eq, hlm.count_eq]
    refine (agrees_lift rfl).bind fun leaf => agrees_set ?_
    exact { hlm with leaf_eq := rfl, count_eq := rfl, lastKey?_eq := rfl }
  exact agrees_ite ((closeLeaf_agrees hR key).bind fun _ => hput) hput

theorem evenOutLast_agrees :
    Agrees (Mirrored R (K := K) (V := V)) evenOutLast evenOutLast := by
  rw [evenOutLast, evenOutLast]
  refine agrees_bind_get fun l m hlm => ?_
  rw [hlm.previous?_eq, hlm.levels_eq, hlm.leaf_eq]
  cases m.previous? with
  | none => exact agrees_pure _
  | some p =>
    obtain ⟨n, previous⟩ := p
    cases m.levels with
    | nil => exact agrees_pure _
    | cons lowest above =>
      refine agrees_ite (agrees_ite ?_ (agrees_pure _)) (agrees_pure _)
      refine (agrees_lift rfl).bind fun key => (agrees_lift rfl).bind fun lowest => ?_
      refine agrees_ite ?_ (agrees_pure _)
      refine (onTree_agrees (Tree.writeLeaf_agrees hR _ _)).bind fun _ => ?_
      refine agrees_modify fun l m hlm => ?_
      exact { hlm with levels_eq := rfl, leaf_eq := rfl }

theorem writeLevels_agrees : ∀ (levels : List (Index K)) child,
    Agrees (Mirrored R (V := V)) (writeLevels child levels) (writeLevels child levels)
  | [], _ => agrees_pure _
  | _ :: above, _ => (allocate_agrees hR _ _).bind fun n => writeLevels_agrees above n

theorem finish_agrees : Agrees (Mirrored R (K := K) (V := V)) finish finish := by
  rw [finish, finish]
  refine (evenOutLast_agrees hR).bind fun _ => agrees_bind_get fun l m hlm => ?_
  rw [hlm.leaf_eq, hlm.levels_eq, hlm.count_eq]
  refine (allocate_agrees hR _ _).bind fun n => (writeLevels_agrees hR _ n).bind fun root => ?_
  refine agrees_modify fun l m hlm => ?_
  exact { hlm with tree := ⟨rfl, hlm.tree.stores⟩ }

theorem addAll_agrees (entries : List (κ × ν)) :
    Agrees (Mirrored R (K := K) (V := V)) (addAll entries) (addAll entries) :=
  (agrees_forM (add_agrees hR) entries).bind fun _ => finish_agrees hR

end Loading

namespace Tree

variable {R : Option Descriptor → σ → τ → Prop} {t : Tree σ K V} {u : Tree τ K V} (hR : Mirrors R)
include hR

theorem freeAll_agrees : ∀ blocks : List (Pool × BlockNumber),
    Agrees (Mirrored R (K := K) (V := V)) (freeAll blocks) (freeAll blocks)
  | [] => by
    rw [freeAll, freeAll]
    exact agrees_pure _
  | (kind, n) :: rest => by
    rw [freeAll, freeAll]
    refine ((free_agrees hR kind n).tryCatch fun _ => agrees_pure _).bind fun _ => ?_
    exact freeAll_agrees rest

omit [Store τ] hR in
theorem save_setDescriptor_eq (t : Tree σ K V) (d : Descriptor) :
    (setDescriptor d >>= fun _ => save) t = save ⟨t.store, d, true⟩ := by
  rw [bind_eq, show setDescriptor d t = (.ok (), ⟨t.store, d, true⟩) from rfl]

/-- Whatever the reserve told, it tells a descriptor that is saved. -/
theorem setDescriptor_save_leads (d : Descriptor) :
    Leads (Mirrored (fun _ => R none) (K := K) (V := V)) (Mirrored R)
      (do setDescriptor d; save) (do setDescriptor d; save) := by
  intro t u htu
  have hset : Mirrored R (K := K) (V := V) ⟨t.store, d, true⟩ ⟨u.store, d, true⟩ :=
    ⟨rfl, htu.stores⟩
  obtain ⟨hr, hR'⟩ := save_agrees hR _ _ hset
  rw [save_setDescriptor_eq, save_setDescriptor_eq]
  refine ⟨hr, ?_⟩
  split
  · exact hR'
  · exact hR'.loose hR

/-- Entries are loaded alike in both trees; if they are, the reserve tells the descriptor. -/
theorem load_leads (entries : List (κ × ν)) :
    Leads (Mirrored (fun _ => R none) (K := K) (V := V)) (Mirrored R) (load entries)
      (load entries) := by
  have hloose := hR.loose
  unfold load
  refine leads_bind_get fun t u htu => ?_
  rw [(htu.twin hloose).isEmpty_eq, (htu.twin hloose).blocks_eq, (htu.twin hloose).length_eq]
  refine leads_ite (leads_throw _) ?_
  refine (agrees_lift rfl).bind_leads fun (indexBlocks, leaves) => ?_
  refine (agrees_forM (free_agrees hloose .index) indexBlocks).bind_leads fun _ => ?_
  refine (agrees_forM (free_agrees hloose .leaf) leaves).bind_leads fun _ => ?_
  refine leads_bind_get fun t u htu => ?_
  have hempty := (htu.twin hloose).emptyLeaf_eq
  obtain ⟨hresult, hstop⟩ := Loading.addAll_agrees hloose entries
    ⟨t, [], [], none, t.emptyLeaf, 0, none⟩ ⟨u, [], [], none, u.emptyLeaf, 0, none⟩
    ⟨htu, rfl, rfl, rfl, hempty, rfl, rfl⟩
  rw [hempty] at hresult hstop ⊢
  dsimp only
  generalize Loading.addAll entries (⟨t, _, _, _, _, _, _⟩ : Loading σ K V) = run at hresult hstop ⊢
  generalize Loading.addAll entries (⟨u, _, _, _, _, _, _⟩ : Loading τ K V) = run'
    at hresult hstop ⊢
  obtain ⟨result, stop⟩ := run
  obtain ⟨result', stop'⟩ := run'
  obtain rfl : result = result' := hresult
  dsimp only
  refine (agrees_set hstop.tree).bind_leads fun _ => ?_
  cases result with
  | ok =>
    rw [hstop.tree.descriptor_eq]
    exact setDescriptor_save_leads hR _
  | error e =>
    rw [hstop.written_eq]
    refine (freeAll_agrees hloose _).bind_leads fun _ => ?_
    refine (addLeaf_agrees hloose _).bind_leads fun root => ?_
    exact (setDescriptor_agrees hloose _).bind_leads fun _ => leads_throw e

/-- A call that loads nothing is made alike in both trees. -/
theorem change_agrees {c : Call κ ν} (hc : c.isLoad = false) :
    Agrees (Mirrored R (K := K) (V := V)) (call c) (call c) := by
  cases c with
  | insert k v =>
    rw [call, call, insert, insert]
    refine agrees_bind_get fun t u htu => ?_
    rw [(htu.twin hR).encodeEntry_eq]
    exact (agrees_lift rfl).bind fun _ => update_agrees hR _ _
  | insertIfNew k v =>
    rw [call, call, insertIfNew, insertIfNew]
    refine agrees_bind_get fun t u htu => ?_
    rw [(htu.twin hR).encodeEntry_eq]
    exact (agrees_lift rfl).bind fun _ => update_agrees hR _ _
  | erase k =>
    rw [call, call, erase, erase]
    exact (agrees_lift rfl).bind fun _ => update_agrees hR _ _
  | truncate => exact (truncate_agrees hR).bind fun _ => agrees_pure _
  | load entries => cases hc

/-- What is done to a tree is done alike in both. -/
theorem run_agrees (c : TreeCall κ ν) :
    Agrees (Mirrored (fun _ => R none) (K := K) (V := V)) c.run c.run := by
  cases c with
  | save => exact (save_agrees hR.loose).bind fun _ => agrees_pure _
  | change c =>
    cases hload : c.isLoad with
    | false => exact change_agrees hR.loose hload
    | true =>
      cases c with
      | load entries =>
        exact ((load_leads hR.loose entries).agrees fun _ _ h => h).bind fun _ => agrees_pure _
      | _ => cases hload

/-- If it succeeds, the reserve tells the descriptor unless it is unsaved. -/
theorem run_mirrored (h : t.Mirrored R u) {c : TreeCall κ ν} {answer : Option ν}
    (hc : (c.run t).1 = .ok answer) : (c.run t).2.Mirrored R (c.run u).2 := by
  cases c with
  | save => exact ((save_agrees hR).bind fun _ => agrees_pure _) t u h |>.2
  | change c =>
    cases hload : c.isLoad with
    | false => exact (change_agrees hR hload t u h).2
    | true =>
      cases c with
      | load entries =>
        exact ((load_leads hR entries).bind_pure fun _ => none).of_ok (h.loose hR) hc
      | _ => cases hload

end Tree

end PagedMap
