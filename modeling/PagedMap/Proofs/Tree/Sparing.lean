/-
# Changes that take no block

A store is spared if it is written to and blocks of it are freed, but none is
allocated. Only a block that has become too large is cut in two, which takes a
block and demands a separator of the parent. So writing back one that has not
spares the store and demands none (`Tree.writeBackLeaf_spares`,
`Tree.writeBackIndex_spares`), and without a new separator the parent has no more
of them than before (`Demand.length_apply_le`).

Key definitions: `Store.Sparing`, `Tree.Spares`, `Demand.isSplit`.
Key theorems: `Tree.writeBackLeaf_spares`, `Tree.writeBackIndex_spares`,
`Demand.length_apply_le`.
-/
import PagedMap.Proofs.Tree.Cells
import PagedMap.Tree.Update

namespace PagedMap

/-- The second store comes from the first by writing and freeing blocks. -/
inductive Store.Sparing {σ : Type} [Store σ] : σ → σ → Prop
  | refl (s : σ) : Sparing s s
  | write {s s' s'' : σ} (kind : Pool) (n : BlockNumber) (data : Bytes) : Sparing s s' →
      Store.write kind n data s' = (.ok (), s'') → Sparing s s''
  | free {s s' s'' : σ} (kind : Pool) (n : BlockNumber) : Sparing s s' →
      Store.free kind n s' = (.ok (), s'') → Sparing s s''

theorem Store.Sparing.trans {σ : Type} [Store σ] {s s' s'' : σ} (h : Sparing s s')
    (h' : Sparing s' s'') : Sparing s s'' := by
  induction h' with
  | refl => exact h
  | write kind n data _ hrun ih => exact ih.write kind n data hrun
  | free kind n _ hrun ih => exact ih.free kind n hrun

/-- Whether a new separator is demanded. -/
def Demand.isSplit : Demand → Bool
  | .split _ _ => true
  | _ => false

namespace Tree

variable {σ κ ν : Type} [Store σ] {K : OrderedCodec κ} {V : Codec ν}

/-- An action that succeeds spares the store, and gives an answer that `P` allows. -/
def Spares {α : Type} (act : Action (Tree σ K V) α) (P : α → Prop) : Prop :=
  ∀ t, Ends act t (fun _ _ => True) fun a t' => P a ∧ Store.Sparing t.store t'.store

/-! ### Rules -/

section Rules

variable {α β : Type} {P : α → Prop}

theorem spares_pure {a : α} (h : P a) : Spares (pure a : Action (Tree σ K V) α) P :=
  fun _ => ends_pure ⟨h, .refl _⟩

theorem spares_some {a : α} (h : P a) :
    Spares (pure (some a) : Action (Tree σ K V) (Option α)) fun a? => ∀ b ∈ a?, P b :=
  spares_pure fun _ hb => Option.some.inj hb ▸ h

theorem spares_none :
    Spares (pure none : Action (Tree σ K V) (Option α)) fun a? => ∀ b ∈ a?, P b :=
  spares_pure fun _ hb => by cases hb

theorem Spares.bind {act : Action (Tree σ K V) β} {f : β → Action (Tree σ K V) α} {R : β → Prop}
    (h : Spares act R) (hf : ∀ b, R b → Spares (f b) P) : Spares (act >>= f) P := by
  refine fun t => (h t).bind fun b t₁ hb => ?_
  exact (hf b hb.1 t₁).imp fun _ _ ha => ⟨ha.1, hb.2.trans ha.2⟩

/-- What is read or computed costs no block. -/
theorem spares_bind_get {f : Tree σ K V → Action (Tree σ K V) α} (h : ∀ t, Spares (f t) P) :
    Spares (get >>= f) P :=
  fun t => ends_bind_get (h t t)

theorem spares_bind_lift {x : Except Error β} {f : β → Action (Tree σ K V) α}
    (h : ∀ b, Spares (f b) P) : Spares (liftM x >>= f) P :=
  fun t => ends_bind_compute (fun _ => trivial) fun b => h b t

/-- An attempt that gives no answer has cost no block either. -/
theorem Spares.attempt {act : Action (Tree σ K V) (Option β)}
    {f : Option β → Action (Tree σ K V) α} {R : β → Prop} (h : Spares act fun b? => ∀ b ∈ b?, R b)
    (hsome : ∀ b, R b → Spares (f (some b)) P) (hnone : Spares (f none) P) :
    Spares (act >>= f) P := by
  refine h.bind fun b? hb => ?_
  cases b? with
  | none => exact hnone
  | some b => exact hsome b (hb b rfl)

theorem spares_findSomeM? {f : β → Action (Tree σ K V) (Option α)}
    (h : ∀ b, Spares (f b) fun a? => ∀ a ∈ a?, P a) :
    ∀ bs : List β, Spares (bs.findSomeM? f) fun a? => ∀ a ∈ a?, P a
  | [] => spares_none
  | b :: bs => (h b).attempt (fun _ ha => spares_some ha) (spares_findSomeM? h bs)

variable {kind : Pool} {n : BlockNumber}

theorem spares_write {data : Bytes} :
    Spares (onStore (Store.write kind n data) : Action (Tree σ K V) Unit) fun _ => True :=
  fun t => (ends_onStore (ends_run (Store.write kind n data) t.store)).mono (fun _ _ _ => trivial)
    fun _ _ hrun => ⟨trivial, .write kind n data (.refl _) hrun⟩

theorem spares_free :
    Spares (free kind n : Action (Tree σ K V) Unit) fun _ => True :=
  fun t => (ends_onStore (ends_run (Store.free kind n) t.store)).mono (fun _ _ _ => trivial)
    fun _ _ hrun => ⟨trivial, .free kind n (.refl _) hrun⟩

theorem spares_setDescriptor {d : Descriptor} :
    Spares (setDescriptor d : Action (Tree σ K V) Unit) fun _ => True :=
  fun _ => ends_modify ⟨trivial, .refl _⟩

end Rules

/-! ### Leaves -/

theorem tryShift_spares (accept : Leaf K V → Leaf K V → Bool) (p : Neighbours (Leaf K V)) :
    Spares (tryShift accept p : Action (Tree σ K V) (Option Demand)) fun d? =>
      ∀ d ∈ d?, d.isSplit = false := by
  simp only [tryShift]
  split
  · exact spares_bind_lift fun key => spares_write.bind fun _ _ =>
      spares_write.bind fun _ _ => spares_some rfl
  · exact spares_none

theorem tryMergeLeaves_spares (p : Neighbours (Leaf K V)) :
    Spares (tryMergeLeaves p : Action (Tree σ K V) (Option Demand)) fun d? =>
      ∀ d ∈ d?, d.isSplit = false := by
  rw [tryMergeLeaves]
  split
  · exact spares_bind_lift fun merged => spares_write.bind fun _ _ =>
      spares_free.bind fun _ _ => spares_some rfl
  · exact spares_none

theorem mendLeaf_spares (p : Parent K) (n : BlockNumber) (leaf : Leaf K V) :
    Spares (mendLeaf p n leaf : Action (Tree σ K V) Demand) fun d => d.isSplit = false := by
  rw [mendLeaf]
  refine spares_bind_get fun t => spares_bind_lift fun pairs => ?_
  refine (spares_findSomeM? (tryShift_spares _) pairs).attempt (fun _ hd => spares_pure hd) ?_
  refine (spares_findSomeM? tryMergeLeaves_spares pairs).attempt (fun _ hd => spares_pure hd) ?_
  refine (spares_findSomeM? (tryShift_spares _) pairs).attempt (fun _ hd => spares_pure hd) ?_
  exact spares_write.bind fun _ _ => spares_pure rfl

/-- A changed leaf that is not too large is written back without taking a block. -/
theorem writeBackLeaf_spares (parent? : Option (Parent K)) (n : BlockNumber) {leaf : Leaf K V}
    (hfits : leaf.isOverflowed = false) :
    Spares (writeBackLeaf parent? n leaf : Action (Tree σ K V) Demand) fun d =>
      d.isSplit = false := by
  unfold writeBackLeaf
  rw [if_neg (by rw [hfits]; exact Bool.false_ne_true)]
  cases parent? with
  | none => exact spares_write.bind fun _ _ => spares_pure rfl
  | some p =>
    dsimp only
    split
    · exact mendLeaf_spares p n leaf
    · exact spares_write.bind fun _ _ => spares_pure rfl

/-! ### Index blocks -/

theorem tryRotate_spares (parent : Index K) (accept : Index K → Index K → Bool)
    (p : Neighbours (Index K)) :
    Spares (tryRotate parent accept p : Action (Tree σ K V) (Option Demand)) fun d? =>
      ∀ d ∈ d?, d.isSplit = false := by
  rw [tryRotate]
  refine spares_bind_lift fun key => spares_bind_lift fun r => ?_
  split
  · exact spares_write.bind fun _ _ => spares_write.bind fun _ _ => spares_some rfl
  · exact spares_none

theorem tryMergeIndexes_spares (parent : Index K) (p : Neighbours (Index K)) :
    Spares (tryMergeIndexes parent p : Action (Tree σ K V) (Option Demand)) fun d? =>
      ∀ d ∈ d?, d.isSplit = false := by
  rw [tryMergeIndexes]
  refine spares_bind_lift fun key => ?_
  split
  · exact spares_bind_lift fun merged => spares_write.bind fun _ _ =>
      spares_free.bind fun _ _ => spares_some rfl
  · exact spares_none

theorem mendIndex_spares (p : Parent K) (n : BlockNumber) (node : Index K) :
    Spares (mendIndex p n node : Action (Tree σ K V) Demand) fun d => d.isSplit = false := by
  rw [mendIndex]
  refine spares_bind_get fun t => spares_bind_lift fun pairs => ?_
  refine (spares_findSomeM? (tryRotate_spares _ _) pairs).attempt (fun _ hd => spares_pure hd) ?_
  refine (spares_findSomeM? (tryMergeIndexes_spares _) pairs).attempt
    (fun _ hd => spares_pure hd) ?_
  refine (spares_findSomeM? (tryRotate_spares _ _) pairs).attempt (fun _ hd => spares_pure hd) ?_
  exact spares_write.bind fun _ _ => spares_pure rfl

theorem descendRoot_spares : ∀ levels : Nat,
    Spares (descendRoot levels : Action (Tree σ K V) Unit) fun _ => True
  | 0 => spares_pure trivial
  | levels + 1 => by
    rw [descendRoot]
    refine spares_bind_get fun t => spares_bind_lift fun root => ?_
    split
    · exact spares_free.bind fun _ _ => spares_setDescriptor.bind fun _ _ =>
        descendRoot_spares levels
    · exact spares_pure trivial

theorem lowerRoot_spares (n child : BlockNumber) :
    Spares (lowerRoot n child : Action (Tree σ K V) Unit) fun _ => True :=
  spares_free.bind fun _ _ => spares_bind_get fun _ => spares_setDescriptor.bind
    fun _ _ => descendRoot_spares _

/-- A changed index block that is not too large is written back without taking a block. -/
theorem writeBackIndex_spares (parent? : Option (Parent K)) (n : BlockNumber) {node : Index K}
    (hfits : node.isOverflowed = false) :
    Spares (writeBackIndex parent? n node : Action (Tree σ K V) Demand) fun d =>
      d.isSplit = false := by
  unfold writeBackIndex
  rw [if_neg (by rw [hfits]; exact Bool.false_ne_true)]
  cases parent? with
  | none =>
    dsimp only
    split
    · exact (lowerRoot_spares n node.last).bind fun _ _ => spares_pure rfl
    · exact spares_write.bind fun _ _ => spares_pure rfl
  | some p =>
    dsimp only
    split
    · exact mendIndex_spares p n node
    · exact spares_write.bind fun _ _ => spares_pure rfl

end Tree

/-! ### The parent -/

section Parent

variable {κ π : Type} {K : OrderedCodec κ} {P : Codec π}

theorem Block.length_of_removeAt {b b' : Block K P} {i : Nat} {e : Bytes}
    (h : b.removeAt i = .ok (e, b')) : b'.length + 1 = b.length := by
  obtain ⟨e', he, h⟩ := exists_of_bind_eq_ok h
  obtain ⟨-, rfl⟩ := Prod.mk.inj (Except.ok.inj h)
  have hi : i < b.entries.length := by
    rw [Block.entry] at he
    split at he
    · next hget => exact (List.getElem?_eq_some_iff.1 hget).1
    · cases he
  exact List.length_eraseIdx_add_one hi

theorem Block.length_insertIdx_le (b : Block K P) (i : Nat) (e : Bytes) :
    (b.insertIdx i e).length ≤ b.length + 1 := by
  rw [Block.length, Block.insertIdx, Block.length]
  exact List.length_insertIdx_le_succ ..

theorem Index.length_overwriteEnd : ∀ (es : List Bytes) (word : Bytes),
    (overwriteEnd word es).length = es.length
  | [], _ => rfl
  | e :: es, word => by
    rw [overwriteEnd]
    split
    · rfl
    · exact congrArg Nat.succ (length_overwriteEnd es _)

theorem Index.length_of_setChild {b b' : Index K} {i : Nat} {n : BlockNumber}
    (h : setChild b i n = .ok b') : b'.length = b.length := by
  rw [setChild] at h
  split at h
  · obtain rfl := Except.ok.inj h
    rw [Block.length, List.length_append, List.length_reverse, length_overwriteEnd,
      List.length_reverse, ← List.length_append, List.take_append_drop, Block.length]
  · split at h
    · obtain rfl := Except.ok.inj h
      rfl
    · cases h

/-- If no new separator is demanded there are no more of them afterwards. -/
theorem Demand.length_apply_le {node node' : Index K} {position : Nat} {d : Demand}
    (h : d.apply node position = .ok node') (hd : d.isSplit = false) :
    node'.length ≤ node.length := by
  cases d with
  | nothing => exact Nat.le_of_eq (congrArg Block.length (Except.ok.inj h).symm)
  | split key right => cases hd
  | replace i key =>
    obtain ⟨left, -, h⟩ := exists_of_bind_eq_ok h
    obtain ⟨⟨e, b⟩, hremove, h⟩ := exists_of_bind_eq_ok h
    obtain rfl := Except.ok.inj h
    exact Nat.le_trans (b.length_insertIdx_le ..) (Nat.le_of_eq (Block.length_of_removeAt hremove))
  | remove i =>
    obtain ⟨⟨n, b⟩, hseparator, h⟩ := exists_of_bind_eq_ok h
    obtain rfl := Except.ok.inj h
    obtain ⟨left, -, h⟩ := exists_of_bind_eq_ok hseparator
    obtain ⟨right, -, h⟩ := exists_of_bind_eq_ok h
    obtain ⟨⟨e, b'⟩, hremove, h⟩ := exists_of_bind_eq_ok h
    obtain ⟨b'', hset, h⟩ := exists_of_bind_eq_ok h
    obtain ⟨-, rfl⟩ := Prod.mk.inj (Except.ok.inj h)
    have := Block.length_of_removeAt hremove
    rw [Index.length_of_setChild hset]
    omega

end Parent

end PagedMap
