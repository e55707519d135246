/-
# Calls

A tree that was opened in a store is changed by calls. Each call, if it succeeds,
changes the items that the tree stores in a way that depends on nothing else
(`Regime.call_ends`), and one that changes what a key has and fails leaves some of
the items that it should have made (`Regime.update_call_ends`). So what is true of
the items when the tree is opened and stays true in every call is true of every
tree that is reachable.

Key definitions: `Call`, `Tree.call`, `Tree.Reachable`, `Tree.session`, `Call.Outcome`,
`Regime.Stores`, `Regime.Leaves`.
Key theorems: `Regime.insert_ends`, `Regime.erase_ends`, `Regime.update_call_ends`,
`Regime.call_ends`.
-/
import PagedMap.Proofs.Tree.Loaded
import PagedMap.Proofs.Tree.Update

namespace PagedMap

/-- What is done to a tree. -/
inductive Call (κ ν : Type) where
  | insert (key : κ) (value : ν)
  | insertIfNew (key : κ) (value : ν)
  | erase (key : κ)
  | truncate
  | load (entries : List (κ × ν))

/-- Whether the call loads entries. -/
def Call.isLoad {κ ν : Type} : Call κ ν → Bool
  | .load _ => true
  | _ => false

/-- Whether the call changes what one key has. -/
def Call.isUpdate {κ ν : Type} : Call κ ν → Bool
  | .insert _ _ | .insertIfNew _ _ | .erase _ => true
  | _ => false

namespace Tree

variable {σ κ ν : Type} [Store σ] {K : OrderedCodec κ} {V : Codec ν}

/-- Makes a call. Truncating and loading answer nothing. -/
def call : Call κ ν → Action (Tree σ K V) (Option ν)
  | .insert key value => insert key value
  | .insertIfNew key value => insertIfNew key value
  | .erase key => erase key
  | .truncate => do
    truncate
    return none
  | .load entries => do
    load entries
    return none

/-- The trees that come from opening a tree in a store and from calls that succeed. -/
inductive Reachable (K : OrderedCodec κ) (V : Codec ν) (s : σ) : Tree σ K V → Prop
  | opened {t : Tree σ K V} {s' : σ} : ofStore K V s = (.ok t, s') → Reachable K V s t
  | called {t t' : Tree σ K V} {answer : Option ν} (c : Call κ ν) : Reachable K V s t →
      call c t = (.ok answer, t') → Reachable K V s t'

/-- Opens a tree in a store and makes the calls, all of which must succeed. -/
def session (K : OrderedCodec κ) (V : Codec ν) (s : σ) (calls : List (Call κ ν)) :
    Except Error (List (Option ν) × Tree σ K V) :=
  match ofStore K V s with
  | (.error e, _) => .error e
  | (.ok t, _) =>
    match calls.mapM call t with
    | (.error e, _) => .error e
    | (.ok answers, t') => .ok (answers, t')

theorem session_ok {s : σ} {calls : List (Call κ ν)} {answers : List (Option ν)} {t : Tree σ K V}
    (h : session K V s calls = .ok (answers, t)) :
    ∃ t₀ s', ofStore K V s = (.ok t₀, s') ∧ calls.mapM call t₀ = (.ok answers, t) := by
  rw [session] at h
  split at h
  · cases h
  · next t₀ s' hopen =>
    refine ⟨t₀, s', hopen, ?_⟩
    split at h
    · cases h
    · next hrun =>
      obtain ⟨rfl, rfl⟩ := Prod.mk.inj (Except.ok.inj h)
      exact hrun

/-- Every call of a list leads to a reachable tree. -/
theorem Reachable.calls {s : σ} : ∀ {calls : List (Call κ ν)} {t : Tree σ K V},
    Reachable K V s t → Ends (calls.mapM call) t (fun _ _ => True) fun _ t' => Reachable K V s t'
  | [], _, h => ends_pure h
  | c :: calls, t, h => by
    rw [List.mapM_cons]
    have hcall : Ends (call c) t (fun _ _ => True) fun _ t' => Reachable K V s t' := by
      rw [Ends]
      split
      · next hrun => exact h.called c hrun
      · trivial
    exact hcall.bind fun _ _ h' => (Reachable.calls h').bind fun _ _ h'' => ends_pure h''

/-- The tree of a session is reachable. -/
theorem reachable_of_session {s : σ} {calls : List (Call κ ν)} {answers : List (Option ν)}
    {t : Tree σ K V} (h : session K V s calls = .ok (answers, t)) : Reachable K V s t := by
  obtain ⟨t₀, s', hopen, hrun⟩ := session_ok h
  exact (Reachable.opened hopen).calls.of_ok hrun

end Tree

section Outcome

variable {κ ν : Type} [LinearOrder κ]

/-- What a call makes of the items, and what it answers. -/
def Call.Outcome (items : List (κ × ν)) (answer : Option ν) (items' : List (κ × ν)) :
    Call κ ν → Prop
  | .insert key value => Alters key answer (some value) items items'
  | .insertIfNew key value => Alters key answer (answer.or (some value)) items items'
  | .erase key => Alters key answer none items items'
  | .truncate => answer = none ∧ items' = []
  | .load entries => answer = none ∧ items = [] ∧ items' = entries

end Outcome

/-- The keys and values of a call can be encoded. -/
def Call.Writable {κ ν : Type} (K : OrderedCodec κ) (V : Codec ν) : Call κ ν → Prop
  | .insert key value => K.Writes key ∧ V.Writes value
  | .insertIfNew key value => K.Writes key ∧ V.Writes value
  | .erase key => K.Writes key
  | .truncate => True
  | .load entries => ∀ i ∈ entries, K.Writes i.1 ∧ V.Writes i.2

/-- The error is that a pool is full, or that the arguments or the tree are not as the call
needs them. -/
def IsRefusal (e : Error) : Prop := IsOutOfSpace e ∨ IsInvalidArgument e ∨ IsInvalidState e

namespace Regime

variable {σ κ ν : Type} [Store σ] [LawfulStore σ] [LinearOrder κ] {K : OrderedCodec κ}
  {V : Codec ν} {g : Regime K V} {R : Heap} {t : Tree σ K V} {items : List (κ × ν)} {k : κ} {v : ν}

/-- The tree stores the items beside a rest, and tells their number. -/
structure Stores (g : Regime K V) (items : List (κ × ν)) (R : Heap) (t : Tree σ K V) : Prop where
  holding : g.Holding items R t
  size_eq : t.descriptor.size = items.length

theorem Stores.length_eq (h : g.Stores items R t) : t.length = items.length := by
  rw [Tree.length, Descriptor.length, h.size_eq]
  simp

theorem Stores.ascending (h : g.Stores items R t) : Ascending items := by
  obtain ⟨level, x, hrooted, rfl⟩ := h.holding
  exact hrooted.sound.fair.ascending

variable [K.Lawful] [V.Lawful]

theorem update_stores {edit : Leaf K V → Except Error (LeafEdit K V (Option ν))}
    {f : Option ν → Option ν} (hedit : g.Edits edit k f) (hw : K.Writes k)
    (h : g.Stores items R t) :
    Ends (Tree.update (K.bytes k) edit) t (g.Spoiled k f items t) fun o t' =>
      ∃ items', Alters k o (f o) items items' ∧ g.Stores items' R t' := by
  refine (update_ends hedit hw h.holding).imp ?_
  rintro o t' ⟨items', halters, hholding, hsize, -⟩
  refine ⟨items', halters, hholding, ?_⟩
  rw [hsize, h.size_eq]
  omega

/-- An entry within the limits is put in unless a pool is full. -/
theorem insert_ends (h : g.Stores items R t) (hfits : g.FitsItem (k, v)) :
    Ends (Tree.insert k v) t (g.Spoiled k (fun _ => some v) items t) fun o t' =>
      ∃ items', Alters k o (some v) items items' ∧ g.Stores items' R t' := by
  rw [Tree.insert]
  exact ends_bind_get (ends_bind_lift (encodeEntry_eq h.holding.on hfits)
    (update_stores (edits_insert hfits) hfits.writes.1 h))

theorem insertIfNew_ends (h : g.Stores items R t) (hfits : g.FitsItem (k, v)) :
    Ends (Tree.insertIfNew k v) t (g.Spoiled k (fun o => o.or (some v)) items t) fun o t' =>
      ∃ items', Alters k o (o.or (some v)) items items' ∧ g.Stores items' R t' := by
  rw [Tree.insertIfNew]
  exact ends_bind_get (ends_bind_lift (encodeEntry_eq h.holding.on hfits)
    (update_stores (edits_insertIfNew hfits) hfits.writes.1 h))

/-- A key that can be encoded is taken out unless a pool is full. -/
theorem erase_ends (h : g.Stores items R t) (hw : K.Writes k) :
    Ends (Tree.erase k) t (g.Spoiled k (fun _ => none) items t) fun o t' =>
      ∃ items', Alters k o none items items' ∧ g.Stores items' R t' := by
  rw [Tree.erase]
  exact ends_bind_lift hw (update_stores (edits_erase hw) hw h)

/-- What is left of the items that a call should make of others, in a tree that tells
their number. -/
def Leaves (g : Regime K V) (c : Call κ ν) (items : List (κ × ν)) (e : Error) (t' : Tree σ K V) :
    Prop :=
  ∃ o items', c.Outcome items o items' ∧ Ascending items' ∧ g.Misses items' e t' ∧
    t'.descriptor.size = items'.length

omit [K.Lawful] [V.Lawful] in
theorem Leaves.isOutOfSpace {c : Call κ ν} {e : Error} {t' : Tree σ K V}
    (h : g.Leaves c items e t') : IsOutOfSpace e := by
  obtain ⟨o, items', -, -, hmisses, -⟩ := h
  exact hmisses.isOutOfSpace

omit [K.Lawful] [V.Lawful] in
theorem Spoiled.leaves {c : Call κ ν} {f : Option ν → Option ν} {e : Error} {t' : Tree σ K V}
    (h : g.Stores items R t) (hs : g.Spoiled k f items t e t')
    (hc : ∀ o items', Alters k o (f o) items items' → c.Outcome items o items') :
    g.Leaves c items e t' := by
  obtain ⟨o, items', halters, hmisses, hsize⟩ := hs
  refine ⟨o, items', hc o items' halters, halters.ascending h.ascending, hmisses, ?_⟩
  rw [hsize, h.size_eq]
  omega

omit [LinearOrder κ] [K.Lawful] [V.Lawful] in
theorem refusal_of_encodeEntry (h : g.On t) {e : Error} (he : t.encodeEntry k v = .error e)
    (hk : K.Writes k) (hv : V.Writes v) : IsRefusal e := by
  obtain hinvalid | he | he := encodeEntry_error h he
  · exact .inr (.inl hinvalid)
  · exact (Codec.not_writes_of_error he hk).elim
  · exact (Codec.not_writes_of_error he hv).elim

/-- A call that changes what one key has is refused for its key or value and changes
nothing; or it changes the items as it should, or leaves some of them. -/
theorem update_call_ends {c : Call κ ν} (h : g.Stores items R t) (hc : c.isUpdate = true) :
    Ends (Tree.call c) t
      (fun e t' => t' = t ∧ (c.Writable K V → IsRefusal e) ∨ g.Leaves c items e t')
      fun o t' => ∃ items', c.Outcome items o items' ∧ g.Stores items' R t' := by
  cases c with
  | insert k v =>
    cases hencode : t.encodeEntry k v with
    | error e =>
      rw [Tree.call, Tree.insert]
      refine ends_bind_get ?_
      rw [hencode]
      exact .inl ⟨rfl, fun hw => refusal_of_encodeEntry h.holding.on hencode hw.1 hw.2⟩
    | ok b =>
      obtain ⟨hfits, -⟩ := encodeEntry_ok h.holding.on hencode
      exact (insert_ends h hfits).imp_error fun e t' hs => .inr (hs.leaves h fun _ _ ha => ha)
  | insertIfNew k v =>
    cases hencode : t.encodeEntry k v with
    | error e =>
      rw [Tree.call, Tree.insertIfNew]
      refine ends_bind_get ?_
      rw [hencode]
      exact .inl ⟨rfl, fun hw => refusal_of_encodeEntry h.holding.on hencode hw.1 hw.2⟩
    | ok b =>
      obtain ⟨hfits, -⟩ := encodeEntry_ok h.holding.on hencode
      exact (insertIfNew_ends h hfits).imp_error fun e t' hs =>
        .inr (hs.leaves h fun _ _ ha => ha)
  | erase k =>
    cases hencode : K.encode k with
    | error e =>
      rw [Tree.call, Tree.erase, hencode]
      exact .inl ⟨rfl, fun hw => (Codec.not_writes_of_error hencode hw).elim⟩
    | ok b =>
      exact (erase_ends h (Codec.writes_of_encode hencode)).imp_error fun e t' hs =>
        .inr (hs.leaves h fun _ _ ha => ha)
  | truncate => cases hc
  | load entries => cases hc

/-- A call that succeeds changes the items as it should; if its keys and values can be
encoded it fails for one of three reasons. Only loading may leave blocks nearly empty. -/
theorem call_ends_of {c : Call κ ν} (hdense : c.isLoad = true → g.isDense = false)
    (h : g.Stores items R t) :
    Ends (Tree.call c) t (fun e _ => c.Writable K V → IsRefusal e) fun o t' =>
      ∃ items', c.Outcome items o items' ∧ g.Stores items' R t' := by
  have hrefused : ∀ e t', (t' = t ∧ (c.Writable K V → IsRefusal e) ∨ g.Leaves c items e t') →
      c.Writable K V → IsRefusal e := by
    rintro e t' (⟨-, hrefusal⟩ | hleaves) hw
    · exact hrefusal hw
    · exact .inl hleaves.isOutOfSpace
  cases c with
  | insert k v => exact (update_call_ends h rfl).imp_error hrefused
  | insertIfNew k v => exact (update_call_ends h rfl).imp_error hrefused
  | erase k => exact (update_call_ends h rfl).imp_error hrefused
  | truncate =>
    refine ((truncate_ends h.holding).imp_error (fun _ _ he _ => .inl he)).bind ?_
    rintro - t' ⟨hholding, hsize⟩
    exact ends_pure ⟨[], ⟨rfl, rfl⟩, hholding, hsize⟩
  | load entries =>
    refine ((load_ends (hdense rfl) h.holding).imp_error ?_).bind ?_
    · rintro e - (⟨rfl, -⟩ | ⟨rfl, -⟩ | hspace | hinvalid | ⟨i, hi, he⟩) hw
      · exact .inr (.inr trivial)
      · exact .inr (.inr trivial)
      · exact .inl hspace
      · exact .inr (.inl hinvalid.1)
      · exact (he.elim (Codec.not_writes_of_error · (hw i hi).1)
          (Codec.not_writes_of_error · (hw i hi).2)).elim
    · rintro - t' ⟨hempty, hholding, hsize⟩
      refine ends_pure ⟨entries, ⟨rfl, ?_, rfl⟩, hholding, hsize⟩
      rw [h.size_eq] at hempty
      exact List.eq_nil_of_length_eq_zero (Int.ofNat.inj hempty)

theorem call_ends (hdense : g.isDense = false) (h : g.Stores items R t) (c : Call κ ν) :
    Ends (Tree.call c) t (fun e _ => c.Writable K V → IsRefusal e) fun o t' =>
      ∃ items', c.Outcome items o items' ∧ g.Stores items' R t' :=
  call_ends_of (fun _ => hdense) h

end Regime

end PagedMap
