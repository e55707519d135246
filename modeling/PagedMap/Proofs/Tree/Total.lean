/-
# Which calls fail

On a tree that is reachable from a new store, looking a key up never fails, and changing
the tree fails only for want of space or, for an entry beyond the limits, before anything
has changed (`Tree.Serves`). This is so in a store that faults where data would be cut
off, too: hence no block is ever written with more bytes than it has room for
(`Tree.reachable_serves`).

Key definitions: `Tree.TooLong`, `Tree.Serves`.
Key theorems: `Regime.Stores.serves`, `Tree.reachable_serves`.
-/
import PagedMap.Proofs.Codec.Kinds
import PagedMap.Proofs.Store.Strict
import PagedMap.Proofs.Tree.Fresh
import PagedMap.Proofs.Tree.Lookup

namespace PagedMap

namespace Tree

variable {σ κ ν : Type} [Store σ] {K : OrderedCodec κ} {V : Codec ν}

/-- The entry is longer than a third of what a leaf has room for, or the key is longer
than a key may be. -/
def TooLong (t : Tree σ K V) (k : κ) (v : ν) : Prop :=
  (Store.blockSize t.store .leaf - 8) / 3 < (K.bytes k ++ V.bytes v).length ∨
    t.maxKeySize < (K.bytes k).length

/-- How the calls for a key and a value end. -/
structure Serves (t : Tree σ K V) (k : κ) (v : ν) : Prop where
  get?_ok : ∃ o, t.get? k = .ok o
  contains_ok : ∃ b, t.contains k = .ok b
  erase_ends : Ends (erase k) t (fun e _ => IsOutOfSpace e) fun _ _ => True
  refused : t.TooLong k v → ∃ e, IsInvalidArgument e ∧ insert k v t = (.error e, t) ∧
    insertIfNew k v t = (.error e, t)
  insert_ends : ¬ t.TooLong k v → Ends (insert k v) t (fun e _ => IsOutOfSpace e) fun _ _ => True
  insertIfNew_ends : ¬ t.TooLong k v →
    Ends (insertIfNew k v) t (fun e _ => IsOutOfSpace e) fun _ _ => True

end Tree

namespace Regime

variable {σ κ ν : Type} [Store σ] [LawfulStore σ] [LinearOrder κ] {K : OrderedCodec κ}
  {V : Codec ν} {g : Regime K V} {R : Heap} {t : Tree σ K V} {items : List (κ × ν)} {k : κ} {v : ν}

omit [LinearOrder κ] in
theorem fitsItem_iff (h : g.On t) (hk : K.Writes k) (hv : V.Writes v) :
    g.FitsItem (k, v) ↔ ¬ t.TooLong k v := by
  have hkey := maxKeySize_eq h
  have hentry : (Store.blockSize t.store .leaf - 8) / 3 = g.third 0 := maxEntrySize_eq h
  rw [Tree.TooLong, hkey, hentry, not_or, Nat.not_lt, Nat.not_lt]
  exact ⟨fun hfits => ⟨hfits.length_le, hfits.width_le⟩, fun hle => ⟨⟨hk, hv⟩, hle.1, hle.2⟩⟩

variable [K.Lawful] [V.Lawful]

/-- A tree that stores items serves every key and value that can be encoded. -/
theorem Stores.serves (h : g.Stores items R t) (hk : K.Writes k) (hv : V.Writes v) :
    t.Serves k v := by
  have hon := h.holding.on
  have hfits := fitsItem_iff (v := v) hon hk hv
  obtain ⟨o, -, hget, -, hcontains⟩ := lookup_run h.holding hk
  refine ⟨⟨o, hget⟩, ⟨o.isSome, hcontains⟩,
    (erase_ends h hk).mono (fun _ _ he => he.isOutOfSpace) fun _ _ _ => trivial,
    fun hlong => ?_, fun hshort => ?_, fun hshort => ?_⟩
  · obtain ⟨e, hencode, he⟩ := encodeEntry_refused hon ⟨hk, hv⟩ fun hfit => hfits.1 hfit hlong
    refine ⟨e, he, ?_, ?_⟩
    · rw [Tree.insert, bind_eq, get_eq]
      simp only [hencode]
      rfl
    · rw [Tree.insertIfNew, bind_eq, get_eq]
      simp only [hencode]
      rfl
  · exact (insert_ends h (hfits.2 hshort)).mono (fun _ _ he => he.isOutOfSpace) fun _ _ _ => trivial
  · exact (insertIfNew_ends h (hfits.2 hshort)).mono (fun _ _ he => he.isOutOfSpace)
      fun _ _ _ => trivial

end Regime

namespace Tree

variable {κ ν : Type} [LinearOrder κ] {K : OrderedCodec κ} {V : Codec ν} [K.Lawful] [V.Lawful]

/-- A tree that is reachable from a new store serves every key and value that can be
encoded. So does a tree in the strict twin of the store, where no call faults. -/
theorem reachable_serves {o : Options} {s : Device} (hs : Device.Fresh o s) :
    (∀ t : Tree Device K V, Reachable K V s t →
      ∀ k v, K.Writes k → V.Writes v → t.Serves k v) ∧
    (∃ t : Tree (Strict Device) K V, Reachable K V ⟨s⟩ t) ∧
    ∀ t : Tree (Strict Device) K V, Reachable K V ⟨s⟩ t →
      (∀ k v, K.Writes k → V.Writes v → t.Serves k v) ∧
      ∀ c : Call κ ν, c.Writable K V → Ends (call c) t (fun e _ => IsRefusal e) fun _ _ => True := by
  have hblank := hs.blank
  have hvalid : LawfulStore.Valid (⟨s⟩ : Strict Device) := hblank.valid
  have hreserve : IsBlank (⟨s⟩ : Strict Device) := hblank.isBlank
  refine ⟨fun t ht k v hk hv => ?_, ?_, fun t ht => ?_⟩
  · obtain ⟨items, hstores⟩ := hblank.stores ht
    exact hstores.serves hk hv
  · obtain ⟨t, s', hopen⟩ := Regime.exists_ofStore K V (n := 0) hvalid hreserve
      hblank.maxBlocks_pos (congrFun hblank.heap_eq _)
    exact ⟨t, .opened hopen⟩
  · obtain ⟨items, hstores⟩ := Regime.reachable_stores hvalid hreserve ht
    refine ⟨fun k v hk hv => hstores.serves hk hv, fun c hc => ?_⟩
    exact (Regime.call_ends rfl hstores c).mono (fun _ _ he => he hc) fun _ _ _ => trivial

/-- A key of one byte, which is written in five, is longer than the small store allows. -/
theorem reachable_serves_small : ∃ t : Tree Device byteString word32.toCodec,
    Reachable byteString word32.toCodec Device.small t ∧ t.maxKeySize = 4 ∧
      (∃ o, t.get? [] = .ok o) ∧ ∃ e, IsInvalidArgument e ∧ insert [1] 5 t = (.error e, t) := by
  obtain ⟨⟨answers, t⟩, hrun, hlimit⟩ := exists_ok_of_toOption (f := fun r => r.2.maxKeySize)
    (x := session byteString word32.toCodec Device.small [.insert [] 5]) (b := 4)
    (by decide +kernel)
  have ht := reachable_of_session hrun
  have hserves := (reachable_serves (K := KeyKind.byteString.codec)
    (V := (ValueKind.key .word32).codec) Device.small_fresh).1 t ht
  have hmax : t.maxKeySize = 4 := hlimit
  have hlong : t.TooLong [1] 5 := .inr (by rw [hmax]; decide)
  obtain ⟨e, he, hinsert, -⟩ := (hserves [1] (5 : UInt32) rfl rfl).refused hlong
  exact ⟨t, ht, hmax, (hserves [] (5 : UInt32) rfl rfl).get?_ok, e, he, hinsert⟩

end Tree

end PagedMap
