/-
# Stores that cut nothing off

A store cuts data that is longer than a block without a word. Its strict twin does the
same as the store where data fits, and faults where data would be cut off. It is lawful
if the store is; so what never faults in a strict store never cuts anything off.

Key definition: `Strict`.
Key theorems: `Strict.allocate_of_le`, `Strict.write_of_le`.
-/
import PagedMap.Proofs.Store.Lawful

namespace PagedMap

/-- A store that faults where data would be cut off. -/
structure Strict (σ : Type) where
  store : σ

namespace Strict

variable {σ α : Type}

/-- Does something with the store. -/
def onStore (act : Action σ α) : Action (Strict σ) α := fun s =>
  let (r, store) := act s.store
  (r, ⟨store⟩)

variable [Store σ]

/-- Does something with the store and data for a block, if the data fits. -/
def ifFits (kind : Pool) (data : Bytes) (act : Action σ α) : Action (Strict σ) α := fun s =>
  if data.length ≤ Store.blockSize s.store kind then onStore act s else (.error .fault, s)

instance : Store (Strict σ) where
  blockSize s := Store.blockSize s.store
  maxBlocks s := Store.maxBlocks s.store
  allocate kind data := ifFits kind data (Store.allocate kind data)
  read s := Store.read s.store
  write kind n data := ifFits kind data (Store.write kind n data)
  free kind n := onStore (Store.free kind n)
  isAllocated s := Store.isAllocated s.store
  allocatedCount s := Store.allocatedCount s.store
  reserveSize s := Store.reserveSize s.store
  reserve s := Store.reserve s.store
  setReserve data := onStore (Store.setReserve data)
  sync := onStore Store.sync

variable {s : Strict σ} {kind : Pool} {n : BlockNumber} {data : Bytes}

omit [Store σ] in
theorem onStore_eq {act : Action σ α} {r : Except Error α} {s' : σ} (h : act s.store = (r, s')) :
    onStore act s = (r, ⟨s'⟩) := by
  rw [onStore, h]

omit [Store σ] in
theorem onStore_ends {act : Action σ α} {E : Error → σ → Prop} {Q : α → σ → Prop}
    (h : Ends act s.store E Q) :
    Ends (onStore act) s (fun e s' => E e s'.store) fun a s' => Q a s'.store := by
  rw [Ends] at h
  rw [Ends, onStore]
  split at h
  · next hrun =>
    rw [hrun]
    exact h
  · next hrun =>
    rw [hrun]
    exact h

/-- Data that fits is allocated as in the store. -/
theorem allocate_of_le (h : data.length ≤ Store.blockSize s.store kind) :
    Store.allocate kind data s = onStore (Store.allocate kind data) s := if_pos h

/-- Data that fits is written as in the store. -/
theorem write_of_le (h : data.length ≤ Store.blockSize s.store kind) :
    Store.write kind n data s = onStore (Store.write kind n data) s := if_pos h

/-- The strict twin of a lawful store is lawful. -/
instance [LawfulStore σ] : LawfulStore (Strict σ) where
  Valid s := LawfulStore.Valid s.store
  shape s := LawfulStore.shape s.store
  heap s := LawfulStore.heap s.store
  reserved s := LawfulStore.reserved s.store
  shape_valid := LawfulStore.shape_valid
  blockSize_eq s := LawfulStore.blockSize_eq s.store
  reserveSize_eq s := LawfulStore.reserveSize_eq s.store
  reserve_eq := LawfulStore.reserve_eq
  length_reserved := LawfulStore.length_reserved
  isAllocated_eq := LawfulStore.isAllocated_eq
  read_eq := LawfulStore.read_eq
  write_ends h _ _ _ hlen hsome := by
    obtain ⟨s', hrun, hrest⟩ := LawfulStore.write_ends h hlen hsome
    rw [← LawfulStore.blockSize_eq] at hlen
    exact ⟨⟨s'⟩, (write_of_le hlen).trans (onStore_eq hrun), hrest⟩
  free_ends h _ _ := by
    refine (onStore_ends (LawfulStore.free_ends h)).imp_error ?_
    rintro e ⟨s'⟩ ⟨rfl, hnone⟩
    exact ⟨rfl, hnone⟩
  allocate_ends {s} h kind data hlen := by
    have hends := onStore_ends (LawfulStore.allocate_ends h hlen)
    rw [← LawfulStore.blockSize_eq] at hlen
    rw [Ends, allocate_of_le hlen]
    refine hends.imp_error ?_
    rintro e ⟨s'⟩ ⟨rfl, hfull⟩
    exact ⟨rfl, hfull⟩
  setReserve_ends h _ hlen := by
    obtain ⟨s', hrun, hrest⟩ := LawfulStore.setReserve_ends h hlen
    exact ⟨⟨s'⟩, onStore_eq hrun, hrest⟩
  sync_eq s := onStore_eq (LawfulStore.sync_eq s.store)

end Strict

end PagedMap
