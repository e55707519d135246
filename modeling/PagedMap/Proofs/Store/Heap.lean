/-
# What blocks a store holds

A heap tells the bytes of the allocated blocks. That it holds some cells beside
a rest means that the cells are blocks of the heap, no two the same, and that
without them the heap is the rest. What is done to the cells leaves the rest
alone, and cells can be set aside to become part of the rest for a while
(`Heap.holds_append`).

Key definitions: `Heap`, `Heap.Holds`.
Key theorems: `Heap.holds_append`, `Heap.Holds.perm`, `Heap.Holds.write`,
`Heap.Holds.allocate`.
-/
import Mathlib.Algebra.Order.Ring.Int
import Mathlib.Data.List.Perm.Basic
import Mathlib.Logic.Function.Basic
import PagedMap.Error

namespace PagedMap

/-- A block of a store: its pool, and its number there. -/
abbrev Spot := Pool × BlockNumber

/-- A block and its bytes. -/
abbrev Cell := Spot × Bytes

/-- The bytes of the allocated blocks. -/
abbrev Heap := Spot → Option Bytes

namespace Heap

/-- The heap holds the cells, and without them it is the rest. -/
def Holds (H : Heap) : List Cell → Heap → Prop
  | [], R => H = R
  | (q, b) :: cells, R => H q = some b ∧ Holds (Function.update H q none) cells R

variable {H R : Heap} {q : Spot} {b : Bytes} {cells others : List Cell}

@[simp]
theorem holds_nil : Holds H [] R ↔ H = R := Iff.rfl

theorem holds_cons :
    Holds H ((q, b) :: cells) R ↔ H q = some b ∧ Holds (Function.update H q none) cells R :=
  Iff.rfl

/-- Cells can be set aside. -/
theorem holds_append : ∀ {cells : List Cell} {H : Heap},
    Holds H (cells ++ others) R ↔ ∃ M, Holds H cells M ∧ Holds M others R
  | [], H => by simp
  | (q, b) :: cells, H => by
    rw [List.cons_append, holds_cons, holds_append]
    constructor
    · rintro ⟨hq, M, hM, hR⟩
      exact ⟨M, ⟨hq, hM⟩, hR⟩
    · rintro ⟨M, ⟨hq, hM⟩, hR⟩
      exact ⟨hq, M, hM, hR⟩

/-- The order of the cells is of no account. -/
theorem Holds.perm (h : Holds H cells R) (hp : cells.Perm others) : Holds H others R := by
  induction hp generalizing H with
  | nil => exact h
  | cons c _ ih => exact ⟨h.1, ih h.2⟩
  | swap c d cells =>
    obtain ⟨hd, hc, hrest⟩ := h
    have hne : c.1 ≠ d.1 := by
      intro heq
      rw [heq, Function.update_self] at hc
      cases hc
    rw [Function.update_of_ne hne] at hc
    refine ⟨hc, ?_, ?_⟩
    · rw [Function.update_of_ne hne.symm]
      exact hd
    · rw [Function.update_comm hne]
      exact hrest
  | trans _ _ ih₁ ih₂ => exact ih₂ (ih₁ h)

theorem Holds.get (h : Holds H cells R) (hmem : (q, b) ∈ cells) : H q = some b := by
  induction cells generalizing H with
  | nil => cases hmem
  | cons c cells ih =>
    rcases List.mem_cons.1 hmem with rfl | hmem
    · exact h.1
    · have hrest := ih h.2 hmem
      by_cases heq : q = c.1
      · rw [heq, Function.update_self] at hrest
        cases hrest
      · rwa [Function.update_of_ne heq] at hrest

/-- No two cells are the same block. -/
theorem Holds.nodup (h : Holds H cells R) : (cells.map Prod.fst).Nodup := by
  induction cells generalizing H with
  | nil => exact List.nodup_nil
  | cons c cells ih =>
    rw [List.map_cons, List.nodup_cons]
    refine ⟨fun hmem => ?_, ih h.2⟩
    obtain ⟨d, hd, heq⟩ := List.mem_map.1 hmem
    have := h.2.get (q := d.1) (b := d.2) hd
    rw [heq, Function.update_self] at this
    cases this

/-- The rest is the heap without the cells. -/
theorem Holds.rest_eq (h : Holds H cells R) (q : Spot) :
    R q = if q ∈ cells.map Prod.fst then none else H q := by
  induction cells generalizing H with
  | nil => rw [holds_nil.1 h]; simp
  | cons c cells ih =>
    rw [ih h.2]
    by_cases heq : q = c.1
    · subst heq
      simp
    · rw [Function.update_of_ne heq]
      simp only [List.map_cons, List.mem_cons, heq, false_or]

theorem Holds.write (h : Holds H ((q, b) :: cells) R) (b' : Bytes) :
    Holds (Function.update H q (some b')) ((q, b') :: cells) R :=
  ⟨Function.update_self .., by rw [Function.update_idem]; exact h.2⟩

/-- Writing one of the cells leaves the blocks and the rest as they are. -/
theorem Holds.write_mem (h : Holds H cells R) (hq : q ∈ cells.map Prod.fst) (b : Bytes) :
    ∃ cells', cells'.map Prod.fst = cells.map Prod.fst ∧
      Holds (Function.update H q (some b)) cells' R := by
  induction cells generalizing H with
  | nil => cases hq
  | cons c cells ih =>
    have hfirst := (List.nodup_cons.1 h.nodup).1
    rw [List.map_cons] at hq ⊢
    rcases List.mem_cons.1 hq with rfl | hq
    · exact ⟨_, rfl, Holds.write h b⟩
    · have hne : c.1 ≠ q := fun heq => hfirst (heq ▸ hq)
      obtain ⟨cells', hspots, hholds⟩ := ih h.2 hq
      refine ⟨c :: cells', by rw [List.map_cons, hspots], ?_, ?_⟩
      · rw [Function.update_of_ne hne]
        exact h.1
      · rwa [Function.update_comm hne.symm]

theorem Holds.allocate (h : Holds H cells R) (hq : H q = none) (b : Bytes) :
    Holds (Function.update H q (some b)) ((q, b) :: cells) R :=
  ⟨Function.update_self .., by rw [Function.update_idem, ← hq, Function.update_eq_self]; exact h⟩

end Heap

end PagedMap
