/-
# A bitset is a set of numbers

Whatever bits of a bitset are set, cleared or claimed, one after the other, the bitset tells the
set of numbers that the same changes make: which bits are set, how many they are, and which clear
bit is the lowest (`Bitset.Holds.changed`). Of stored bytes just those are a bitset's that are as
many as its bits need and have no bit behind its end, and a bitset that is read from its own bytes
goes on like the one that wrote them (`Bitset.changes_tell`).

Key definitions: `Bitset.Change`, `Bitset.Change.onSet`, `Bitset.Holds`, `Bitset.Tells`.
Key theorems: `Bitset.Holds.change`, `Bitset.Holds.changed`, `Bitset.exists_ofBytes_iff`,
`Bitset.changes_tell`.
-/
import Mathlib.Data.Finset.Card
import PagedMap.Proofs.Store.Counts

namespace PagedMap

/-- Bit `i` of a byte string is bit `i % 8` of byte `i / 8`; behind the last byte no bit is set. -/
def Bytes.bit (bs : Bytes) (i : Nat) : Bool := (bs.getD (i / 8) 0).toNat.testBit (i % 8)

namespace Bitset

variable {s s' : Bitset} {S : Finset Nat} {bs : Bytes} {i max : Nat}

/-! ### Changes -/

/-- What is done to a bitset. -/
inductive Change where
  | set (i : Nat)
  | clear (i : Nat)
  /-- Sets the lowest clear bit, if there is one. -/
  | claim
  deriving Repr, DecidableEq

/-- The bit that is named is below a bound. -/
def Change.Below (max : Nat) : Change → Prop
  | set i => i < max
  | clear i => i < max
  | claim => True

instance (max : Nat) : DecidablePred (Change.Below max)
  | .set i => inferInstanceAs (Decidable (i < max))
  | .clear i => inferInstanceAs (Decidable (i < max))
  | .claim => inferInstanceAs (Decidable True)

/-- A bitset after a change. -/
def change (s : Bitset) : Change → Bitset
  | .set i => s.set i
  | .clear i => s.clear i
  | .claim =>
    match s.firstClear? with
    | some i => s.set i
    | none => s

/-- The lowest number below a bound that is not in a set. -/
def lowestBeside? (max : Nat) (S : Finset Nat) : Option Nat := (List.range max).find? (· ∉ S)

/-- A set of numbers after a change. -/
def Change.onSet (max : Nat) (S : Finset Nat) : Change → Finset Nat
  | set i => insert i S
  | clear i => S.erase i
  | claim =>
    match lowestBeside? max S with
    | some i => insert i S
    | none => S

/-- What a bitset tells of the set of numbers below a bound that it is to be. -/
structure Tells (s : Bitset) (max : Nat) (S : Finset Nat) : Prop where
  get_iff : ∀ i, s.get i = true ↔ i ∈ S
  count_eq : s.count = S.card
  firstClear?_iff : ∀ i, s.firstClear? = some i ↔ i < max ∧ i ∉ S ∧ ∀ j < i, j ∈ S
  full_iff : s.firstClear? = none ↔ s.count = max

/-! ### What every change keeps -/

/-- The bits of the bitset are the numbers of the set, they are counted, and the search for a clear
bit begins below all of them. -/
structure Holds (s : Bitset) (max : Nat) (S : Finset Nat) : Prop where
  max_eq : s.max = max
  valid : s.Valid
  counted : s.Counted
  get_iff : ∀ i, s.get i = true ↔ i ∈ S

namespace Holds

theorem get_eq_false_iff (h : s.Holds max S) (i : Nat) : s.get i = false ↔ i ∉ S := by
  rw [← h.get_iff, Bool.not_eq_true]

theorem lt_max (h : s.Holds max S) (hi : i ∈ S) : i < max := by
  rw [← h.max_eq]
  exact h.valid.lt_max i ((h.get_iff i).2 hi)

theorem count_eq (h : s.Holds max S) : s.count = S.card := by
  have hset : ((List.range max).filter s.get).toFinset = S := by
    ext i
    simp only [List.mem_toFinset, List.mem_filter, List.mem_range, h.get_iff]
    exact ⟨And.right, fun hi => ⟨h.lt_max hi, hi⟩⟩
  calc s.count = (List.range s.max).countP s.get := h.counted
    _ = ((List.range max).filter s.get).length := by rw [h.max_eq, List.countP_eq_length_filter]
    _ = ((List.range max).filter s.get).toFinset.card :=
      (List.toFinset_card_of_nodup (List.nodup_range.filter s.get)).symm
    _ = S.card := by rw [hset]

/-- The search finds the lowest number that is not in the set. -/
theorem firstClear?_iff (h : s.Holds max S) (i : Nat) :
    s.firstClear? = some i ↔ i < max ∧ i ∉ S ∧ ∀ j < i, j ∈ S := by
  have hspec := firstClear?_spec h.valid
  constructor
  · intro hfirst
    rw [hfirst] at hspec
    obtain ⟨hi, hclear, hset⟩ := hspec
    exact ⟨h.max_eq ▸ hi, (h.get_eq_false_iff i).1 hclear, fun j hj => (h.get_iff j).1 (hset j hj)⟩
  · rintro ⟨hi, hnot, hbelow⟩
    cases hfirst : s.firstClear? with
    | none =>
      rw [hfirst] at hspec
      exact absurd ((h.get_iff i).1 (hspec i (h.max_eq ▸ hi))) hnot
    | some j =>
      rw [hfirst] at hspec
      obtain ⟨-, hclear, hset⟩ := hspec
      rcases Nat.lt_trichotomy i j with hlt | rfl | hlt
      · exact absurd ((h.get_iff i).1 (hset i hlt)) hnot
      · rfl
      · exact absurd (hbelow j hlt) ((h.get_eq_false_iff j).1 hclear)

/-- No bit is clear if there are as many numbers in the set as there can be. -/
theorem full_iff (h : s.Holds max S) : s.firstClear? = none ↔ s.count = max := by
  have hsub : S ⊆ Finset.range max := fun i hi => Finset.mem_range.2 (h.lt_max hi)
  have hspec := firstClear?_spec h.valid
  rw [h.count_eq]
  constructor
  · intro hfirst
    rw [hfirst, h.max_eq] at hspec
    have hall : Finset.range max ⊆ S := fun i hi =>
      (h.get_iff i).1 (hspec i (Finset.mem_range.1 hi))
    rw [Finset.Subset.antisymm hsub hall, Finset.card_range]
  · intro hcard
    -- as many numbers below the bound as there are, so all of them
    have hall : S = Finset.range max :=
      Finset.eq_of_subset_of_card_le hsub (by rw [Finset.card_range, hcard])
    cases hfirst : s.firstClear? with
    | none => rfl
    | some i =>
      obtain ⟨hi, hnot, -⟩ := (h.firstClear?_iff i).1 hfirst
      rw [hall, Finset.mem_range] at hnot
      exact absurd hi hnot

theorem tells (h : s.Holds max S) : s.Tells max S :=
  ⟨h.get_iff, h.count_eq, h.firstClear?_iff, h.full_iff⟩

theorem set (h : s.Holds max S) (hi : i < max) : (s.set i).Holds max (insert i S) := by
  have hlt : i < s.max := by rwa [h.max_eq]
  refine ⟨(max_set s i).trans h.max_eq, h.valid.set hlt, h.counted.set hlt, fun j => ?_⟩
  rw [get_set, Bool.or_eq_true, decide_eq_true_iff, h.get_iff, Finset.mem_insert, or_comm]

theorem clear (h : s.Holds max S) (i : Nat) : (s.clear i).Holds max (S.erase i) := by
  refine ⟨(max_clear s i).trans h.max_eq, h.valid.clear i, h.counted.clear h.valid i, fun j => ?_⟩
  rw [get_clear, Bool.and_eq_true, Bool.not_eq_true', decide_eq_false_iff_not, h.get_iff,
    Finset.mem_erase, and_comm]

theorem lowestBeside?_eq (h : s.Holds max S) : lowestBeside? max S = s.firstClear? := by
  cases hfirst : s.firstClear? with
  | none =>
    have hspec := firstClear?_spec h.valid
    rw [hfirst, h.max_eq] at hspec
    refine List.find?_eq_none.2 fun i hi => ?_
    simpa using (h.get_iff i).1 (hspec i (List.mem_range.1 hi))
  | some i =>
    obtain ⟨hi, hnot, hbelow⟩ := (h.firstClear?_iff i).1 hfirst
    rw [lowestBeside?, List.find?_range_eq_some]
    exact ⟨by simpa using hnot, List.mem_range.2 hi, fun j hj => by simpa using hbelow j hj⟩

theorem claim (h : s.Holds max S) : (s.change .claim).Holds max (Change.claim.onSet max S) := by
  simp only [Bitset.change, Change.onSet, h.lowestBeside?_eq]
  cases hfirst : s.firstClear? with
  | none => exact h
  | some i => exact h.set ((h.firstClear?_iff i).1 hfirst).1

/-- A change does to the bits what it does to the set. -/
theorem change (h : s.Holds max S) {c : Change} (hc : c.Below max) :
    (s.change c).Holds max (c.onSet max S) := by
  cases c with
  | set i => exact h.set hc
  | clear i => exact h.clear i
  | claim => exact h.claim

/-- And so do any number of changes. -/
theorem changed {changes : List Change} (h : s.Holds max S) (hbelow : ∀ c ∈ changes, c.Below max) :
    (changes.foldl Bitset.change s).Holds max (changes.foldl (Change.onSet max) S) := by
  induction changes generalizing s S with
  | nil => exact h
  | cons c changes ih =>
    obtain ⟨hc, hrest⟩ := List.forall_mem_cons.1 hbelow
    exact ih (h.change hc) hrest

/-- A bitset that is read from the bytes of another has the same bits. -/
theorem reload (h : s.Holds max S) : ∃ s', ofBytes s.toBytes max = .ok s' ∧ s'.Holds max S := by
  obtain ⟨s', hread, hget⟩ := ofBytes_toBytes h.valid
  rw [h.max_eq] at hread
  obtain ⟨hmax, -, hvalid, hcounted⟩ := of_ofBytes hread
  exact ⟨s', hread, hmax, hvalid, hcounted, fun i => by rw [hget, h.get_iff]⟩

end Holds

/-- Bitsets that tell the same set answer the same. -/
theorem Tells.alike (h : s.Tells max S) (h' : s'.Tells max S) :
    (∀ i, s'.get i = s.get i) ∧ s'.count = s.count ∧ s'.firstClear? = s.firstClear? := by
  refine ⟨fun i => ?_, h'.count_eq.trans h.count_eq.symm, ?_⟩
  · rw [Bool.eq_iff_iff, h.get_iff, h'.get_iff]
  · apply Option.ext
    intro i
    rw [h.firstClear?_iff, h'.firstClear?_iff]

/-! ### Where a bitset begins -/

theorem holds_empty (max : Nat) : (empty max).Holds max ∅ :=
  ⟨rfl, valid_empty max, counted_empty max, fun i => by simp [get_empty]⟩

theorem get_eq_bit (h : s.Valid) (i : Nat) : s.get i = s.toBytes.bit i := by
  rw [get_eq_toBytes h, testBit_eq (Nat.mod_lt i (by decide)), Bytes.bit]

theorem holds_ofBytes (h : ofBytes bs max = .ok s) :
    s.Holds max {i ∈ Finset.range max | bs.bit i} := by
  obtain ⟨hmax, hbytes, hvalid, hcounted⟩ := of_ofBytes h
  refine ⟨hmax, hvalid, hcounted, fun i => ?_⟩
  have hget := get_eq_bit hvalid i
  rw [hbytes] at hget
  rw [Finset.mem_filter, Finset.mem_range, ← hget]
  exact ⟨fun hi => ⟨hmax ▸ hvalid.lt_max i hi, hi⟩, And.right⟩

/-- Bytes are a bitset's if they are as many as it needs and no bit behind its end is set. -/
theorem exists_ofBytes_iff : (∃ s, ofBytes bs max = .ok s) ↔
    bs.length = byteLength max ∧ ∀ i, max ≤ i → bs.bit i = false := by
  constructor
  · rintro ⟨s, h⟩
    obtain ⟨hmax, hbytes, hvalid, -⟩ := of_ofBytes h
    refine ⟨by rw [← hbytes, toBytes, Bytes.length_fit, hmax], fun i hi => ?_⟩
    rw [← hbytes, ← get_eq_bit hvalid, Bool.eq_false_iff]
    intro hset
    exact absurd (hvalid.lt_max i hset) (by omega)
  · rintro ⟨hlen, hclear⟩
    -- only the bits of the last byte that are behind the end are tested
    rw [ofBytes, if_neg (by simpa using hlen), if_neg]
    · exact ⟨_, rfl⟩
    · rw [Bool.not_eq_true, List.any_eq_false]
      intro i hi
      have hbit := hclear i (List.mem_range'_1.1 hi).1
      rw [Bytes.bit, ← testBit_eq (Nat.mod_lt i (by decide))] at hbit
      rw [Bool.not_eq_true]
      exact hbit

/-- **A bitset is a set of numbers.** Bytes are read as a bitset just if they are as many as it
needs and no bit behind its end is set. A bitset that begins without a bit, or with those of stored
bytes, tells after any changes the set of numbers that the same changes make of those it began
with; and read from its own bytes it answers the same, now and after any further changes. -/
theorem changes_tell (max : Nat) :
    (∀ bs, (∃ s, ofBytes bs max = .ok s) ↔
      bs.length = byteLength max ∧ ∀ i, max ≤ i → bs.bit i = false) ∧
    ∀ s S, (s = empty max ∧ S = ∅ ∨
        ∃ bs, ofBytes bs max = .ok s ∧ S = {i ∈ Finset.range max | bs.bit i}) →
      ∀ changes : List Change, (∀ c ∈ changes, c.Below max) →
        (changes.foldl change s).Tells max (changes.foldl (Change.onSet max) S) ∧
        ∃ s', ofBytes (changes.foldl change s).toBytes max = .ok s' ∧
          ∀ later : List Change, (∀ c ∈ later, c.Below max) →
            (∀ i, (later.foldl change s').get i =
              (later.foldl change (changes.foldl change s)).get i) ∧
            (later.foldl change s').count =
              (later.foldl change (changes.foldl change s)).count ∧
            (later.foldl change s').firstClear? =
              (later.foldl change (changes.foldl change s)).firstClear? := by
  refine ⟨fun bs => exists_ofBytes_iff, fun s S hstart changes hbelow => ?_⟩
  have hs : s.Holds max S := by
    rcases hstart with ⟨rfl, rfl⟩ | ⟨bs, hread, rfl⟩
    · exact holds_empty max
    · exact holds_ofBytes hread
  have hchanged := hs.changed hbelow
  obtain ⟨s', hread, hs'⟩ := hchanged.reload
  exact ⟨hchanged.tells, s', hread, fun later hlater =>
    (hchanged.changed hlater).tells.alike (hs'.changed hlater).tells⟩

/-- Twelve bits of which two are clear: the first claim gets the lower of them, the second one a
bit that was cleared between them, and when the other is set, too, there is none left. Read from its
bytes the bitset gives out the next bit that is cleared. -/
theorem changes_tell_full :
    let changes : List Change := [.claim, .clear 3, .claim, .set 11]
    ∃ s s', ofBytes [0xFF, 0x05] 12 = .ok s ∧ s.firstClear? = some 9 ∧
      (changes.foldl change s).count = 12 ∧ (changes.foldl change s).firstClear? = none ∧
      ofBytes (changes.foldl change s).toBytes 12 = .ok s' ∧
      (s'.change (.clear 8)).firstClear? = some 8 := by
  intro changes
  have hread : ofBytes [0xFF, 0x05] 12 = .ok ⟨[0xFF, 0x05], 12, 10, 0⟩ := by decide
  have hstart := (changes_tell 12).2 _ _ (.inr ⟨_, hread, rfl⟩)
  obtain ⟨hfirst, -⟩ := hstart [] (by decide)
  obtain ⟨hfull, s', hreload, hlater⟩ := hstart changes (by decide)
  obtain ⟨hcleared, -⟩ := hstart (changes ++ [.clear 8]) (by decide)
  obtain ⟨-, -, hnext⟩ := hlater [.clear 8] (by decide)
  have hcount := hfull.count_eq.trans (show _ = 12 by decide)
  rw [List.foldl_append] at hcleared
  exact ⟨_, s', hread, (hfirst.firstClear?_iff 9).2 (by decide), hcount, hfull.full_iff.2 hcount,
    hreload, hnext.trans ((hcleared.firstClear?_iff 8).2 (by decide))⟩

end Bitset

end PagedMap
