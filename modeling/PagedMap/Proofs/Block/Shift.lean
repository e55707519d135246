/-
# Evening out two blocks

Entries cross the border between two neighbours one by one, out of the fuller one, as long as the
next of them is shorter than the gap between the sizes. An entry that has crossed is no shorter than
the gap the other way, so it does not go back (`Block.Moves.same_way`): the entries of a run all go
one way, there are no more of them than the fuller block has, and the limit of a run is never what
ends it (`Block.shiftWithin_settles`). Nor is it the lack of room, since a block that takes an entry
stays smaller than the one that gives it (`Block.shiftOne?_of_moves`).

In the end the next entry would not narrow the gap (`Block.shift_evens`), so that the neighbours
differ by no more than the longest entry (`Block.shift_ofItems`).

Key definitions: `Block.Crosses`, `Block.Moves`, `Block.Settles`, `Block.Balanced`.
Key theorems: `Block.shift_settles`, `Block.shift_ofItems`, `Block.shift_evens`.
-/
import PagedMap.Proofs.Block.Cut
import PagedMap.Proofs.Codec.Kinds
import PagedMap.Tree.Balance

namespace PagedMap.Block

variable {κ π : Type} {K : OrderedCodec κ} {P : Codec π} {capacity : Nat} {lowers lowers' : Bool}
  {e : Bytes} {r r' r'' : Shifted K P}

/-- No more than so many bytes differ. -/
def Balanced (limit m n : Nat) : Prop := m ≤ n + limit ∧ n ≤ m + limit

/-- Balanced blocks that do not fit into one both fill more than a third of the
room. -/
theorem Balanced.large {room limit m n : Nat} (h : Balanced limit m n) (hthird : 3 * limit ≤ room)
    (hover : room < m + n) : room < 3 * m ∧ room < 3 * n := by
  obtain ⟨h₁, h₂⟩ := h
  omega

/-! ### An entry crosses the border -/

namespace Shifted

/-- The block that gives an entry to the lower block, or to the upper one. -/
def source : Bool → Shifted K P → Block K P
  | true, r => r.upper
  | false, r => r.lower

/-- The block that takes the entry. -/
def target : Bool → Shifted K P → Block K P
  | true, r => r.lower
  | false, r => r.upper

/-- The bytes by which the sizes of the blocks differ. -/
def gap (r : Shifted K P) : Nat := Block.gap r.lower.occupied r.upper.occupied

/-- The entries of both blocks. -/
def joined (r : Shifted K P) : List Bytes := r.lower.entries ++ r.upper.entries

/-- The blocks have this capacity and are within it. -/
structure Within (capacity : Nat) (r : Shifted K P) : Prop where
  lower_capacity : r.lower.capacity = capacity
  upper_capacity : r.upper.capacity = capacity
  lower_le : r.lower.occupied ≤ capacity
  upper_le : r.upper.occupied ≤ capacity

/-- Only the border between the entries is another. -/
structure Keeps (r r' : Shifted K P) : Prop where
  joined_eq : r'.joined = r.joined
  lower_eq : r'.lower = { r.lower with entries := r'.lower.entries }
  upper_eq : r'.upper = { r.upper with entries := r'.upper.entries }

theorem Keeps.refl (r : Shifted K P) : r.Keeps r := ⟨rfl, rfl, rfl⟩

theorem Keeps.trans (h : r.Keeps r') (h' : r'.Keeps r'') : r.Keeps r'' where
  joined_eq := h'.joined_eq.trans h.joined_eq
  lower_eq := h'.lower_eq.trans (by rw [h.lower_eq])
  upper_eq := h'.upper_eq.trans (by rw [h.upper_eq])

theorem gap_eq (lowers : Bool) (r : Shifted K P) :
    r.gap = Block.gap (r.target lowers).occupied (r.source lowers).occupied := by
  cases lowers
  · exact Nat.add_comm ..
  · rfl

end Shifted

open Shifted

/-- An entry crosses the border: the first of the upper block comes to the end of the lower one, or
the last of the lower block before all of the upper one. -/
inductive Crosses : Bool → Bytes → Shifted K P → Shifted K P → Prop
  | down {r : Shifted K P} {e : Bytes} {es : List Bytes} : r.upper.entries = e :: es →
    Crosses true e r ⟨{ r.lower with entries := r.lower.entries ++ [e] },
      { r.upper with entries := es }, r.moved + 1⟩
  | up {r : Shifted K P} {e : Bytes} {es : List Bytes} : r.lower.entries = es ++ [e] →
    Crosses false e r ⟨{ r.lower with entries := es },
      { r.upper with entries := e :: r.upper.entries }, r.moved + 1⟩

theorem Crosses.keeps (h : Crosses lowers e r r') : r.Keeps r' := by
  cases h with
  | down hupper => exact ⟨by simp [joined, hupper], rfl, rfl⟩
  | up hlower => exact ⟨by simp [joined, hlower], rfl, rfl⟩

theorem Crosses.mem (h : Crosses lowers e r r') : e ∈ r.joined := by
  cases h with
  | down hupper => simp [joined, hupper]
  | up hlower => simp [joined, hlower]

theorem Crosses.moved_eq (h : Crosses lowers e r r') : r'.moved = r.moved + 1 := by
  cases h <;> rfl

theorem Crosses.occupied (h : Crosses lowers e r r') :
    (r'.target lowers).occupied = (r.target lowers).occupied + e.length ∧
      (r.source lowers).occupied = (r'.source lowers).occupied + e.length := by
  cases h with
  | down hupper =>
    simp only [target, source, Block.occupied, entryBytes, hupper, mass_append, mass_cons, mass_nil]
    omega
  | up hlower =>
    simp only [target, source, Block.occupied, entryBytes, hlower, mass_append, mass_cons, mass_nil]
    omega

theorem Crosses.length (h : Crosses lowers e r r') :
    (r'.target lowers).length = (r.target lowers).length + 1 ∧
      (r.source lowers).length = (r'.source lowers).length + 1 := by
  cases h with
  | down hupper => simp [target, source, Block.length, hupper]
  | up hlower => simp [target, source, Block.length, hlower]

/-- Out of a block with entries one can cross. -/
theorem exists_crosses (lowers : Bool) (h : 0 < (r.source lowers).entryBytes) :
    ∃ e r', Crosses lowers e r r' := by
  cases lowers with
  | false =>
    obtain hlower | ⟨es, e, hlower⟩ := List.eq_nil_or_concat' r.lower.entries
    · rw [source, entryBytes, hlower] at h
      cases h
    · exact ⟨e, _, .up hlower⟩
  | true =>
    cases hupper : r.upper.entries with
    | nil =>
      rw [source, entryBytes, hupper] at h
      cases h
    | cons e es => exact ⟨e, _, .down hupper⟩

/-! ### An entry moves -/

/-- An entry moves: it crosses the border out of a block that is larger by more than its length. -/
def Moves (lowers : Bool) (r r' : Shifted K P) : Prop :=
  ∃ e, Crosses lowers e r r' ∧ (r.target lowers).occupied + e.length < (r.source lowers).occupied

/-- No entry moves. -/
def Shifted.Stuck (r : Shifted K P) : Prop := ∀ lowers r', ¬ Moves lowers r r'

theorem Moves.keeps (h : Moves lowers r r') : r.Keeps r' := by
  obtain ⟨e, hcross, -⟩ := h
  exact hcross.keeps

theorem Moves.moved_eq (h : Moves lowers r r') : r'.moved = r.moved + 1 := by
  obtain ⟨e, hcross, -⟩ := h
  exact hcross.moved_eq

theorem Moves.length (h : Moves lowers r r') :
    (r'.target lowers).length = (r.target lowers).length + 1 ∧
      (r.source lowers).length = (r'.source lowers).length + 1 := by
  obtain ⟨e, hcross, -⟩ := h
  exact hcross.length

theorem Moves.within (h : Moves lowers r r') (hr : r.Within capacity) : r'.Within capacity := by
  have hkeeps := h.keeps
  obtain ⟨e, hcross, hlt⟩ := h
  obtain ⟨htarget, hsource⟩ := hcross.occupied
  have hlower_capacity := congrArg Block.capacity hkeeps.lower_eq
  have hupper_capacity := congrArg Block.capacity hkeeps.upper_eq
  have hlower := hr.lower_le
  have hupper := hr.upper_le
  -- what takes the entry stays smaller than what gave it, which was within the capacity
  refine ⟨hlower_capacity.trans hr.lower_capacity, hupper_capacity.trans hr.upper_capacity, ?_, ?_⟩
  all_goals
    cases lowers <;> simp only [target, source] at hlt htarget hsource <;> omega

/-- An entry that is not empty narrows the gap when it moves. -/
theorem Moves.gap_lt (h : Moves lowers r r') (hentries : ∀ e ∈ r.joined, e ≠ []) :
    r'.gap < r.gap := by
  obtain ⟨e, hcross, hlt⟩ := h
  obtain ⟨htarget, hsource⟩ := hcross.occupied
  have hpos := List.length_pos_of_ne_nil (hentries e hcross.mem)
  rw [gap_eq lowers r, gap_eq lowers r', Block.gap, Block.gap]
  omega

/-- What moves comes out of the larger block. -/
theorem Moves.lowers_eq (h : Moves lowers r r') :
    lowers = decide (r.lower.occupied < r.upper.occupied) := by
  obtain ⟨e, -, hlt⟩ := h
  cases lowers with
  | false => exact (decide_eq_false (by simp only [target, source] at hlt; omega)).symm
  | true => exact (decide_eq_true (by simp only [target, source] at hlt; omega)).symm

/-- What has moved does not go back: it would be next, and it is no shorter than the gap. -/
theorem Moves.same_way (h : Moves lowers r r') (h' : Moves lowers' r' r'') : lowers' = lowers := by
  obtain ⟨e, hcross, hlt⟩ := h
  obtain ⟨f, hback, hlt'⟩ := h'
  obtain ⟨htarget, hsource⟩ := hcross.occupied
  cases hcross with
  | down hupper =>
    cases hback with
    | down => rfl
    | up hlower =>
      -- the entry that would go up is the one that has come down
      obtain ⟨-, hlast⟩ := List.append_inj' hlower rfl
      obtain rfl : e = f := List.head_eq_of_cons_eq hlast
      simp only [target, source] at hlt hlt' htarget hsource
      omega
  | up hlower =>
    cases hback with
    | up => rfl
    | down hupper =>
      obtain rfl : e = f := List.head_eq_of_cons_eq hupper
      simp only [target, source] at hlt hlt' htarget hsource
      omega

/-- Where no entry moves, the next entry reaches over the gap. -/
theorem Shifted.Stuck.source_le (hstuck : r.Stuck) (h : Crosses lowers e r r') :
    (r.source lowers).occupied ≤ (r.target lowers).occupied + e.length :=
  Nat.le_of_not_lt fun hlt => hstuck lowers r' ⟨e, h, hlt⟩

/-- Where no entry moves, none that crosses narrows the gap, and the next out of the fuller block is
as long as the gap at least. -/
theorem Shifted.Stuck.gap_le (hstuck : r.Stuck) (h : Crosses lowers e r r') :
    r.gap ≤ r'.gap ∧
      ((r.target lowers).occupied ≤ (r.source lowers).occupied → r.gap ≤ e.length) := by
  have hle := hstuck.source_le h
  obtain ⟨htarget, hsource⟩ := h.occupied
  rw [gap_eq lowers r, gap_eq lowers r', Block.gap, Block.gap]
  omega

/-- Where no entry moves the blocks are balanced. -/
theorem Shifted.Stuck.balanced {limit : Nat} (hstuck : r.Stuck)
    (hlimit : ∀ e ∈ r.joined, e.length ≤ limit) :
    Balanced limit r.lower.entryBytes r.upper.entryBytes := by
  have hside (lowers : Bool) :
      (r.source lowers).entryBytes ≤ (r.target lowers).entryBytes + limit := by
    by_cases hpos : 0 < (r.source lowers).entryBytes
    · obtain ⟨e, r', hcross⟩ := exists_crosses lowers hpos
      have hle := hstuck.source_le hcross
      have hlength := hlimit e hcross.mem
      rw [Block.occupied, Block.occupied] at hle
      omega
    · omega
  exact ⟨hside false, hside true⟩

/-! ### What is tried and what moves -/

/-- What moves fits: the block that takes it stays smaller than the one that gave it. -/
theorem shiftOne?_of_moves (hr : r.Within capacity) (h : Moves lowers r r') :
    shiftOne? r.lower r.upper = some (r'.lower, r'.upper) := by
  obtain ⟨e, hcross, hlt⟩ := h
  have hlower := hr.lower_le
  have hupper := hr.upper_le
  cases hcross with
  | down hentries =>
    simp only [target, source] at hlt
    have hfits : r.lower.fits e = true :=
      decide_eq_true (by rw [hr.lower_capacity]; omega)
    rw [shiftOne?, if_pos (by omega)]
    simp only [hentries, hfits, Bool.and_true]
    rw [if_pos (decide_eq_true (by omega))]
  | up hentries =>
    simp only [target, source] at hlt
    have hfits : r.upper.fits e = true :=
      decide_eq_true (by rw [hr.upper_capacity]; omega)
    rw [shiftOne?, if_neg (by omega), if_pos (by omega)]
    simp only [hentries, List.getLast?_concat, List.dropLast_concat, hfits, Bool.and_true]
    rw [if_pos (decide_eq_true (by omega))]

theorem shiftOne?_of_stuck (hstuck : r.Stuck) : shiftOne? r.lower r.upper = none := by
  rw [shiftOne?]
  split
  · cases hupper : r.upper.entries with
    | nil => rfl
    | cons e es =>
      have hle : r.upper.occupied ≤ r.lower.occupied + e.length := hstuck.source_le (.down hupper)
      simp only
      rw [decide_eq_false (by omega), Bool.false_and, if_neg Bool.false_ne_true]
  split
  · obtain hlower | ⟨es, e, hlower⟩ := List.eq_nil_or_concat' r.lower.entries
    · rw [hlower]
      rfl
    · have hle : r.lower.occupied ≤ r.upper.occupied + e.length := hstuck.source_le (.up hlower)
      rw [hlower, List.getLast?_concat]
      simp only
      rw [decide_eq_false (by omega), Bool.false_and, if_neg Bool.false_ne_true]
  · rfl

/-! ### Entries move one after the other -/

/-- Entries move one by one, without a limit and all one way, until none moves. Whether one is moved
is at no point a matter of the room. -/
inductive Settles (lowers : Bool) : Shifted K P → Shifted K P → Prop
  | stop {r : Shifted K P} : shiftOne? r.lower r.upper = none → r.Stuck → Settles lowers r r
  | move {r r' r'' : Shifted K P} : shiftOne? r.lower r.upper = some (r'.lower, r'.upper) →
    Moves lowers r r' → Settles lowers r' r'' → Settles lowers r r''

theorem Settles.stuck (h : Settles lowers r r') : r'.Stuck := by
  induction h with
  | stop _ hstuck => exact hstuck
  | move _ _ _ ih => exact ih

theorem Settles.keeps (h : Settles lowers r r') : r.Keeps r' := by
  induction h with
  | stop => exact .refl _
  | move _ hmoves _ ih => exact hmoves.keeps.trans ih

theorem Settles.within (h : Settles lowers r r') (hr : r.Within capacity) : r'.Within capacity := by
  induction h with
  | stop => exact hr
  | move _ hmoves _ ih => exact ih (hmoves.within hr)

/-- The moves are counted. -/
theorem Settles.length (h : Settles lowers r r') :
    r.moved ≤ r'.moved ∧
      (r'.target lowers).length + r.moved = (r.target lowers).length + r'.moved := by
  induction h with
  | stop => exact ⟨Nat.le_refl _, rfl⟩
  | move _ hmoves _ ih =>
    have hmoved := hmoves.moved_eq
    have hlength := hmoves.length.1
    omega

/-- As many entries as have moved are on the other side of the border. -/
theorem Settles.moved_eq (h : Settles lowers r r') (hzero : r.moved = 0) :
    r'.moved = Block.gap r.lower.length r'.lower.length := by
  have hmoved := h.length.2
  have htotal := congrArg List.length h.keeps.joined_eq
  rw [joined, joined, List.length_append, List.length_append] at htotal
  change r'.lower.length + r'.upper.length = r.lower.length + r.upper.length at htotal
  rw [Block.gap]
  cases lowers with
  | false =>
    simp only [target] at hmoved
    omega
  | true =>
    simp only [target] at hmoved
    omega

theorem Settles.eq_of_moved_eq (h : Settles lowers r r') (hmoved : r'.moved = r.moved) :
    r' = r := by
  cases h with
  | stop => rfl
  | move _ hmoves hrest =>
    have hone := hmoves.moved_eq
    have hle := hrest.length.1
    omega

/-- A run narrows the gap if an entry moves in it. -/
theorem Settles.gap (h : Settles lowers r r') (hentries : ∀ e ∈ r.joined, e ≠ []) :
    r'.gap ≤ r.gap ∧ (r'.gap < r.gap ↔ r.moved < r'.moved) := by
  induction h with
  | stop => simp
  | move _ hmoves hrest ih =>
    have hless := hmoves.gap_lt hentries
    have hmoved := hmoves.moved_eq
    have hle := hrest.length.1
    obtain ⟨hgap, -⟩ := ih (by rw [hmoves.keeps.joined_eq]; exact hentries)
    omega

/-- A run ends in one way only. -/
theorem Settles.unique (h : Settles lowers r r') (h' : Settles lowers' r r'') : r'' = r' := by
  induction h with
  | stop hnone =>
    cases h' with
    | stop => rfl
    | move hsome => cases hnone.symm.trans hsome
  | @move r s _ hsome hmoves _ ih =>
    cases h' with
    | stop hnone => cases hnone.symm.trans hsome
    | @move _ s' _ hsome' hmoves' hrest =>
      obtain ⟨hlower, hupper⟩ := Prod.mk.inj (Option.some.inj (hsome.symm.trans hsome'))
      have hmoved : s.moved = s'.moved := hmoves.moved_eq.trans hmoves'.moved_eq.symm
      obtain rfl : s = s' := by
        change (⟨s.lower, s.upper, s.moved⟩ : Shifted K P) = ⟨s'.lower, s'.upper, s'.moved⟩
        rw [hlower, hupper, hmoved]
      exact ih hrest

/-- If entries move one way only, there are no more moves than entries in the block that gives
them, and a limit that covers these is not what ends the run. -/
theorem shiftWithin_settles : ∀ {limit : Nat} {r : Shifted K P}, r.Within capacity →
    (∀ lowers' r', Moves lowers' r r' → lowers' = lowers) → (r.source lowers).length ≤ limit →
    Settles lowers r (shiftWithin r.moved limit r.lower r.upper)
  | limit, r, hr, hway, hlimit => by
    by_cases hstuck : r.Stuck
    · have hnone := shiftOne?_of_stuck hstuck
      have hrun : shiftWithin r.moved limit r.lower r.upper = r := by
        cases limit with
        | zero => rfl
        | succ limit => rw [shiftWithin, hnone]
      rw [hrun]
      exact .stop hnone hstuck
    · obtain ⟨lowers', r', hany⟩ : ∃ lowers r', Moves lowers r r' := by
        simpa only [Stuck, not_forall, not_not] using hstuck
      have hmoves : Moves lowers r r' := hway lowers' r' hany ▸ hany
      have hlength := hmoves.length.2
      cases limit with
      | zero => omega
      | succ limit =>
        have hsome := shiftOne?_of_moves hr hmoves
        have hrest := shiftWithin_settles (hmoves.within hr) (fun _ _ => hmoves.same_way)
          (show (r'.source lowers).length ≤ limit by omega)
        rw [shiftWithin, hsome]
        rw [hmoves.moved_eq] at hrest
        exact .move hsome hmoves hrest

/-- All entries that move come out of the block that is larger at first, whatever the limit is, if it
covers them. -/
theorem shift_settles {lower upper : Block K P} {limit : Nat}
    (hr : Within capacity ⟨lower, upper, 0⟩) (hlimit : lower.length + upper.length ≤ limit) :
    Settles (lower.occupied < upper.occupied) ⟨lower, upper, 0⟩
      (shiftWithin 0 limit lower upper) := by
  refine shiftWithin_settles hr (fun _ _ hmoves => hmoves.lowers_eq) ?_
  cases decide (lower.occupied < upper.occupied) <;> simp only [source] <;> omega

/-- `shift` gives the end of a run. -/
theorem exists_shift {lower upper : Block K P} (hr : Within capacity ⟨lower, upper, 0⟩) :
    ∃ r, shift lower upper = r ∧
      Settles (lower.occupied < upper.occupied) ⟨lower, upper, 0⟩ r :=
  ⟨_, rfl, shift_settles hr (Nat.le_refl _)⟩

/-! ### Blocks that are evened out -/

/-- Two blocks are evened out until they are balanced; nothing is lost. -/
theorem shift_ofItems {room limit : Nat} {xs ys : List (κ × π)} {last last' : BlockNumber}
    (hroom : capacity = 8 + room)
    (hlimit : ∀ i ∈ xs ++ ys, (record K P i).length ≤ limit) (hxs : bytesOf K P xs ≤ room)
    (hys : bytesOf K P ys ≤ room) :
    ∃ xs' ys' n, xs' ++ ys' = xs ++ ys ∧
      shift (ofItems K P capacity xs last) (ofItems K P capacity ys last') =
        ⟨ofItems K P capacity xs' last, ofItems K P capacity ys' last', n⟩ ∧
      bytesOf K P xs' ≤ room ∧ bytesOf K P ys' ≤ room ∧
      Balanced limit (bytesOf K P xs') (bytesOf K P ys') ∧ (n = 0 → xs' = xs ∧ ys' = ys) := by
  have hr : Within capacity
      (⟨ofItems K P capacity xs last, ofItems K P capacity ys last', 0⟩ : Shifted K P) :=
    ⟨rfl, rfl, by rw [occupied_ofItems]; omega, by rw [occupied_ofItems]; omega⟩
  obtain ⟨r, hrun, hsettles⟩ := exists_shift hr
  have hkeeps := hsettles.keeps
  have hwithin := hsettles.within hr
  have hjoined : r.joined = (xs ++ ys).map (record K P) := by
    rw [hkeeps.joined_eq, List.map_append]
    rfl
  obtain ⟨xs', ys', hcat, hxs', hys'⟩ := List.map_eq_append_iff.1 hjoined.symm
  have hlower : r.lower = ofItems K P capacity xs' last := by
    rw [hkeeps.lower_eq, ← hxs']
    rfl
  have hupper : r.upper = ofItems K P capacity ys' last' := by
    rw [hkeeps.upper_eq, ← hys']
    rfl
  have hlower_le := hwithin.lower_le
  have hupper_le := hwithin.upper_le
  have hbalanced := hsettles.stuck.balanced (by rwa [hjoined, List.forall_mem_map])
  rw [hlower, occupied_ofItems] at hlower_le
  rw [hupper, occupied_ofItems] at hupper_le
  rw [hlower, hupper, entryBytes_ofItems, entryBytes_ofItems] at hbalanced
  refine ⟨xs', ys', r.moved, hcat.symm, ?_, by omega, by omega, hbalanced, fun hzero => ?_⟩
  · rw [hrun, ← hlower, ← hupper]
  · -- nothing has moved, and the border is where it was
    obtain rfl := hsettles.eq_of_moved_eq hzero
    have hlength := congrArg Block.length hlower
    rw [length_ofItems, length_ofItems] at hlength
    exact List.append_inj hcat.symm hlength.symm

/-- **Entries move until none narrows the gap**, all out of the block that was larger, and no limit
or lack of room ends it. The entries of both blocks in sequence stay what they were, and neither
block becomes larger than its capacity. The gap is narrower if and only if entries have moved. In
the end the next entry of the larger block is as long as the gap at least, so that it would not
narrow it. -/
theorem shift_evens {lower upper : Leaf K P} (hcapacity : lower.capacity = upper.capacity)
    (hlower : lower.occupied ≤ lower.capacity) (hupper : upper.occupied ≤ upper.capacity)
    (hentries : ∀ e ∈ lower.entries ++ upper.entries, e ≠ []) :
    ∃ r, shift lower upper = r ∧
      (∀ limit, lower.length + upper.length ≤ limit → shiftWithin 0 limit lower upper = r) ∧
      Settles (lower.occupied < upper.occupied) ⟨lower, upper, 0⟩ r ∧
      r.lower.entries ++ r.upper.entries = lower.entries ++ upper.entries ∧
      (r.lower.capacity = lower.capacity ∧ r.lower.occupied ≤ lower.capacity) ∧
      (r.upper.capacity = upper.capacity ∧ r.upper.occupied ≤ upper.capacity) ∧
      r.gap ≤ gap lower.occupied upper.occupied ∧
      (r.gap < gap lower.occupied upper.occupied ↔ 0 < r.moved) ∧
      r.moved = gap lower.length r.lower.length ∧
      ∀ lowers e r', Crosses lowers e r r' → r.gap ≤ r'.gap ∧
        ((r.target lowers).occupied ≤ (r.source lowers).occupied → r.gap ≤ e.length) := by
  have hr : Within lower.capacity ⟨lower, upper, 0⟩ :=
    ⟨rfl, hcapacity.symm, hlower, hcapacity ▸ hupper⟩
  obtain ⟨r, hrun, hsettles⟩ := exists_shift hr
  have hwithin := hsettles.within hr
  have hjoined := hsettles.keeps.joined_eq
  obtain ⟨hgap, hnarrows⟩ := hsettles.gap hentries
  exact ⟨r, hrun, fun limit hlimit => hsettles.unique (shift_settles hr hlimit), hsettles, hjoined,
    ⟨hwithin.lower_capacity, hwithin.lower_le⟩,
    ⟨hwithin.upper_capacity.trans hcapacity, hcapacity ▸ hwithin.upper_le⟩, hgap, hnarrows,
    hsettles.moved_eq rfl, fun _ _ _ hcross => hsettles.stuck.gap_le hcross⟩

/-- The second entry that moves makes the lower block the larger one; it does not go back. -/
theorem shift_evens_beyond :
    let K := KeyKind.byteString.codec
    let lower : Leaf K word32.toCodec := ofItems K _ 64 [([97], 1)] noBlock
    let upper : Leaf K word32.toCodec := ofItems K _ 64
      [([98], 2), ([99, 99, 99, 99, 99], 3), ([100, 100, 100, 100], 4), ([101], 5)] noBlock
    ∃ r, shift lower upper = r ∧ r.moved = 2 ∧
      upper.occupied = lower.occupied + 34 ∧ r.lower.occupied = r.upper.occupied + 10 ∧
      Settles true ⟨lower, upper, 0⟩ r := by
  intro K lower upper
  have hcapacity : lower.capacity = upper.capacity := rfl
  obtain ⟨r, hrun, -, hsettles, -⟩ := shift_evens hcapacity (by decide) (by decide) (by decide)
  refine ⟨r, hrun, ?_⟩
  obtain rfl := hrun
  exact ⟨by decide, by decide, by decide, hsettles⟩

end PagedMap.Block
