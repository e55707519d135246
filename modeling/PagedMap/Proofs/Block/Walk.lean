/-
# Walks that take entries out

Whoever walks over a block with a cursor asks for the next entry or has the one visited last
taken out, in any order (`Cursor.Move`). At every moment the entries of the block are those
before what is still to visit, those still to visit, and those after (`Cursor.Parted`). A visit
moves an entry from the middle to the side the cursor comes from, and a removal takes it away
from there; only on the side before does that move the middle.

So a walk visits what the bounds admit, each entry once, whatever is taken out on the way, and
leaves the entries that were not taken out (`Block.walk_ofItems`).

Key definitions: `Cursor.Move`, `Cursor.Answer`, `Cursor.run`, `Cursor.Parted`.
Key theorems: `Cursor.Parted.next`, `Cursor.Parted.remove`, `Cursor.Parted.run`,
`Block.walk_ofItems`.
-/
import Mathlib.Data.List.Induction
import Mathlib.Data.List.Nodup
import PagedMap.Proofs.Block.Cursor
import PagedMap.Proofs.Codec.Kinds

namespace PagedMap

theorem map_inOrder {α β : Type} (descending : Bool) (f : α → β) (xs : List α) :
    (inOrder descending xs).map f = inOrder descending (xs.map f) := by
  cases descending <;> simp [inOrder]

namespace Cursor

/-- What is asked of a cursor. -/
inductive Move where
  | next
  | remove
  deriving Repr, DecidableEq

/-- What comes of it. -/
inductive Answer where
  | visited (entry : Bytes)
  | ended
  | removed (entry : Bytes)
  | refused (error : Error)
  deriving Repr, DecidableEq

namespace Answer

@[simp]
def visited? : Answer → Option Bytes
  | visited e => some e
  | ended | removed _ | refused _ => none

@[simp]
def removed? : Answer → Option Bytes
  | removed e => some e
  | visited _ | ended | refused _ => none

end Answer

variable {κ π : Type} {K : OrderedCodec κ} {P : Codec π}

/-- One step of a walk over a block. -/
def perform : Move → Cursor × Block K P → Answer × (Cursor × Block K P)
  | .next, (c, b) =>
    match c.next with
    | (none, c) => (.ended, (c, b))
    | (some i, c) =>
      match b.entry i with
      | .ok e => (.visited e, (c, b))
      | .error e => (.refused e, (c, b))
  | .remove, s =>
    match removeCurrent s with
    | (.ok e, s) => (.removed e, s)
    | (.error e, s) => (.refused e, s)

/-- A walk over a block. -/
def run : List Move → Cursor × Block K P → List Answer × (Cursor × Block K P)
  | [], s => ([], s)
  | m :: moves, s =>
    let (a, s) := perform m s
    let (answers, s) := run moves s
    (a :: answers, s)

theorem run_concat (m : Move) : ∀ (moves : List Move) (s : Cursor × Block K P),
    run (moves ++ [m]) s =
      ((run moves s).1 ++ [(perform m (run moves s).2).1], (perform m (run moves s).2).2)
  | [], _ => rfl
  | m' :: moves, s => by
    simp only [List.cons_append, run, run_concat m moves]

/-! ### Single steps -/

variable {c : Cursor} {b : Block K P} {e : Bytes} {i : Nat}

theorem perform_ended (h : c.stop ≤ c.start) :
    perform .next (c, b) = (.ended, ({ c with current? := none }, b)) := by
  rw [perform, next, if_neg (Nat.not_lt.2 h)]

theorem perform_ascending (h : c.start < c.stop) (hc : c.descending = false)
    (he : b.entries[c.start]? = some e) : perform .next (c, b) =
      (.visited e, ({ c with start := c.start + 1, current? := some c.start }, b)) := by
  have hentry : b.entry c.start = .ok e := by rw [Block.entry, he]
  rw [perform, next, if_pos h, hc, if_neg Bool.false_ne_true]
  dsimp only
  rw [hentry]

theorem perform_descending (h : c.start < c.stop) (hc : c.descending = true)
    (he : b.entries[c.stop - 1]? = some e) : perform .next (c, b) =
      (.visited e, ({ c with stop := c.stop - 1, current? := some (c.stop - 1) }, b)) := by
  have hentry : b.entry (c.stop - 1) = .ok e := by rw [Block.entry, he]
  rw [perform, next, if_pos h, hc, if_pos rfl]
  dsimp only
  rw [hentry]

theorem removeCurrent_none (h : c.current? = none) :
    removeCurrent (c, b) = (.error (.invalidState .noCurrentEntry), (c, b)) := by
  obtain ⟨start, stop, descending, current?, isCut⟩ := c
  obtain rfl : current? = none := h
  rfl

theorem removeCurrent_some {es fs : List Bytes} (h : c.current? = some es.length)
    (he : b.entries = es ++ e :: fs) :
    removeCurrent (c, b) = (.ok e,
      ({ c with
          current? := none
          start := c.start - (if c.descending then 0 else 1)
          stop := c.stop - (if c.descending then 0 else 1) },
        { b with entries := es ++ fs })) := by
  obtain ⟨start, stop, descending, current?, isCut⟩ := c
  obtain ⟨capacity, entries, last⟩ := b
  obtain rfl : current? = some es.length := h
  obtain rfl : entries = es ++ e :: fs := he
  have hlt : es.length < Block.length (K := K) (P := P) ⟨capacity, es ++ e :: fs, last⟩ := by
    simp [Block.length]
  have hremove : Block.removeAt (K := K) (P := P) ⟨capacity, es ++ e :: fs, last⟩ es.length =
      .ok (e, ⟨capacity, es ++ fs, last⟩) := by
    rw [Block.removeAt, Block.entry, List.getElem?_append_right (Nat.le_refl _), Nat.sub_self,
      Block.eraseIdx_length_append]
    rfl
  simp only [removeCurrent, bind_eq, get_eq, set_eq, if_pos hlt, hremove, lift_eq]
  rfl

/-! ### What a walk preserves -/

/-- The entries visited. -/
def visited (answers : List Answer) : List Bytes := answers.filterMap Answer.visited?

/-- The entries taken out. -/
def removed (answers : List Answer) : List Bytes := answers.filterMap Answer.removed?

/-- The entry that can be taken out after some answers. -/
def standing? (answers : List Answer) : Option Bytes := answers.getLast?.bind Answer.visited?

@[simp]
theorem visited_concat (answers : List Answer) (a : Answer) :
    visited (answers ++ [a]) = visited answers ++ a.visited?.toList := by
  rw [visited, visited, List.filterMap_append]
  cases a <;> rfl

@[simp]
theorem removed_concat (answers : List Answer) (a : Answer) :
    removed (answers ++ [a]) = removed answers ++ a.removed?.toList := by
  rw [removed, removed, List.filterMap_append]
  cases a <;> rfl

@[simp]
theorem standing?_concat (answers : List Answer) (a : Answer) :
    standing? (answers ++ [a]) = a.visited? := by
  rw [standing?, List.getLast?_concat]
  rfl

/-- A walk over the entries `wanted` of the block `b` after `n` visits or attempts at one: the
entries before those still to visit, these, and those after. -/
structure Parted (b : Block K P) (descending : Bool) (wanted : List Bytes) (n : Nat)
    (answers : List Answer) (before ahead after : List Bytes) (s : Cursor × Block K P) : Prop where
  start_eq : s.1.start = before.length
  stop_eq : s.1.stop = before.length + ahead.length
  descending_eq : s.1.descending = descending
  block_eq : s.2 = { b with entries := before ++ (ahead ++ after) }
  kept_eq : before ++ (ahead ++ after) = b.entries.filter (· ∉ removed answers)
  ahead_eq : inOrder descending ahead = wanted.drop n
  visited_eq : visited answers = wanted.take n
  current_eq : s.1.current? =
    (standing? answers).map fun _ => if descending then s.1.stop else s.1.start - 1
  beside : ∀ e ∈ standing? answers,
    if descending then after.head? = some e else before.getLast? = some e

theorem take_succ_of_drop {α : Type} {xs rest : List α} {x : α} {n : Nat}
    (h : xs.drop n = x :: rest) : xs.take (n + 1) = xs.take n ++ [x] ∧ xs.drop (n + 1) = rest := by
  rw [List.take_add, ← List.drop_drop, h]
  exact ⟨rfl, rfl⟩

/-- Of different entries one is left out. -/
theorem filter_ne {es fs : List Bytes} (h : (es ++ e :: fs).Nodup) :
    (es ++ e :: fs).filter (· ≠ e) = es ++ fs := by
  obtain ⟨-, hcons, hapart⟩ := List.nodup_append.1 h
  have hes : es.filter (· ≠ e) = es := by
    refine List.filter_eq_self.2 fun x hx => decide_eq_true ?_
    exact hapart x hx e (List.mem_cons_self ..)
  have hfs : fs.filter (· ≠ e) = fs := by
    refine List.filter_eq_self.2 fun x hx => decide_eq_true ?_
    rintro rfl
    exact (List.nodup_cons.1 hcons).1 hx
  rw [List.filter_append, List.filter_cons_of_neg (by simp), hes, hfs]

section Parted

variable {descending : Bool} {wanted : List Bytes} {n : Nat} {answers : List Answer}
  {before ahead after : List Bytes} {s : Cursor × Block K P}

theorem filter_removed_concat (es : List Bytes) (answers : List Answer) (e : Bytes) :
    es.filter (· ∉ removed (answers ++ [.removed e])) =
      (es.filter (· ∉ removed answers)).filter (· ≠ e) := by
  rw [List.filter_filter]
  refine List.filter_congr fun x _ => ?_
  simp [not_or, and_comm]

/-- A walk begins before all that there is to visit. -/
theorem parted_ofRange {es ms fs : List Bytes} (hb : b.entries = es ++ (ms ++ fs)) (length : Nat)
    (descending : Bool) : Parted b descending (inOrder descending ms) 0 [] es ms fs
      (ofRange es.length (es.length + ms.length) length descending, b) where
  start_eq := rfl
  stop_eq := rfl
  descending_eq := rfl
  block_eq := by rw [← hb]
  kept_eq := by simp [hb, removed]
  ahead_eq := rfl
  visited_eq := rfl
  current_eq := rfl
  beside := fun e he => by cases he

theorem Parted.remaining_eq (h : Parted b descending wanted n answers before ahead after s) :
    s.1.remaining = UInt64.ofNat (wanted.length - n) := by
  have hlength : ahead.length = wanted.length - n := by
    calc ahead.length = (inOrder descending ahead).length := by
          cases descending <;> simp [inOrder]
      _ = (wanted.drop n).length := by rw [h.ahead_eq]
      _ = wanted.length - n := List.length_drop
  rw [remaining, h.start_eq, h.stop_eq, hlength, Nat.add_comm, UInt64.ofNat_add,
    UInt64.add_sub_cancel]

theorem Parted.next_ended (h : Parted b descending wanted n answers before [] after s) :
    (perform .next s).1 = .ended ∧ Parted b descending wanted (n + 1)
      (answers ++ [(perform .next s).1]) before [] after (perform .next s).2 := by
  obtain ⟨c, b'⟩ := s
  have hstop : c.stop = before.length := h.stop_eq
  have hnone : (inOrder descending ([] : List Bytes)) = [] := by cases descending <;> rfl
  have hle : wanted.length ≤ n := List.drop_eq_nil_iff.1 (h.ahead_eq.symm.trans hnone)
  rw [perform_ended (by rw [hstop, h.start_eq])]
  refine ⟨rfl, h.start_eq, h.stop_eq, h.descending_eq, h.block_eq, ?_, ?_, ?_, ?_, ?_⟩
  · rw [h.kept_eq]
    simp
  · rw [hnone, List.drop_eq_nil_iff.2 (by omega)]
  · rw [List.take_of_length_le (by omega), ← List.take_of_length_le hle, ← h.visited_eq]
    simp
  · simp
  · simp

theorem Parted.next_ascending
    (h : Parted b false wanted n answers before (e :: ahead) after s) :
    (perform .next s).1 = .visited e ∧ Parted b false wanted (n + 1)
      (answers ++ [(perform .next s).1]) (before ++ [e]) ahead after (perform .next s).2 := by
  obtain ⟨c, b'⟩ := s
  have hstart : c.start = before.length := h.start_eq
  have hstop : c.stop = before.length + (ahead.length + 1) := h.stop_eq
  have hdescending : c.descending = false := h.descending_eq
  have hlt : c.start < c.stop := by omega
  obtain rfl : b' = { b with entries := before ++ (e :: ahead ++ after) } := h.block_eq
  obtain ⟨htake, hdrop⟩ := take_succ_of_drop h.ahead_eq.symm
  rw [perform_ascending (e := e) hlt hdescending (by simp [hstart])]
  refine ⟨rfl, ?_, ?_, hdescending, ?_, ?_, hdrop.symm, ?_, ?_, ?_⟩
  · simp [hstart]
  · simp [hstop]
    omega
  · simp
  · rw [List.append_assoc]
    refine Eq.trans h.kept_eq ?_
    simp
  · rw [htake, ← h.visited_eq]
    simp
  · simp
  · simp

theorem Parted.next_descending
    (h : Parted b true wanted n answers before (ahead ++ [e]) after s) :
    (perform .next s).1 = .visited e ∧ Parted b true wanted (n + 1)
      (answers ++ [(perform .next s).1]) before ahead (e :: after) (perform .next s).2 := by
  obtain ⟨c, b'⟩ := s
  have hstart : c.start = before.length := h.start_eq
  have hstop : c.stop = before.length + (ahead.length + 1) := by
    rw [← List.length_concat (a := e), List.concat_eq_append]
    exact h.stop_eq
  have hdescending : c.descending = true := h.descending_eq
  have hlt : c.start < c.stop := by omega
  obtain rfl : b' = { b with entries := before ++ (ahead ++ [e] ++ after) } := h.block_eq
  have hahead : wanted.drop n = e :: inOrder true ahead := by
    rw [← h.ahead_eq, inOrder, if_pos rfl, List.reverse_append]
    rfl
  obtain ⟨htake, hdrop⟩ := take_succ_of_drop hahead
  rw [perform_descending (e := e) hlt hdescending (by simp [hstop])]
  refine ⟨rfl, hstart, ?_, hdescending, ?_, ?_, hdrop.symm, ?_, ?_, ?_⟩
  · simp [hstop]
  · simp
  · rw [List.append_cons]
    refine Eq.trans h.kept_eq ?_
    simp
  · rw [htake, ← h.visited_eq]
    simp
  · simp
  · simp

theorem Parted.remove_refused (h : Parted b descending wanted n answers before ahead after s)
    (hnone : standing? answers = none) :
    removeCurrent s = (.error (.invalidState .noCurrentEntry), s) ∧
      Parted b descending wanted n (answers ++ [(perform .remove s).1]) before ahead after
        (perform .remove s).2 := by
  obtain ⟨c, b'⟩ := s
  have hcurrent : c.current? = none := by
    refine Eq.trans h.current_eq ?_
    rw [hnone]
    rfl
  rw [perform, removeCurrent_none hcurrent]
  refine ⟨rfl, h.start_eq, h.stop_eq, h.descending_eq, h.block_eq, ?_, h.ahead_eq, ?_, ?_, ?_⟩
  · rw [h.kept_eq]
    simp
  · rw [← h.visited_eq]
    simp
  · simp [hcurrent]
  · simp

/-- An entry that was left is taken out. -/
theorem filter_removed_middle {es fs : List Bytes} (hnodup : b.entries.Nodup)
    (hkept : es ++ e :: fs = b.entries.filter (· ∉ removed answers)) :
    es ++ fs = b.entries.filter (· ∉ removed (answers ++ [.removed e])) := by
  rw [filter_removed_concat, ← hkept]
  exact (filter_ne (hkept ▸ hnodup.filter _)).symm

theorem Parted.remove_ascending (hnodup : b.entries.Nodup)
    (h : Parted b false wanted n answers (before ++ [e]) ahead after s)
    (he : standing? answers = some e) : (removeCurrent s).1 = .ok e ∧
      Parted b false wanted n (answers ++ [(perform .remove s).1]) before ahead after
        (perform .remove s).2 := by
  obtain ⟨c, b'⟩ := s
  have hstart : c.start = before.length + 1 := by simpa using h.start_eq
  have hstop : c.stop = before.length + 1 + ahead.length := by simpa using h.stop_eq
  have hdescending : c.descending = false := h.descending_eq
  have hcurrent : c.current? = some before.length := by
    refine Eq.trans h.current_eq ?_
    simp [he, hstart]
  have hsplit : before ++ [e] ++ (ahead ++ after) = before ++ e :: (ahead ++ after) :=
    List.append_assoc ..
  have hkept := h.kept_eq
  have hblock : b' = { b with entries := before ++ [e] ++ (ahead ++ after) } := h.block_eq
  rw [hsplit] at hkept hblock
  rw [perform, hblock, removeCurrent_some (e := e) hcurrent rfl, hdescending,
    if_neg Bool.false_ne_true]
  -- one entry less is before the middle, so both of its ends move
  refine ⟨rfl, ?_, ?_, rfl, rfl, filter_removed_middle hnodup hkept, h.ahead_eq, ?_, ?_, ?_⟩
  · simp [hstart]
  · simp [hstop]
  · rw [← h.visited_eq]
    simp
  · simp
  · simp

theorem Parted.remove_descending (hnodup : b.entries.Nodup)
    (h : Parted b true wanted n answers before ahead (e :: after) s)
    (he : standing? answers = some e) : (removeCurrent s).1 = .ok e ∧
      Parted b true wanted n (answers ++ [(perform .remove s).1]) before ahead after
        (perform .remove s).2 := by
  obtain ⟨c, b'⟩ := s
  have hstop : c.stop = (before ++ ahead).length := by simpa using h.stop_eq
  have hdescending : c.descending = true := h.descending_eq
  have hcurrent : c.current? = some (before ++ ahead).length := by
    refine Eq.trans h.current_eq ?_
    simp [he, hstop]
  have hsplit : before ++ (ahead ++ e :: after) = before ++ ahead ++ e :: after :=
    (List.append_assoc ..).symm
  have hkept := h.kept_eq
  have hblock : b' = { b with entries := before ++ (ahead ++ e :: after) } := h.block_eq
  rw [hsplit] at hkept hblock
  rw [perform, hblock, removeCurrent_some (e := e) hcurrent rfl, hdescending, if_pos rfl]
  refine ⟨rfl, h.start_eq, h.stop_eq, rfl, ?_, ?_, h.ahead_eq, ?_, ?_, ?_⟩
  · simp
  · rw [← List.append_assoc]
    exact filter_removed_middle hnodup hkept
  · rw [← h.visited_eq]
    simp
  · simp
  · simp

/-- The next entry is visited, if there is one. -/
theorem Parted.next (h : Parted b descending wanted n answers before ahead after s) :
    (perform .next s).1 = wanted[n]?.elim .ended .visited ∧ ∃ before' ahead' after',
      Parted b descending wanted (n + 1) (answers ++ [(perform .next s).1]) before' ahead' after'
        (perform .next s).2 := by
  have hnext : wanted[n]? = (inOrder descending ahead).head? := by
    rw [h.ahead_eq, List.head?_drop]
  rw [hnext]
  -- what comes next is at the front of the entries ahead, or, on the way down, at their end
  cases descending with
  | false =>
    cases ahead with
    | nil => exact ⟨h.next_ended.1, _, _, _, h.next_ended.2⟩
    | cons e ahead => exact ⟨h.next_ascending.1, _, _, _, h.next_ascending.2⟩
  | true =>
    rcases List.eq_nil_or_concat ahead with rfl | ⟨ahead, e, rfl⟩
    · exact ⟨h.next_ended.1, _, _, _, h.next_ended.2⟩
    · rw [List.concat_eq_append] at h ⊢
      refine ⟨?_, _, _, _, h.next_descending.2⟩
      rw [h.next_descending.1, inOrder, if_pos rfl, List.reverse_concat]
      rfl

/-- The entry visited last is taken out, if it is still there. -/
theorem Parted.remove (hnodup : b.entries.Nodup)
    (h : Parted b descending wanted n answers before ahead after s) :
    (match standing? answers with
      | some e => (removeCurrent s).1 = .ok e
      | none => removeCurrent s = (.error (.invalidState .noCurrentEntry), s)) ∧
      ∃ before' ahead' after', Parted b descending wanted n (answers ++ [(perform .remove s).1])
        before' ahead' after' (perform .remove s).2 := by
  cases he : standing? answers with
  | none => exact ⟨(h.remove_refused he).1, _, _, _, (h.remove_refused he).2⟩
  | some e =>
    have hbeside := h.beside e he
    cases descending with
    | false =>
      obtain ⟨before, rfl⟩ := List.getLast?_eq_some_iff.1 hbeside
      exact ⟨(h.remove_ascending hnodup he).1, _, _, _, (h.remove_ascending hnodup he).2⟩
    | true =>
      obtain ⟨after, rfl⟩ := List.head?_eq_some_iff.1 hbeside
      exact ⟨(h.remove_descending hnodup he).1, _, _, _, (h.remove_descending hnodup he).2⟩

/-- The entries stay parted, whatever is asked. -/
theorem Parted.run (hnodup : b.entries.Nodup)
    (h : Parted b descending wanted 0 [] before ahead after s) (moves : List Move) :
    ∃ before' ahead' after', Parted b descending wanted (moves.count .next) (run moves s).1
      before' ahead' after' (run moves s).2 := by
  -- the answers are those since the walk began, so the step is the last one
  induction moves using List.reverseRecOn with
  | nil => exact ⟨before, ahead, after, h⟩
  | append_singleton moves m ih =>
    obtain ⟨before', ahead', after', ih⟩ := ih
    rw [run_concat]
    cases m with
    | next =>
      rw [List.count_append, List.count_singleton_self]
      exact ih.next.2
    | remove =>
      rw [List.count_append, List.count_singleton, if_neg (by decide), Nat.add_zero]
      exact (ih.remove hnodup).2

end Parted

end Cursor

/-! ### Blocks of items -/

namespace Block

variable {κ π : Type} [LinearOrder κ] {K : OrderedCodec κ} {P : Codec π} [K.Lawful]
  {items xs ys zs : List (κ × π)} {lower upper : Bound κ}

/-- Items with different keys have different entries. -/
theorem nodup_records (hw : ∀ i ∈ items, WritesItem K P i) (hs : Ascending items) :
    (items.map (record K P)).Nodup := by
  refine List.pairwise_map.2 (hs.imp_of_mem fun {i j} hi hj hlt heq => ?_)
  have hkey := readKey_record (hw i hi)
  rw [heq, readKey_record (hw j hj)] at hkey
  exact absurd (Except.ok.inj hkey) (ne_of_gt hlt)

theorem filter_within (hxs : ∀ x ∈ xs, lower.liesBelow x.1 = false)
    (hys : ∀ y ∈ ys, within lower upper y = true) (hzs : ∀ z ∈ zs, upper.liesAbove z.1 = false) :
    (xs ++ (ys ++ zs)).filter (within lower upper) = ys := by
  have hbelow : xs.filter (within lower upper) = [] :=
    List.filter_eq_nil_iff.2 fun x hx => by simp [within, hxs x hx]
  have habove : zs.filter (within lower upper) = [] :=
    List.filter_eq_nil_iff.2 fun z hz => by simp [within, hzs z hz]
  rw [List.filter_append, List.filter_append, hbelow, habove, List.filter_eq_self.2 hys,
    List.append_nil, List.nil_append]

/-- A walk visits the items within the bounds in their order, each once, whatever is taken out
on the way, and leaves the entries that were not taken out. Only the entry that the last step
visited can be taken out. -/
theorem walk_ofItems (capacity : Nat) (last : BlockNumber) (hw : ∀ i ∈ items, WritesItem K P i)
    (hs : Ascending items) (lower upper : Bound κ) (descending : Bool) :
    let b := ofItems K P capacity items last
    let wanted := (inOrder descending (items.filter (within lower upper))).map (record K P)
    match (lower.refusal? K).or (upper.refusal? K) with
    | some e => b.cursor lower upper descending = .error e
    | none => ∃ c, b.cursor lower upper descending = .ok c ∧
      ∀ moves : List Cursor.Move, ∃ answers c' b', Cursor.run moves (c, b) = (answers, c', b') ∧
        Cursor.visited answers = wanted.take (moves.count .next) ∧
        c'.remaining = UInt64.ofNat (wanted.length - moves.count .next) ∧
        b' = { b with entries := b.entries.filter (· ∉ Cursor.removed answers) } ∧
        (Cursor.perform .next (c', b')).1 =
          wanted[moves.count .next]?.elim .ended .visited ∧
        match Cursor.standing? answers with
        | some e => (Cursor.removeCurrent (c', b')).1 = .ok e
        | none => Cursor.removeCurrent (c', b') =
            (.error (.invalidState .noCurrentEntry), (c', b')) := by
  intro b wanted
  cases hrefusal : (lower.refusal? K).or (upper.refusal? K) with
  | some e => exact cursor_refused capacity last hw hs hrefusal descending
  | none =>
    rw [Option.or_eq_none_iff] at hrefusal
    -- the bounds part the items, and so the entries, in three
    obtain ⟨xs, ys, zs, rfl, hcursor, hxs, hys, hzs⟩ :=
      cursor_ofItems capacity last hw hs hrefusal.1 hrefusal.2 descending
    have hwanted : wanted = inOrder descending (ys.map (record K P)) := by
      rw [← map_inOrder, ← filter_within hxs hys hzs]
    have hentries : b.entries =
        xs.map (record K P) ++ (ys.map (record K P) ++ zs.map (record K P)) := by
      rw [entries_ofItems, List.map_append, List.map_append]
    have hstart := Cursor.parted_ofRange hentries (xs ++ (ys ++ zs)).length descending
    rw [← hwanted, List.length_map, List.length_map] at hstart
    have hnodup : b.entries.Nodup := nodup_records hw hs
    refine ⟨_, hcursor, fun moves => ?_⟩
    obtain ⟨before, ahead, after, h⟩ := hstart.run hnodup moves
    refine ⟨_, _, _, rfl, h.visited_eq, h.remaining_eq, ?_, h.next.1, (h.remove hnodup).1⟩
    rw [h.block_eq, h.kept_eq]

/-- Down four entries, of which the lower bound keeps out the first: the first and the last that
are visited are taken out. -/
theorem walk_ofItems_descending :
    let items : List (KeyKind.byteString.Item × UInt32) :=
      [([1], 10), ([3], 30), ([5], 50), ([7], 70)]
    let b := ofItems KeyKind.byteString.codec word32.toCodec 64 items 0
    ∃ c answers c' b', b.cursor (.excluded [1]) (.included [8]) true = .ok c ∧
      Cursor.run [.remove, .next, .remove, .remove, .next, .next, .remove, .next] (c, b) =
        (answers, c', b') ∧
      Cursor.visited answers =
        [[0, 0, 0, 1, 7, 0, 0, 0, 70], [0, 0, 0, 1, 5, 0, 0, 0, 50], [0, 0, 0, 1, 3, 0, 0, 0, 30]] ∧
      b'.entries = b.entries.filter (· ∉ Cursor.removed answers) := by
  intro items b
  have hw : ∀ i ∈ items, WritesItem KeyKind.byteString.codec word32.toCodec i := by
    simp only [items, List.forall_mem_cons]
    exact ⟨⟨rfl, rfl⟩, ⟨rfl, rfl⟩, ⟨rfl, rfl⟩, ⟨rfl, rfl⟩, List.forall_mem_nil _⟩
  have hs : Ascending items := by
    rw [Ascending]
    decide
  obtain ⟨c, hc, hrun⟩ := walk_ofItems 64 0 hw hs (.excluded [1]) (.included [8]) true
  obtain ⟨answers, c', b', heq, hvisited, -, hblock, -⟩ :=
    hrun [.remove, .next, .remove, .remove, .next, .next, .remove, .next]
  exact ⟨c, answers, c', b', hc, heq, hvisited.trans (by decide), congrArg entries hblock⟩

end Block

end PagedMap
