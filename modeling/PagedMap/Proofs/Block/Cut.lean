/-
# A block is cut in the middle

Of all cuts between entries the one that is chosen leaves the halves most alike
(`Block.cut_spec`), although the search for it stops once half of the bytes are
below. Where no entry is longer than a third of the room, some cut is so near
the middle (`Block.exists_cut_near_middle`) that the halves of an overfull block
fit, and that neither is small (`Block.cut_halves`). The same holds of the
separator that an index block gives up (`Index.promoted_halves`).

Key theorems: `Block.cut_spec`, `Block.exists_cut_near_middle`,
`Block.cut_halves`, `Block.split_ofItems`, `Index.promoted_spec`,
`Index.promoted_halves`, `Index.promote_run`, `Index.promote_ofParts`.
-/
import PagedMap.Proofs.Action
import PagedMap.Proofs.Block.Parts

namespace PagedMap

namespace Block

variable {κ π : Type} {K : OrderedCodec κ} {P : Codec π}

theorem mass_take_add_drop (es : List Bytes) (n : Nat) :
    mass (es.take n) + mass (es.drop n) = mass es := by
  rw [← mass_append, List.take_append_drop]

theorem mass_take_succ {es : List Bytes} {n : Nat} {e : Bytes} (h : es[n]? = some e) :
    mass (es.take (n + 1)) = mass (es.take n) + e.length := by
  rw [List.take_add_one, h]
  simp

/-- What is below an entry, it, and what is above it make the whole. -/
theorem mass_focus {es : List Bytes} {n : Nat} {e : Bytes} (h : es[n]? = some e) :
    mass (es.take n) + e.length + mass (es.drop (n + 1)) = mass es := by
  rw [← mass_take_succ h, mass_take_add_drop]

theorem mass_le {limit : Nat} : ∀ {es : List Bytes}, (∀ e ∈ es, e.length ≤ limit) →
    mass es ≤ es.length * limit
  | [], _ => by simp
  | e :: es, h => by
    have he := h e (List.mem_cons_self ..)
    have ih := mass_le fun f hf => h f (List.mem_cons_of_mem e hf)
    rw [mass_cons, List.length_cons, Nat.add_one_mul]
    omega

/-- Entries that are no longer than a third of what they exceed are four or more. -/
theorem four_le_length {es : List Bytes} {room limit : Nat} (hthird : 3 * limit ≤ room)
    (hlimit : ∀ e ∈ es, e.length ≤ limit) (hover : room < mass es) : 4 ≤ es.length := by
  have hmany : 3 * limit < es.length * limit := by
    calc 3 * limit ≤ room := hthird
      _ < mass es := hover
      _ ≤ es.length * limit := mass_le hlimit
  exact Nat.lt_of_mul_lt_mul_right hmany

/-- The cut chosen is the best so far or one of those considered, and none of
these is better. -/
theorem cutFrom_spec (total : Nat) : ∀ (es : List Bytes) (i below best bestGap : Nat),
    ∃ g, g ≤ bestGap ∧ (∀ j < es.length, g ≤ gap (2 * (below + mass (es.take j))) total) ∧
      (cutFrom total es i below best bestGap = best ∧ g = bestGap ∨
        ∃ j < es.length, cutFrom total es i below best bestGap = i + j ∧
          g = gap (2 * (below + mass (es.take j))) total)
  | [], _, _, _, bestGap => ⟨bestGap, Nat.le_refl _, by simp, .inl ⟨rfl, rfl⟩⟩
  | e :: es, i, below, best, bestGap => by
    -- what is chosen so far, after the cut before `e` was considered
    obtain ⟨best', gap', hbest, hgap, hhere, hchoice⟩ : ∃ best' gap',
        cutFrom total (e :: es) i below best bestGap =
          (if total ≤ 2 * below then best'
            else cutFrom total es (i + 1) (below + e.length) best' gap') ∧
        gap' ≤ bestGap ∧ gap' ≤ gap (2 * below) total ∧
        (best' = best ∧ gap' = bestGap ∨ best' = i ∧ gap' = gap (2 * below) total) := by
      by_cases hle : gap (2 * below) total ≤ bestGap
      · exact ⟨i, gap (2 * below) total, by simp [cutFrom, hle], hle, Nat.le_refl _,
          .inr ⟨rfl, rfl⟩⟩
      · exact ⟨best, bestGap, by simp [cutFrom, hle], Nat.le_refl _, by omega, .inl ⟨rfl, rfl⟩⟩
    rw [hbest]
    by_cases hstop : total ≤ 2 * below
    · rw [if_pos hstop]
      refine ⟨gap', hgap, fun j _ => Nat.le_trans hhere ?_, ?_⟩
      · simp only [gap]
        omega
      · rcases hchoice with h | ⟨rfl, rfl⟩
        · exact .inl h
        · exact .inr ⟨0, by simp, by simp, by simp⟩
    · rw [if_neg hstop]
      obtain ⟨g, hg, hall, hg'⟩ := cutFrom_spec total es (i + 1) (below + e.length) best' gap'
      refine ⟨g, Nat.le_trans hg hgap, fun j hj => ?_, ?_⟩
      · cases j with
        | zero => simpa using Nat.le_trans hg hhere
        | succ j =>
          have := hall j (by simpa using hj)
          simpa [Nat.add_assoc] using this
      · rcases hg' with ⟨hcut, rfl⟩ | ⟨j, hj, hcut, rfl⟩
        · rcases hchoice with ⟨rfl, rfl⟩ | ⟨rfl, rfl⟩
          · exact .inl ⟨hcut, rfl⟩
          · exact .inr ⟨0, by simp, by simp [hcut], by simp⟩
        · exact .inr ⟨j + 1, by simpa using hj, by rw [hcut]; omega, by simp [Nat.add_assoc]⟩

/-- The cut lies between entries, and no other leaves the halves more alike. -/
theorem cut_spec {b : Block K P} (h : 2 ≤ b.length) :
    0 < b.cut ∧ b.cut < b.length ∧ ∀ j, 0 < j → j < b.length →
      gap (2 * mass (b.entries.take b.cut)) b.entryBytes ≤
        gap (2 * mass (b.entries.take j)) b.entryBytes := by
  obtain ⟨e, es, hes⟩ : ∃ e es, b.entries = e :: es := by
    cases hes : b.entries with
    | nil => rw [length, hes] at h; simp at h
    | cons e es => exact ⟨e, es, rfl⟩
  have hlen : b.length = es.length + 1 := by rw [length, hes]; rfl
  obtain ⟨g, hg, hall, hcut⟩ := cutFrom_spec b.entryBytes es 1 e.length 1
    (gap (2 * e.length) b.entryBytes)
  have hcutEq : b.cut = cutFrom b.entryBytes es 1 e.length 1
    (gap (2 * e.length) b.entryBytes) := by rw [cut, hes]
  have hprefix (j : Nat) : mass (b.entries.take (1 + j)) = e.length + mass (es.take j) := by
    rw [hes, Nat.add_comm 1 j]
    simp
  have hbest : 0 < b.cut ∧ b.cut < b.length ∧
      gap (2 * mass (b.entries.take b.cut)) b.entryBytes = g := by
    rcases hcut with ⟨hc, rfl⟩ | ⟨j, hj, hc, rfl⟩
    · rw [hcutEq, hc]
      exact ⟨by omega, by omega, by rw [show 1 = 1 + 0 from rfl, hprefix]; simp⟩
    · rw [hcutEq, hc, hprefix]
      exact ⟨by omega, by omega, rfl⟩
  refine ⟨hbest.1, hbest.2.1, fun j hj hj' => ?_⟩
  obtain ⟨j, rfl⟩ : ∃ i, j = 1 + i := ⟨j - 1, by omega⟩
  rw [hbest.2.2, hprefix]
  exact hall j (by omega)

/-- Some entry reaches over the middle. -/
theorem exists_middle : ∀ (es : List Bytes) {m : Nat}, m < mass es →
    ∃ n e, es[n]? = some e ∧ mass (es.take n) ≤ m ∧ m < mass (es.take (n + 1))
  | [], _, h => by simp at h
  | e :: es, m, h => by
    by_cases hm : m < e.length
    · exact ⟨0, e, rfl, by simp, by simpa using hm⟩
    · obtain ⟨n, f, hf, hle, hlt⟩ := exists_middle es (m := m - e.length) (by
        rw [mass_cons] at h
        omega)
      refine ⟨n + 1, f, by simpa using hf, ?_, ?_⟩
      · rw [List.take_succ_cons, mass_cons]
        omega
      · rw [List.take_succ_cons, mass_cons]
        omega

/-- One of the two cuts beside the entry that reaches over the middle is near
the middle. -/
theorem exists_cut_near_middle {es : List Bytes} {limit : Nat} (hlimit : ∀ e ∈ es, e.length ≤ limit)
    (hlen : 2 ≤ es.length) (hmass : 0 < mass es) :
    ∃ j, 0 < j ∧ j < es.length ∧ gap (2 * mass (es.take j)) (mass es) ≤ limit := by
  obtain ⟨n, e, he, hle, hlt⟩ := exists_middle es (m := mass es / 2) (by omega)
  have hn : n < es.length := (List.getElem?_eq_some_iff.1 he).1
  have hsucc := mass_take_succ he
  have hbound := hlimit e (List.mem_of_getElem? he)
  have hsum := mass_take_add_drop es (n + 1)
  by_cases hnear : gap (2 * mass (es.take n)) (mass es) ≤ limit
  · by_cases h0 : n = 0
    · subst h0
      rw [Nat.zero_add] at hlt hsucc hsum
      rw [List.take_zero, mass_nil, Nat.zero_add] at hsucc
      exact ⟨1, by omega, by omega, by simp only [gap]; omega⟩
    · exact ⟨n, by omega, hn, hnear⟩
  · by_cases hend : n + 1 < es.length
    · exact ⟨n + 1, by omega, hend, by simp only [gap] at *; omega⟩
    · -- the last entry reaches over the middle, so all before it are less than it
      exfalso
      have hall : mass (es.take (n + 1)) = mass es := by
        rw [List.take_of_length_le (by omega)]
      simp only [gap] at hnear
      omega

section Split

variable {b : Block K P} {room limit : Nat}

/-- The halves of an overfull block whose entries are no longer than a third of the room fit,
and they are larger than a third of the room. -/
theorem cut_halves (hthird : 3 * limit ≤ room) (hlimit : ∀ e ∈ b.entries, e.length ≤ limit)
    (hover : room < b.entryBytes) (hbound : b.entryBytes ≤ room + limit) :
    0 < b.cut ∧ b.cut < b.length ∧
      mass (b.entries.take b.cut) ≤ room ∧ mass (b.entries.drop b.cut) ≤ room ∧
      room < 3 * mass (b.entries.take b.cut) ∧ room < 3 * mass (b.entries.drop b.cut) := by
  have hlen : 4 ≤ b.length := four_le_length hthird hlimit hover
  have htotal : mass b.entries = b.entryBytes := rfl
  have hsum := mass_take_add_drop b.entries b.cut
  obtain ⟨hpos, hlt, hbest⟩ := cut_spec (b := b) (by omega)
  obtain ⟨j, hj, hj', hnear⟩ := exists_cut_near_middle hlimit (by rw [length] at hlen; omega)
    (by omega)
  have hgap := Nat.le_trans (hbest j hj hj') hnear
  rw [gap] at hgap
  exact ⟨hpos, hlt, by omega, by omega, by omega, by omega⟩

theorem isOverflowed_iff : b.isOverflowed = true ↔ b.capacity < 8 + b.entryBytes := by
  rw [isOverflowed, decide_eq_true_iff, occupied, headerSize]

theorem isOverflowed_of_le (hroom : 8 ≤ b.capacity)
    (h : b.entryBytes ≤ b.capacity - 8) : b.isOverflowed = false := by
  rw [← Bool.not_eq_true, isOverflowed_iff]
  omega

/-- A block of two entries or more is cut, and the upper part is given if both fit. -/
theorem split_run (hlen : 2 ≤ b.length) :
    split b =
      (if (b.splitAt b.cut).1.isOverflowed || (b.splitAt b.cut).2.isOverflowed then
        .error (.internal .splitTooLarge)
      else .ok (b.splitAt b.cut).2, (b.splitAt b.cut).1) := by
  rw [split, if_neg (Nat.not_lt.2 hlen)]
  dsimp only
  split
  · rfl
  · rfl

variable {capacity : Nat} {items : List (κ × π)} {last : BlockNumber}

/-- An overfull block of entries that are no longer than a third of the room is
cut into halves that fit and are larger than a third of the room. -/
theorem split_ofItems {room limit : Nat} (hroom : capacity = 8 + room) (hthird : 3 * limit ≤ room)
    (hlimit : ∀ i ∈ items, (record K P i).length ≤ limit) (hover : room < bytesOf K P items)
    (hbound : bytesOf K P items ≤ room + limit) :
    ∃ xs ys, items = xs ++ ys ∧ xs ≠ [] ∧ ys ≠ [] ∧
      split (ofItems K P capacity items last) =
        (.ok (ofItems K P capacity ys noBlock), ofItems K P capacity xs last) ∧
      bytesOf K P xs ≤ room ∧ bytesOf K P ys ≤ room ∧
      room < 3 * bytesOf K P xs ∧ room < 3 * bytesOf K P ys := by
  have hlimit' : ∀ e ∈ (ofItems K P capacity items last).entries, e.length ≤ limit := by
    intro e he
    obtain ⟨i, hi, rfl⟩ := List.mem_map.1 he
    exact hlimit i hi
  obtain ⟨hpos, hlt, hlower, hupper, hlarge, hlarge'⟩ := cut_halves hthird hlimit'
    (by rwa [entryBytes_ofItems]) (by rwa [entryBytes_ofItems])
  generalize hcut : (ofItems K P capacity items last).cut = n at *
  rw [length_ofItems] at hlt
  rw [entries_ofItems, ← List.map_take, mass_records] at hlower hlarge
  rw [entries_ofItems, ← List.map_drop, mass_records] at hupper hlarge'
  have hhalves : splitAt (ofItems K P capacity items last) n =
      (ofItems K P capacity (items.take n) last, ofItems K P capacity (items.drop n) noBlock) := by
    rw [splitAt, entries_ofItems, ← List.map_take, ← List.map_drop]
    rfl
  have hfits : ∀ {xs : List (κ × π)} {last : BlockNumber}, bytesOf K P xs ≤ room →
      (ofItems K P capacity xs last).isOverflowed = false := by
    intro xs last hle
    apply isOverflowed_of_le <;> rw [capacity_ofItems, hroom]
    · exact Nat.le_add_right 8 room
    · rwa [entryBytes_ofItems, Nat.add_sub_cancel_left]
  have hsplit := split_run (b := ofItems K P capacity items last) (by rw [length_ofItems]; omega)
  rw [hcut, hhalves, hfits hlower, hfits hupper] at hsplit
  refine ⟨items.take n, items.drop n, (List.take_append_drop n items).symm, ?_, ?_, hsplit,
    hlower, hupper, hlarge, hlarge'⟩
  · rw [← List.length_pos_iff, List.length_take]
    omega
  · rw [← List.length_pos_iff, List.length_drop]
    omega

end Split

end Block

namespace Index

open Block (gap mass)

variable {κ : Type} {K : OrderedCodec κ}

/-- Of several positions the chosen one leaves the halves most alike. -/
theorem foldl_moreBalanced (b : Index K) : ∀ (js : List Nat) (i : Nat),
    js.foldl (moreBalanced b) i ∈ i :: js ∧
      ∀ j ∈ i :: js, imbalance b (js.foldl (moreBalanced b) i) ≤ imbalance b j
  | [], i => by simp
  | j :: js, i => by
    obtain ⟨hmem, hbest⟩ := foldl_moreBalanced b js (moreBalanced b i j)
    obtain ⟨hchoice, hi, hj⟩ : (moreBalanced b i j = i ∨ moreBalanced b i j = j) ∧
        imbalance b (moreBalanced b i j) ≤ imbalance b i ∧
        imbalance b (moreBalanced b i j) ≤ imbalance b j := by
      unfold moreBalanced
      split
      · exact ⟨.inr rfl, by omega, Nat.le_refl _⟩
      · exact ⟨.inl rfl, Nat.le_refl _, by omega⟩
    have hfirst := hbest _ (List.mem_cons_self ..)
    rw [List.foldl_cons]
    refine ⟨?_, fun j' hj' => ?_⟩
    · rcases List.mem_cons.1 hmem with h | h
      · rcases hchoice with hc | hc <;> rw [h, hc] <;> simp
      · exact List.mem_cons_of_mem _ (List.mem_cons_of_mem _ h)
    · rcases List.mem_cons.1 hj' with rfl | hj'
      · exact Nat.le_trans hfirst hi
      · rcases List.mem_cons.1 hj' with rfl | hj'
        · exact Nat.le_trans hfirst hj
        · exact hbest j' (List.mem_cons_of_mem _ hj')

/-- The separator that moves up is neither the first nor the last, and no other
such leaves the halves more alike. -/
theorem promoted_spec {b : Index K} (h : 3 ≤ b.length) :
    0 < promoted b ∧ promoted b + 1 < b.length ∧ ∀ j, 0 < j → j + 1 < b.length →
      imbalance b (promoted b) ≤ imbalance b j := by
  obtain ⟨hmem, hbest⟩ := foldl_moreBalanced b (List.range' 2 (b.length - 3)) 1
  have hrange (j : Nat) : j ∈ 1 :: List.range' 2 (b.length - 3) ↔ 0 < j ∧ j + 1 < b.length := by
    rw [List.mem_cons, List.mem_range'_1]
    omega
  rw [hrange] at hmem
  exact ⟨hmem.1, hmem.2, fun j hj hj' => hbest j ((hrange j).2 ⟨hj, hj'⟩)⟩

section Promote

variable {b : Index K} {room limit : Nat}

/-- How much the parts below and above a separator differ. -/
theorem imbalance_eq (b : Index K) (n : Nat) :
    imbalance b n = gap (mass (b.entries.take n)) (mass (b.entries.drop (n + 1))) := by
  have hsum := Block.mass_take_add_drop b.entries (n + 1)
  unfold imbalance bytesBefore Block.entryBytes
  rw [← hsum, Nat.add_sub_cancel_left]

/-- The parts below and above the separator that reaches over the middle are nearly alike. -/
theorem exists_imbalance_le (hlimit : ∀ e ∈ b.entries, e.length ≤ limit)
    (hlarge : 2 * limit < b.entryBytes) :
    ∃ n, 0 < n ∧ n + 1 < b.length ∧ imbalance b n ≤ limit := by
  have htotal : mass b.entries = b.entryBytes := rfl
  obtain ⟨n, e, he, hle, hlt⟩ := Block.exists_middle b.entries (m := b.entryBytes / 2) (by omega)
  have hn : n < b.length := (List.getElem?_eq_some_iff.1 he).1
  have hnext := Block.mass_take_succ he
  have hwhole := Block.mass_focus he
  have hshort := hlimit e (List.mem_of_getElem? he)
  refine ⟨n, ?_, ?_, ?_⟩
  · rcases Nat.eq_zero_or_pos n with rfl | hpos
    · rw [List.take_zero, Block.mass_nil] at hnext
      omega
    · exact hpos
  · by_contra hend
    rw [List.drop_eq_nil_of_le (by rw [Block.length] at hend; omega), Block.mass_nil] at hwhole
    omega
  · rw [imbalance_eq, gap]
    omega

/-- The parts below and above the separator that an overfull index block gives up fit and
are larger than a sixth of the room. -/
theorem promoted_halves (hthird : 3 * limit ≤ room) (hlimit : ∀ e ∈ b.entries, e.length ≤ limit)
    (hover : room < b.entryBytes) (hbound : b.entryBytes ≤ room + limit) :
    0 < promoted b ∧ promoted b + 1 < b.length ∧
      mass (b.entries.take (promoted b)) ≤ room ∧
      mass (b.entries.drop (promoted b + 1)) ≤ room ∧
      room < 6 * mass (b.entries.take (promoted b)) ∧
      room < 6 * mass (b.entries.drop (promoted b + 1)) := by
  have htotal : mass b.entries = b.entryBytes := rfl
  have hlen : 4 ≤ b.length := Block.four_le_length hthird hlimit hover
  obtain ⟨n, hn, hn', hnear⟩ := exists_imbalance_le hlimit (by omega)
  obtain ⟨hpos, hlast, hbest⟩ := promoted_spec (b := b) (by omega)
  generalize promoted b = i at *
  obtain ⟨e, he⟩ : ∃ e, b.entries[i]? = some e := ⟨_, List.getElem?_eq_getElem (by
    rw [Block.length] at hlast
    omega)⟩
  have hgap := Nat.le_trans (hbest n hn hn') hnear
  rw [imbalance_eq, gap] at hgap
  have hwhole := Block.mass_focus he
  have hshort := hlimit e (List.mem_of_getElem? he)
  exact ⟨hpos, hlast, by omega, by omega, by omega, by omega⟩

/-- Promoting a separator whose key and child can be read leaves the separators below it, which
end in its child, and those above it, which end as the block did. -/
theorem promote_run {es fs : List Bytes} {e key : Bytes} {c : BlockNumber} (hlen : 3 ≤ b.length)
    (hentries : b.entries = es ++ e :: fs) (hpos : promoted b = es.length)
    (hkey : Block.keyOf K e = .ok key)
    (hchild : Block.readPayload K word32.toCodec e = .ok c) :
    promote b =
      (if Block.isOverflowed (⟨b.capacity, es, c⟩ : Index K) ||
          Block.isOverflowed (⟨b.capacity, fs, b.last⟩ : Index K) then
        .error (.internal .promoteTooLarge)
      else .ok (key, ⟨b.capacity, fs, b.last⟩), ⟨b.capacity, es, c⟩) := by
  have hcut : Block.splitAt b (es.length + 1) =
      (⟨b.capacity, es ++ [e], b.last⟩, ⟨b.capacity, fs, noBlock⟩) := by
    have hconcat : b.entries = (es ++ [e]) ++ fs := by rw [hentries]; simp
    rw [Block.splitAt, hconcat, List.take_left' (by simp), List.drop_left' (by simp)]
    rfl
  have hentry : Block.entry (⟨b.capacity, es ++ [e], b.last⟩ : Index K) es.length = .ok e := by
    rw [Block.entry, List.getElem?_concat_length]
  have hpayload : Block.payload (⟨b.capacity, es ++ [e], b.last⟩ : Index K) es.length = .ok c := by
    rw [Block.payload, hentry]
    exact hchild
  have hbytes : Block.keyBytes (⟨b.capacity, es ++ [e], b.last⟩ : Index K) es.length = .ok key := by
    rw [Block.keyBytes, hentry]
    exact hkey
  have hremove : Block.removeAt (⟨b.capacity, es ++ [e], b.last⟩ : Index K) es.length =
      .ok (e, ⟨b.capacity, es, b.last⟩) := by
    rw [Block.removeAt, hentry]
    simp [ok_bind, pure, Except.pure, List.eraseIdx_append_of_length_le]
  rw [promote]
  simp only [bind_eq, get_eq, if_neg (Nat.not_lt.2 hlen), hpos, hcut, set_eq, lift_eq, hpayload,
    hbytes, hremove]
  split
  · rfl
  · rfl

end Promote

section Parts

variable [LinearOrder κ] [K.Lawful] {capacity : Nat} {ks ls : List κ} {cs : List BlockNumber}
  {d : BlockNumber} {ds : List BlockNumber}

omit [LinearOrder κ] [K.Lawful] in
theorem isOverflowed_ofParts (hcs : cs.length = ks.length + 1) (h : 8 + weight K ks ≤ capacity) :
    Block.isOverflowed (ofParts K capacity ks cs) = false := by
  apply Block.isOverflowed_of_le <;> rw [capacity_ofParts]
  · omega
  · rw [entryBytes_ofParts hcs]
    omega

/-- Promoting a separator leaves the keys and children below it and those above
it, if both fit. -/
theorem promote_join {k : κ} (hcs : cs.length = ks.length + 1) (hds : ds.length = ls.length)
    (hw : ∀ a ∈ ks ++ k :: ls, K.Writes a) (hlen : 3 ≤ (ks ++ k :: ls).length)
    (hpos : promoted (ofParts K capacity (ks ++ k :: ls) (cs ++ d :: ds)) = ks.length)
    (hlower : 8 + weight K ks ≤ capacity) (hupper : 8 + weight K ls ≤ capacity) :
    promote (ofParts K capacity (ks ++ k :: ls) (cs ++ d :: ds)) =
      (.ok (K.bytes k, ofParts K capacity ls (d :: ds)), ofParts K capacity ks cs) := by
  have hall : (cs ++ d :: ds).length = (ks ++ k :: ls).length + 1 := by simp; omega
  have hitem : Block.WritesItem K word32.toCodec (k, cs.getLastD noBlock) :=
    ⟨hw k List.mem_append_cons_self, word32_writes _⟩
  have hzip : ((ks.zip cs).map (Block.record K word32.toCodec)).length = ks.length := by
    rw [List.length_map, List.length_zip]
    omega
  have hentries : (ofParts K capacity (ks ++ k :: ls) (cs ++ d :: ds)).entries =
      (ks.zip cs).map (Block.record K word32.toCodec) ++
        Block.record K word32.toCodec (k, cs.getLastD noBlock) ::
          (ls.zip (d :: ds)).map (Block.record K word32.toCodec) := by
    rw [ofParts_join k hcs, Block.entries_ofItems, List.map_append, List.map_cons]
  have hlast : (ofParts K capacity (ks ++ k :: ls) (cs ++ d :: ds)).last =
      (d :: ds).getLastD noBlock := by rw [last_ofParts, getLastD_append_cons]
  have hlower' := isOverflowed_ofParts hcs hlower
  have hupper' := @isOverflowed_ofParts _ K capacity ls (d :: ds) (congrArg (· + 1) hds) hupper
  have hrun := promote_run (by rwa [length_ofParts hall]) hentries (hpos.trans hzip.symm)
    (Block.keyOf_record hitem) (Block.readPayload_record hitem)
  rw [hlast] at hrun
  rw [hrun]
  unfold ofParts Block.ofItems at hlower' hupper' ⊢
  rw [hlower', hupper']
  rfl

omit [LinearOrder κ] [K.Lawful] in
/-- The entries before an index take as many bytes as their separators. -/
theorem mass_take_ofParts (hcs : cs.length = ks.length + 1) (n : Nat) :
    mass ((ofParts K capacity ks cs).entries.take n) = weight K (ks.take n) := by
  have htake : (ofParts K capacity ks cs).entries.take n =
      ((ks.take n).zip (cs.take n)).map (Block.record K word32.toCodec) := by
    rw [List.zip, ← List.take_zipWith, List.map_take]
    rfl
  rw [htake, Block.mass_records, bytesOf_zip (by simp; omega)]

omit [LinearOrder κ] [K.Lawful] in
theorem mass_drop_ofParts (hcs : cs.length = ks.length + 1) (n : Nat) :
    mass ((ofParts K capacity ks cs).entries.drop n) = weight K (ks.drop n) := by
  have hwhole : mass (ofParts K capacity ks cs).entries = weight K ks := entryBytes_ofParts hcs
  have hsum := Block.mass_take_add_drop (ofParts K capacity ks cs).entries n
  have hkeys : weight K (ks.take n) + weight K (ks.drop n) = weight K ks := by
    rw [← weight_append, List.take_append_drop]
  rw [mass_take_ofParts hcs] at hsum
  omega

variable (capacity cs) in
omit [LinearOrder κ] [K.Lawful] in
theorem length_le_of_mem_ofParts {limit : Nat} (hlimit : ∀ k ∈ ks, K.width k + 4 ≤ limit) :
    ∀ e ∈ (ofParts K capacity ks cs).entries, e.length ≤ limit := by
  intro e he
  obtain ⟨i, hi, rfl⟩ := List.mem_map.1 he
  have hkey := hlimit i.1 (List.of_mem_zip hi).1
  rw [Block.length_record]
  exact hkey

/-- An overfull index block gives up a separator so that the parts below and
above it fit and are larger than a sixth of the room. -/
theorem promote_ofParts {room limit : Nat} (hroom : capacity = 8 + room)
    (hthird : 3 * limit ≤ room) (hcs : cs.length = ks.length + 1) (hw : ∀ k ∈ ks, K.Writes k)
    (hlimit : ∀ k ∈ ks, K.width k + 4 ≤ limit) (hover : room < weight K ks)
    (hbound : weight K ks ≤ room + limit) :
    ∃ ks₁ k ks₂ cs₁ cs₂, ks = ks₁ ++ k :: ks₂ ∧ cs = cs₁ ++ cs₂ ∧ ks₁ ≠ [] ∧ ks₂ ≠ [] ∧
      cs₁.length = ks₁.length + 1 ∧ cs₂.length = ks₂.length + 1 ∧
      promote (ofParts K capacity ks cs) =
        (.ok (K.bytes k, ofParts K capacity ks₂ cs₂), ofParts K capacity ks₁ cs₁) ∧
      weight K ks₁ ≤ room ∧ weight K ks₂ ≤ room ∧
      room < 6 * weight K ks₁ ∧ room < 6 * weight K ks₂ := by
  have hall : (ofParts K capacity ks cs).entryBytes = weight K ks := entryBytes_ofParts hcs
  have hlength : (ofParts K capacity ks cs).length = ks.length := length_ofParts hcs
  obtain ⟨hpos, hlast, hlower, hupper, hlarge, hlarge'⟩ := promoted_halves hthird
    (length_le_of_mem_ofParts capacity cs hlimit) (by rwa [hall]) (by rwa [hall])
  generalize hi : promoted (ofParts K capacity ks cs) = i at *
  rw [hlength] at hlast
  rw [mass_take_ofParts hcs] at hlower hlarge
  rw [mass_drop_ofParts hcs] at hupper hlarge'
  obtain ⟨k, hk⟩ : ∃ k, ks[i]? = some k := ⟨_, List.getElem?_eq_getElem (by omega)⟩
  have hks := eq_take_append_of_getElem? hk
  obtain ⟨d, hd⟩ : ∃ d, cs[i + 1]? = some d := ⟨_, List.getElem?_eq_getElem (by omega)⟩
  have hcs' := eq_take_append_of_getElem? hd
  have hlen₁ : (cs.take (i + 1)).length = (ks.take i).length + 1 := by
    rw [List.length_take, List.length_take]
    omega
  have hlen₂ : (cs.drop (i + 1 + 1)).length = (ks.drop (i + 1)).length := by
    rw [List.length_drop, List.length_drop]
    omega
  have hlen₀ : (ks.take i).length = i := by
    rw [List.length_take]
    omega
  have hpromote := promote_join (K := K) (k := k) (d := d) hlen₁ hlen₂
    (hks ▸ hw) (by rw [← hks]; omega) (by rw [← hks, ← hcs', hi, hlen₀]) (by omega) (by omega)
  rw [← hks, ← hcs'] at hpromote
  refine ⟨ks.take i, k, ks.drop (i + 1), cs.take (i + 1), d :: cs.drop (i + 1 + 1), hks, hcs', ?_,
    ?_, hlen₁, by rw [List.length_cons, hlen₂], hpromote, hlower, hupper, hlarge, hlarge'⟩
  · rw [← List.length_pos_iff, hlen₀]
    exact hpos
  · rw [← List.length_pos_iff, List.length_drop]
    omega

end Parts

end Index

end PagedMap
