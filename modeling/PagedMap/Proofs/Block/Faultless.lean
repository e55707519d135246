/-
# Blocks of any bytes

Where an entry ends is found out when its block is read, and where its key ends within it is
found out again whenever the key is asked for. Both are told by the same codec; so in a
block that was read from bytes, whichever they were, every key lies within its entry
(`Block.ofBytes_answers`). Then nothing that is asked of the block faults: its keys and
payloads at the indices that there are, the search for a key, and a cursor over its entries.

Key definitions: `Block.Whole`, `Place.Within`.
Key theorems: `Block.ofBytes_answers`, `Block.Whole.searchBytes_answers`,
`Block.Whole.cursor_answers`, `Block.Whole.item_ne`.
-/
import PagedMap.Block.Index
import PagedMap.Proofs.Block.Cursor
import PagedMap.Proofs.Codec.Faultless

namespace PagedMap

/-- The place is one of a block with so many entries. -/
def Place.Within (n : Nat) : Place → Prop
  | found i => i < n
  | absent i => i ≤ n

theorem Place.Within.index_le {n : Nat} : ∀ {place : Place}, place.Within n → place.index ≤ n
  | found _, h => Nat.le_of_lt h
  | absent _, h => h

theorem Place.Within.child_le {n : Nat} : ∀ {place : Place}, place.Within n → place.child ≤ n
  | found _, h => h
  | absent _, h => h

namespace Block

variable {κ π : Type} {K : OrderedCodec κ} {P : Codec π}

/-- The key that is found in an entry does not go on beyond it. -/
def HoldsKey (K : OrderedCodec κ) (entry : Bytes) : Prop :=
  ∀ n, keyLength K entry = .ok n → n ≤ entry.length

/-- Every entry holds its key. -/
def Whole (b : Block K P) : Prop := ∀ e ∈ b.entries, HoldsKey K e

variable [K.Faultless] [P.Faultless]

/-! ### Reading a block -/

/-- Entries that do not go on beyond the bytes hold their keys. -/
theorem readEntries_answers {count : Nat} : ∀ {n index offset : Nat} {rest : Bytes},
    Answers (readEntries K P count n index offset rest) fun r =>
      offset ≤ r.2 ∧ (r.2 ≤ offset + rest.length → ∀ e ∈ r.1, HoldsKey K e)
  | 0, _, _, _ => answers_ok ⟨Nat.le_refl _, fun _ => List.forall_mem_nil _⟩
  | n + 1, index, offset, rest => by
    rw [readEntries]
    split
    · exact answers_error (by rintro ⟨⟩)
    · refine (answers_of_ne (Codec.Faultless.sizeAt_ne rest)).bind fun k hk => ?_
      refine (answers_of_ne (Codec.Faultless.sizeAt_ne (rest.drop k))).bind fun p _ => ?_
      refine readEntries_answers.bind fun r hr => answers_ok ⟨by omega, fun hstop => ?_⟩
      -- the entry lies within the bytes because all that come after it do
      have hle : k + p ≤ rest.length := by omega
      refine List.forall_mem_cons.2 ⟨fun m hm => ?_, hr.2 (by rw [List.length_drop]; omega)⟩
      rw [List.length_take_of_le hle]
      exact OrderedCodec.Faultless.keyLength_le hk (Nat.le_add_right k p) hle hm

/-- Whatever the bytes are, a block is read from them without a fault, and its entries hold
their keys. -/
theorem ofBytes_answers (bs : Bytes) (capacity : Nat) :
    Answers (ofBytes K P bs capacity) Whole := by
  rw [ofBytes]
  split
  · exact answers_error (by rintro ⟨⟩)
  · next hlong =>
    refine readEntries_answers.bind fun r hr => ?_
    dsimp only
    split
    · exact answers_error (by rintro ⟨⟩)
    · refine answers_ok (hr.2 ?_)
      rw [List.length_drop]
      omega

/-! ### Entries -/

omit [P.Faultless] in
theorem cutEntry_ne {e : Bytes} (h : HoldsKey K e) : cutEntry K e ≠ .error .fault := by
  have hlength : keyLength K e ≠ .error .fault := by
    rw [keyLength]
    split
    · rintro ⟨⟩
    · exact Codec.Faultless.sizeAt_ne e
  refine (answers_of_ne hlength).bind_ne fun n hn => ?_
  rw [if_pos (h n hn)]
  rintro ⟨⟩

omit [P.Faultless] in
theorem keyOf_ne {e : Bytes} (h : HoldsKey K e) : keyOf K e ≠ .error .fault :=
  map_ne_fault _ (cutEntry_ne h)

omit [P.Faultless] in
theorem readKey_ne {e : Bytes} (h : HoldsKey K e) : readKey K e ≠ .error .fault :=
  bind_ne_fault (keyOf_ne h) fun _ => Codec.Faultless.decode_ne _

theorem readPayload_ne {e : Bytes} (h : HoldsKey K e) : readPayload K P e ≠ .error .fault :=
  bind_ne_fault (map_ne_fault _ (cutEntry_ne h)) fun _ => Codec.Faultless.decode_ne _

theorem readItem_ne {e : Bytes} (h : HoldsKey K e) : readItem K P e ≠ .error .fault :=
  bind_ne_fault (readKey_ne h) fun _ => bind_ne_fault (readPayload_ne h) fun _ => ok_ne_fault _

namespace Whole

variable {b : Block K P} {i : Nat}

omit [K.Faultless] [P.Faultless] in
theorem entry_answers (h : b.Whole) (hi : i < b.length) : Answers (b.entry i) (HoldsKey K) := by
  rw [Block.entry, List.getElem?_eq_getElem hi]
  exact answers_ok (h _ (List.getElem_mem hi))

omit [P.Faultless] in
theorem keyBytes_ne (h : b.Whole) (hi : i < b.length) : b.keyBytes i ≠ .error .fault :=
  (h.entry_answers hi).bind_ne fun _ he => keyOf_ne he

theorem payload_ne (h : b.Whole) (hi : i < b.length) : b.payload i ≠ .error .fault :=
  (h.entry_answers hi).bind_ne fun _ he => readPayload_ne he

theorem item_ne (h : b.Whole) (hi : i < b.length) : b.item i ≠ .error .fault :=
  (h.entry_answers hi).bind_ne fun _ he => readItem_ne he

/-! ### Searching -/

omit [P.Faultless] in
theorem searchBetween_answers (h : b.Whole) (probe : Bytes) : ∀ {fuel lo hi : Nat},
    lo ≤ b.length → hi ≤ b.length →
    Answers (b.searchBetween probe fuel lo hi) (Place.Within b.length)
  | 0, _, _, hlo, _ => answers_ok hlo
  | fuel + 1, lo, hi, hlo, hhi => by
    rw [searchBetween]
    split
    · next hlt =>
      have hmid : lo + (hi - lo) / 2 < hi := by omega
      refine (answers_of_ne (h.keyBytes_ne (by omega))).bind fun k _ => ?_
      refine (answers_of_ne (K.compareEncoded_ne k probe)).bind fun o _ => ?_
      cases o with
      | lt => exact h.searchBetween_answers probe (by omega) hhi
      | gt => exact h.searchBetween_answers probe hlo (by omega)
      | eq => exact answers_ok (Nat.lt_of_lt_of_le hmid hhi)
    · exact answers_ok hlo

omit [P.Faultless] in
/-- The search for a key in a block gives a place of the block. -/
theorem searchBytes_answers (h : b.Whole) (probe : Bytes) :
    Answers (b.searchBytes probe) (Place.Within b.length) :=
  h.searchBetween_answers probe (Nat.zero_le _) (Nat.le_refl _)

omit [P.Faultless] in
theorem search_answers (h : b.Whole) (k : κ) : Answers (b.search k) (Place.Within b.length) :=
  (answers_of_ne (Codec.Faultless.encode_ne k)).bind fun _ _ => h.searchBytes_answers _

/-! ### Cursors -/

omit [P.Faultless] in
theorem lowerIndex_answers (h : b.Whole) (lower : Bound κ) :
    Answers (b.lowerIndex lower) (· ≤ b.length) := by
  cases lower with
  | unbounded => exact answers_ok (Nat.zero_le _)
  | included k => exact (h.search_answers k).map fun _ => Place.Within.index_le
  | excluded k => exact (h.search_answers k).map fun _ => Place.Within.child_le

omit [P.Faultless] in
theorem upperIndex_answers (h : b.Whole) (upper : Bound κ) :
    Answers (b.upperIndex upper) (· ≤ b.length) := by
  cases upper with
  | unbounded => exact answers_ok (Nat.le_refl _)
  | included k => exact (h.search_answers k).map fun _ => Place.Within.child_le
  | excluded k => exact (h.search_answers k).map fun _ => Place.Within.index_le

omit [P.Faultless] in
/-- A cursor visits entries of the block only, also when its bounds are the wrong way
round. -/
theorem cursor_answers (h : b.Whole) (lower upper : Bound κ) (descending : Bool) :
    Answers (b.cursor lower upper descending) fun c => ∀ i ∈ c.visitAll.1, i < b.length := by
  refine (h.lowerIndex_answers lower).bind fun start hstart => ?_
  refine (h.upperIndex_answers upper).bind fun stop hstop => answers_ok fun i hi => ?_
  have hmax : max stop start = start + (stop - start) := by omega
  rw [hmax, Cursor.visitAll_ofRange] at hi
  have hrange : i ∈ List.range' start (stop - start) := by
    cases descending with
    | true => exact List.mem_reverse.1 hi
    | false => exact hi
  have := List.mem_range'_1.1 hrange
  omega

end Whole

end Block

namespace Index

variable {κ : Type} {K : OrderedCodec κ} [K.Faultless] {b : Index K}

/-- A child is told or, where there is none, an error that is no fault. -/
theorem child_ne (h : b.Whole) (i : Nat) : child b i ≠ .error .fault := by
  rw [child]
  split
  · next hi => exact h.payload_ne hi
  · split <;> rintro ⟨⟩

theorem children_ne (h : b.Whole) : children b ≠ .error .fault :=
  bind_ne_fault (mapM_ne_fault fun e he => Block.readPayload_ne (h e he)) fun _ => ok_ne_fault _

end Index

end PagedMap
