/-
# Blocks of items

A block of items is a block whose entries are written items. Its written form
is read back, whatever follows it (`Block.ofBytes_toBytes`), and so are the key
and the payload at an index. The number of bytes of its entries is a sum over
the items (`Block.entryBytes_ofItems`).

Key definitions: `Block.record`, `Block.WritesItem`, `Block.bytesOf`,
`Block.ofItems`.
Key theorems: `Block.ofBytes_toBytes`, `Block.keyBytes_ofItems`,
`Block.payload_ofItems`.
-/
import PagedMap.Block.Search
import PagedMap.Proofs.Action
import PagedMap.Proofs.Codec.Digits
import PagedMap.Proofs.Codec.Lawful

namespace PagedMap

namespace Block

variable {κ π : Type} (K : OrderedCodec κ) (P : Codec π)

/-- The entry of an item. -/
def record (i : κ × π) : Bytes := K.bytes i.1 ++ P.bytes i.2

/-- The item has an entry. -/
def WritesItem (i : κ × π) : Prop := K.Writes i.1 ∧ P.Writes i.2

/-- The number of bytes of the entries of items. -/
def bytesOf (items : List (κ × π)) : Nat := (items.map fun i => (record K P i).length).sum

/-- The block of items. -/
def ofItems (capacity : Nat) (items : List (κ × π)) (last : BlockNumber) : Block K P :=
  ⟨capacity, items.map (record K P), last⟩

variable {K P}

@[simp]
theorem bytesOf_nil : bytesOf K P [] = 0 := rfl

@[simp]
theorem bytesOf_cons (i : κ × π) (items : List (κ × π)) :
    bytesOf K P (i :: items) = (record K P i).length + bytesOf K P items := by
  simp [bytesOf]

@[simp]
theorem bytesOf_append (xs ys : List (κ × π)) :
    bytesOf K P (xs ++ ys) = bytesOf K P xs + bytesOf K P ys := by
  simp [bytesOf]

@[simp]
theorem mass_nil : mass [] = 0 := rfl

@[simp]
theorem mass_cons (e : Bytes) (es : List Bytes) : mass (e :: es) = e.length + mass es := rfl

@[simp]
theorem mass_append (es fs : List Bytes) : mass (es ++ fs) = mass es + mass fs := by
  induction es with
  | nil => simp
  | cons e es ih => simp [ih, Nat.add_assoc]

theorem mass_records (items : List (κ × π)) :
    mass (items.map (record K P)) = bytesOf K P items := by
  induction items with
  | nil => rfl
  | cons i items ih => simp [ih]

theorem length_record (i : κ × π) : (record K P i).length = K.width i.1 + P.width i.2 := by
  simp [record, Codec.width]

theorem length_record_pos [LinearOrder κ] [K.Lawful] {i : κ × π} (h : WritesItem K P i) :
    0 < (record K P i).length := by
  have := OrderedCodec.width_pos h.1
  rw [length_record]
  omega

/-- There are no more items than bytes. -/
theorem length_le_bytesOf [LinearOrder κ] [K.Lawful] : ∀ {items : List (κ × π)},
    (∀ i ∈ items, WritesItem K P i) → items.length ≤ bytesOf K P items
  | [], _ => Nat.le_refl _
  | i :: items, h => by
    have hi := length_record_pos (h i (List.mem_cons_self ..))
    have ih := length_le_bytesOf fun j hj => h j (List.mem_cons_of_mem i hj)
    rw [List.length_cons, bytesOf_cons]
    omega

section ofItems

variable {capacity : Nat} {items : List (κ × π)} {last : BlockNumber}

@[simp]
theorem capacity_ofItems : (ofItems K P capacity items last).capacity = capacity := rfl

@[simp]
theorem last_ofItems : (ofItems K P capacity items last).last = last := rfl

@[simp]
theorem entries_ofItems : (ofItems K P capacity items last).entries = items.map (record K P) := rfl

@[simp]
theorem length_ofItems : (ofItems K P capacity items last).length = items.length := by
  simp [length]

@[simp]
theorem entryBytes_ofItems : (ofItems K P capacity items last).entryBytes = bytesOf K P items :=
  mass_records items

@[simp]
theorem occupied_ofItems :
    (ofItems K P capacity items last).occupied = 8 + bytesOf K P items := by
  simp [occupied, headerSize]

@[simp]
theorem isEmpty_ofItems : (ofItems K P capacity items last).isEmpty = items.isEmpty := by
  cases items <;> rfl

theorem length_toBytes : (ofItems K P capacity items last).toBytes.length =
    8 + bytesOf K P items := by
  simp [toBytes, bytesOf, List.length_flatten, Function.comp_def]
  omega

end ofItems

/-! ### Reading a block back -/

section Read

variable [LinearOrder κ] [K.Lawful]

theorem sizeAt_record {i : κ × π} (h : WritesItem K P i) (rest : Bytes) :
    K.sizeAt (record K P i ++ rest) = .ok (K.width i.1) := by
  rw [record, List.append_assoc]
  exact Codec.Lawful.sizeAt_append h.1 _

variable [P.Lawful]

/-- The entries are found again one after the other. -/
theorem readEntries_records (count : Nat) : ∀ {items : List (κ × π)},
    (∀ i ∈ items, WritesItem K P i) → ∀ (index offset : Nat) (rest : Bytes),
    readEntries K P count items.length index offset ((items.map (record K P)).flatten ++ rest) =
      .ok (items.map (record K P), offset + bytesOf K P items)
  | [], _, _, _, _ => rfl
  | i :: items, h, index, offset, rest => by
    have hi := h i (List.mem_cons_self ..)
    have ih := readEntries_records count (fun j hj => h j (List.mem_cons_of_mem i hj)) (index + 1)
      (offset + (record K P i).length) rest
    have hlen := length_record (K := K) (P := P) i
    have hdrop : (record K P i ++ ((items.map (record K P)).flatten ++ rest)).drop (K.width i.1) =
        P.bytes i.2 ++ ((items.map (record K P)).flatten ++ rest) := by
      rw [record, List.append_assoc]
      exact List.drop_left' rfl
    have hpos := length_record_pos hi
    have hne : (record K P i ++ ((items.map (record K P)).flatten ++ rest)).isEmpty = false := by
      rw [List.isEmpty_eq_false_iff, ← List.length_pos_iff, List.length_append]
      omega
    rw [List.map_cons, List.flatten_cons, List.append_assoc, List.length_cons, readEntries, hne]
    simp only [Bool.false_eq_true, ↓reduceIte, sizeAt_record hi, hdrop, bind, Except.bind,
      show P.sizeAt (P.bytes i.2 ++ ((items.map (record K P)).flatten ++ rest)) =
        .ok (P.width i.2) from Codec.Lawful.sizeAt_append hi.2 _, ← hlen, List.drop_left,
      List.take_left, ih, pure, Except.pure, bytesOf_cons, Nat.add_assoc]

/-- A block that is not overfull is read back from its written form, if the word before the
entries can tell how many there are. -/
theorem ofBytes_toBytes {capacity : Nat} {items : List (κ × π)} {last : BlockNumber}
    (h : ∀ i ∈ items, WritesItem K P i) (hfit : 8 + bytesOf K P items ≤ capacity)
    (hcount : items.length < 2 ^ 32) (rest : Bytes) :
    ofBytes K P ((ofItems K P capacity items last).toBytes ++ rest) capacity =
      .ok (ofItems K P capacity items last) := by
  have hlen := @length_toBytes _ _ K P capacity items last
  have hdrop4 : ((ofItems K P capacity items last).toBytes ++ rest).drop 4 =
      Bytes.ofWord last ++ ((items.map (record K P)).flatten ++ rest) := by
    simp only [toBytes, List.append_assoc, entries_ofItems, last_ofItems]
    exact List.drop_left' (Bytes.length_ofNat 4 _)
  have hdrop8 : ((ofItems K P capacity items last).toBytes ++ rest).drop 8 =
      (items.map (record K P)).flatten ++ rest := by
    rw [show 8 = 4 + 4 from rfl, ← List.drop_drop, hdrop4]
    exact List.drop_left' (Bytes.length_ofWord last)
  have hword : (Bytes.toWord ((ofItems K P capacity items last).toBytes ++ rest)).toNat =
      items.length := by
    simp only [toBytes, List.append_assoc, length_ofItems, Bytes.toWord_ofNat_append]
    exact UInt32.toNat_ofNat_of_lt hcount
  have hread := readEntries_records items.length h 0 headerSize rest
  have hlong : ¬ ((ofItems K P capacity items last).toBytes ++ rest).length < 8 := by
    rw [List.length_append, hlen]
    omega
  have hspan : ¬ (capacity < 8 + bytesOf K P items ∨
      ((ofItems K P capacity items last).toBytes ++ rest).length < 8 + bytesOf K P items) := by
    rw [List.length_append, hlen]
    omega
  rw [headerSize] at hread
  simp only [ofBytes, headerSize, if_neg hlong, hword, hdrop4, hdrop8, hread, if_neg hspan, bind,
    Except.bind, pure, Except.pure, Bytes.toWord_ofWord_append]
  rfl

/-! ### Keys and payloads -/

omit [P.Lawful]

theorem keyLength_record {i : κ × π} (h : WritesItem K P i) :
    keyLength K (record K P i) = .ok (K.width i.1) := by
  rw [keyLength]
  cases hf : K.fixedSize? with
  | none => simpa using sizeAt_record h []
  | some n => rw [Codec.width, Codec.Lawful.length_of_fixed hf h.1]

theorem cutEntry_record {i : κ × π} (h : WritesItem K P i) :
    cutEntry K (record K P i) = .ok (K.bytes i.1, P.bytes i.2) := by
  have hle : K.width i.1 ≤ (record K P i).length := by rw [length_record]; omega
  have htake : (record K P i).take (K.width i.1) = K.bytes i.1 := List.take_left' rfl
  have hdrop : (record K P i).drop (K.width i.1) = P.bytes i.2 := List.drop_left' rfl
  simp only [cutEntry, keyLength_record h, bind, Except.bind, if_pos hle, pure, Except.pure,
    htake, hdrop]

theorem keyOf_record {i : κ × π} (h : WritesItem K P i) :
    keyOf K (record K P i) = .ok (K.bytes i.1) := by
  rw [keyOf, cutEntry_record h]
  rfl

theorem payloadOf_record {i : κ × π} (h : WritesItem K P i) :
    payloadOf K (record K P i) = .ok (P.bytes i.2) := by
  rw [payloadOf, cutEntry_record h]
  rfl

theorem readKey_record {i : κ × π} (h : WritesItem K P i) :
    readKey K (record K P i) = .ok i.1 := by
  simp only [readKey, keyOf_record h, bind, Except.bind, Codec.decode_bytes h.1]

variable [P.Lawful]

theorem readPayload_record {i : κ × π} (h : WritesItem K P i) :
    readPayload K P (record K P i) = .ok i.2 := by
  simp only [readPayload, payloadOf_record h, bind, Except.bind, Codec.decode_bytes h.2]

theorem readItem_record {i : κ × π} (h : WritesItem K P i) :
    readItem K P (record K P i) = .ok i := by
  simp only [readItem, readKey_record h, readPayload_record h, bind, Except.bind, pure,
    Except.pure]

variable {capacity : Nat} {items : List (κ × π)} {last : BlockNumber} {n : Nat} {i : κ × π}

omit [LinearOrder κ] [K.Lawful] [P.Lawful] in
theorem entry_ofItems (hn : items[n]? = some i) :
    (ofItems K P capacity items last).entry n = .ok (record K P i) := by
  simp [entry, hn]

omit [P.Lawful] in
theorem keyBytes_ofItems (hn : items[n]? = some i) (h : WritesItem K P i) :
    (ofItems K P capacity items last).keyBytes n = .ok (K.bytes i.1) := by
  simp only [keyBytes, entry_ofItems hn, bind, Except.bind, keyOf_record h]

omit [P.Lawful] in
theorem key_ofItems (hn : items[n]? = some i) (h : WritesItem K P i) :
    (ofItems K P capacity items last).key n = .ok i.1 := by
  simp only [key, entry_ofItems hn, bind, Except.bind, readKey_record h]

theorem payload_ofItems (hn : items[n]? = some i) (h : WritesItem K P i) :
    (ofItems K P capacity items last).payload n = .ok i.2 := by
  simp only [payload, entry_ofItems hn, bind, Except.bind, readPayload_record h]

theorem item_ofItems (hn : items[n]? = some i) (h : WritesItem K P i) :
    (ofItems K P capacity items last).item n = .ok i := by
  simp only [item, entry_ofItems hn, bind, Except.bind, readItem_record h]

omit [P.Lawful] in
/-- All keys in order. -/
theorem keys_ofItems {items : List (κ × π)} {capacity : Nat} {last : BlockNumber}
    (h : ∀ i ∈ items, WritesItem K P i) :
    (ofItems K P capacity items last).keys = .ok (items.map fun i => K.bytes i.1) :=
  mapM_map_ok fun i hi => keyOf_record (h i hi)

/-- All items in order. -/
theorem items_ofItems {items : List (κ × π)} {capacity : Nat} {last : BlockNumber}
    (h : ∀ i ∈ items, WritesItem K P i) :
    (ofItems K P capacity items last).items = items.map .ok := by
  rw [Block.items, entries_ofItems, List.map_map]
  exact List.map_congr_left fun i hi => readItem_record (h i hi)

end Read

end Block

end PagedMap
