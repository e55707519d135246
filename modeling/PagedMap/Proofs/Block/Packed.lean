/-
# The table has where the entries begin

A block in memory lays entries out if its bytes behind the header are these entries one after
the other, and its table has the sums of the lengths before each (`Packed.Lays`). Then the table
tells exactly these entries apart (`Packed.Lays.unpack_eq`). Every change of the bytes keeps that:
opening a gap adds an entry (`Packed.Lays.insertIdx`), closing one takes an entry out
(`Packed.Lays.eraseIdx`), and the bytes of two blocks are the entries of both
(`Packed.Lays.append`). A block that is read from bytes lays out what the reader of blocks finds
in them, whatever the bytes are (`Packed.ofBytes_eq`).

Key definitions: `startsFrom`, `Packed.Lays`.
Key theorems: `Packed.Lays.unpack_eq`, `Packed.Lays.insertIdx`, `Packed.Lays.eraseIdx`,
`Packed.Lays.append`, `Packed.ofBytes_eq`.
-/
import PagedMap.Block.Packed
import PagedMap.Proofs.Block.Foreign

namespace PagedMap

open Block (mass mass_nil mass_cons mass_append headerSize)

/-! ### Where entries begin -/

/-- Where entries begin that follow each other from an offset on. -/
def startsFrom : Nat → List Bytes → List Nat
  | _, [] => []
  | offset, e :: es => offset :: startsFrom (offset + e.length) es

@[simp]
theorem startsFrom_nil (o : Nat) : startsFrom o [] = [] := rfl

@[simp]
theorem startsFrom_cons (o : Nat) (e : Bytes) (es : List Bytes) :
    startsFrom o (e :: es) = o :: startsFrom (o + e.length) es := rfl

@[simp]
theorem length_startsFrom (o : Nat) (es : List Bytes) : (startsFrom o es).length = es.length := by
  induction es generalizing o with
  | nil => rfl
  | cons e es ih => simp [ih]

theorem startsFrom_append (o : Nat) (xs ys : List Bytes) :
    startsFrom o (xs ++ ys) = startsFrom o xs ++ startsFrom (o + mass xs) ys := by
  induction xs generalizing o with
  | nil => simp
  | cons x xs ih => simp [ih, Nat.add_assoc]

/-- Entries that begin so much later. -/
theorem map_add_startsFrom (n o : Nat) (es : List Bytes) :
    (startsFrom o es).map (· + n) = startsFrom (o + n) es := by
  induction es generalizing o with
  | nil => rfl
  | cons e es ih => simp [ih, Nat.add_right_comm]

/-- Entries that begin so much earlier. -/
theorem map_sub_startsFrom (n o : Nat) (es : List Bytes) :
    (startsFrom (o + n) es).map (· - n) = startsFrom o es := by
  rw [← map_add_startsFrom, List.map_map]
  simp [Function.comp_def]

theorem length_flatten_eq_mass (es : List Bytes) : es.flatten.length = mass es := by
  induction es with
  | nil => rfl
  | cons e es ih => simp [ih]

namespace Packed

variable {κ π : Type} {K : OrderedCodec κ} {P : Codec π} {p q : Packed K P}
  {es xs ys : List Bytes} {e : Bytes}

/-- The block's bytes behind the header are these entries, and the table has where they begin. -/
structure Lays (p : Packed K P) (es : List Bytes) : Prop where
  headerSize_le : headerSize ≤ p.data.length
  drop_eq : p.data.drop headerSize = es.flatten
  starts_eq : p.starts = startsFrom headerSize es

theorem lays_empty (capacity : Nat) : (empty K P capacity).Lays [] :=
  ⟨Nat.le_refl _, rfl, rfl⟩

namespace Lays

theorem length_eq (h : p.Lays es) : p.length = es.length := by
  rw [length, h.starts_eq, length_startsFrom]

/-- Eight bytes and the entries. -/
theorem occupied_eq (h : p.Lays es) : p.occupied = headerSize + mass es := by
  have hlen := congrArg List.length h.drop_eq
  rw [List.length_drop, length_flatten_eq_mass] at hlen
  have := h.headerSize_le
  unfold occupied
  omega

/-- The entry after some others begins where these end. -/
theorem start_eq (h : p.Lays (xs ++ ys)) : p.start xs.length = headerSize + mass xs := by
  unfold start
  rw [h.starts_eq, startsFrom_append]
  cases ys with
  | nil =>
    have hend : p.data.length = headerSize + mass (xs ++ []) := h.occupied_eq
    simp [hend]
  | cons y ys => simp

/-- The bytes in front of an entry. -/
theorem take_start (h : p.Lays (xs ++ ys)) :
    p.data.take (p.start xs.length) = p.data.take headerSize ++ xs.flatten := by
  have hbytes : p.data = p.data.take headerSize ++ (xs.flatten ++ ys.flatten) := by
    rw [← List.flatten_append, ← h.drop_eq, List.take_append_drop]
  have hlen : (p.data.take headerSize ++ xs.flatten).length = p.start xs.length := by
    have := h.headerSize_le
    rw [h.start_eq, List.length_append, length_flatten_eq_mass, List.length_take]
    omega
  conv_lhs => rw [hbytes, ← List.append_assoc]
  exact List.take_left' hlen

/-- The bytes of an entry and of those behind it. -/
theorem drop_start (h : p.Lays (xs ++ ys)) : p.data.drop (p.start xs.length) = ys.flatten := by
  rw [h.start_eq, ← List.drop_drop, h.drop_eq, List.flatten_append]
  exact List.drop_left' (length_flatten_eq_mass xs)

theorem take_starts (h : p.Lays (xs ++ ys)) :
    p.starts.take xs.length = startsFrom headerSize xs := by
  rw [h.starts_eq, startsFrom_append]
  exact List.take_left' (length_startsFrom ..)

theorem drop_starts (h : p.Lays (xs ++ ys)) :
    p.starts.drop xs.length = startsFrom (headerSize + mass xs) ys := by
  rw [h.starts_eq, startsFrom_append]
  exact List.drop_left' (length_startsFrom ..)

/-- The next entry begins where an entry ends. -/
theorem start_succ (h : p.Lays (xs ++ e :: ys)) :
    p.start (xs.length + 1) = p.start xs.length + e.length := by
  have hnext : p.Lays ((xs ++ [e]) ++ ys) := by simpa using h
  have hlen := hnext.start_eq
  rw [List.length_append, List.length_singleton, mass_append, mass_cons, mass_nil] at hlen
  rw [hlen, h.start_eq]
  omega

/-- The table tells each entry from those around it. -/
theorem slice_eq (h : p.Lays (xs ++ e :: ys)) : p.slice xs.length = e := by
  unfold slice
  rw [h.start_succ, List.drop_take, h.drop_start, Nat.add_sub_cancel_left, List.flatten_cons]
  exact List.take_left' rfl

theorem slice_getElem (h : p.Lays es) {i : Nat} (hi : es[i]? = some e) : p.slice i = e := by
  have hsplit := eq_take_append_of_getElem? hi
  have hlen : (es.take i).length = i := by
    have := (List.getElem?_eq_some_iff.1 hi).1
    rw [List.length_take]
    omega
  rw [hsplit] at h
  simpa [hlen] using h.slice_eq

theorem entry_eq_iff (h : p.Lays es) {i : Nat} : p.entry i = .ok e ↔ es[i]? = some e := by
  rw [entry, h.length_eq]
  by_cases hi : i < es.length
  · rw [if_pos hi, h.slice_getElem (List.getElem?_eq_getElem hi), List.getElem?_eq_getElem hi]
    simp
  · rw [if_neg hi, List.getElem?_eq_none (Nat.not_lt.1 hi)]
    simp

/-- The table tells the entries apart. -/
theorem unpack_eq (h : p.Lays es) : p.unpack = ⟨p.capacity, es, p.last⟩ := by
  have hentries : (List.range p.length).map p.slice = es := by
    refine List.ext_getElem (by simp [h.length_eq]) fun i hi hi' => ?_
    simp [h.slice_getElem (List.getElem?_eq_getElem hi')]
  rw [unpack, hentries]

/-- What is written is what the block of the entries writes. -/
theorem toBytes_eq (h : p.Lays es) : p.toBytes = p.unpack.toBytes := by
  rw [toBytes, h.drop_eq, h.length_eq, h.unpack_eq, Block.toBytes, Block.length]

/-! ### Changing the entries -/

/-- The same eight bytes in front of other entries. -/
theorem of_data (h : p.Lays es) {fs : List Bytes}
    (hdata : q.data = p.data.take headerSize ++ fs.flatten)
    (hstarts : q.starts = startsFrom headerSize fs) : q.Lays fs := by
  have hlen : (p.data.take headerSize).length = headerSize :=
    List.length_take_of_le h.headerSize_le
  refine ⟨?_, ?_, hstarts⟩
  · rw [hdata, List.length_append, hlen]
    omega
  · rw [hdata]
    exact List.drop_left' hlen

/-- A gap for an entry moves the beginnings of those behind it. -/
theorem insertIdx (h : p.Lays (xs ++ ys)) (e : Bytes) :
    (p.insertIdx xs.length e).Lays (xs ++ e :: ys) := by
  apply h.of_data
  · simp only [Packed.insertIdx, h.take_start, h.drop_start]
    simp
  · simp only [Packed.insertIdx, h.take_starts, h.drop_starts, map_add_startsFrom, h.start_eq]
    rw [startsFrom_append, startsFrom_cons]

/-- Closing the gap of an entry moves the beginnings of those behind it back. -/
theorem eraseIdx (h : p.Lays (xs ++ e :: ys)) : (p.eraseIdx xs.length).Lays (xs ++ ys) := by
  have hnext : p.Lays ((xs ++ [e]) ++ ys) := by simpa using h
  have hlen : (xs ++ [e]).length = xs.length + 1 := List.length_append
  have hmass : mass (xs ++ [e]) = mass xs + e.length := by simp
  have hdata := hnext.drop_start
  have hstarts := hnext.drop_starts
  rw [hlen] at hdata hstarts
  rw [hmass, ← Nat.add_assoc] at hstarts
  apply h.of_data
  · simp only [Packed.eraseIdx, h.take_start, hdata]
    simp
  · simp only [Packed.eraseIdx, h.take_starts, hstarts, h.start_succ, Nat.add_sub_cancel_left,
      map_sub_startsFrom]
    rw [startsFrom_append]

/-- The entries of a second block begin behind those of the first. -/
theorem append (h : p.Lays xs) (h' : q.Lays ys) : (p.append q).Lays (xs ++ ys) := by
  have hend : p.data.length = headerSize + mass xs := h.occupied_eq
  have hmove : (startsFrom headerSize ys).map (· - headerSize + p.data.length) =
      startsFrom (headerSize + mass xs) ys := by
    have hback := map_sub_startsFrom headerSize 0 ys
    have hforth := map_add_startsFrom p.data.length 0 ys
    rw [Nat.zero_add] at hback hforth
    rw [← hend, ← hforth, ← hback, List.map_map]
    rfl
  apply h.of_data
  · simp only [Packed.append, h'.drop_eq]
    rw [List.flatten_append, ← List.append_assoc, ← h.drop_eq, List.take_append_drop]
  · simp only [Packed.append, h.starts_eq, h'.starts_eq, hmove]
    rw [startsFrom_append]

end Lays

/-! ### Reading a block -/

/-- No entry is found where the bytes end. -/
theorem readEntries_nil (count n index offset : Nat) :
    Block.readEntries K P count (n + 1) index offset [] =
      .error (.corruption (.blockEnds index count)) := rfl

/-- The reader of entries and that of beginnings find the same, or refuse for the same reason. -/
theorem readStarts_eq (bs : Bytes) (count n index offset : Nat) :
    readStarts K P bs count n index offset =
      (Block.readEntries K P count n index offset (bs.drop offset)).map fun r =>
        (startsFrom offset r.1, r.2) := by
  induction n generalizing index offset with
  | zero => rfl
  | succ n ih =>
    rw [readStarts, Block.readEntries]
    by_cases hend : (bs.drop offset).isEmpty
    · simp only [if_pos hend]
      rfl
    simp only [if_neg hend, ih, bind, Except.bind, pure, Except.pure]
    cases hk : K.sizeAt (bs.drop offset) with
    | error e => rfl
    | ok k =>
      dsimp only
      cases hm : P.sizeAt ((bs.drop offset).drop k) with
      | error e => rfl
      | ok m =>
        dsimp only
        rw [List.drop_drop]
        by_cases hin : k + m ≤ (bs.drop offset).length
        · have hlen : ((bs.drop offset).take (k + m)).length = k + m := List.length_take_of_le hin
          cases Block.readEntries K P count n (index + 1) (offset + (k + m))
            (bs.drop (offset + (k + m))) with
          | error e => rfl
          | ok r => simp only [Except.map, startsFrom_cons, hlen]
        · -- what goes on beyond the bytes can only be the last entry
          have hrest : bs.drop (offset + (k + m)) = [] := by
            rw [List.length_drop] at hin
            exact List.drop_of_length_le (by omega)
          cases n with
          | zero => rfl
          | succ n =>
            rw [hrest, readEntries_nil]
            rfl

/-- Entries that do not go on beyond the bytes are all the bytes up to where they end. -/
theorem readEntries_tile {count : Nat} : ∀ {n index offset stop : Nat} {rest : Bytes}
    {entries : List Bytes},
    Block.readEntries K P count n index offset rest = .ok (entries, stop) →
    stop ≤ offset + rest.length →
    entries.length = n ∧ offset + mass entries = stop ∧
      entries.flatten = rest.take (stop - offset)
  | 0, _, _, _, _, _, h, _ => by
    obtain ⟨rfl, rfl⟩ := Prod.mk.inj (Except.ok.inj h)
    simp
  | n + 1, index, offset, stop, rest, _, h, hstop => by
    obtain ⟨k, m, entries, -, -, hrest, rfl⟩ := Block.readEntries_succ h
    have hle := Block.le_of_readEntries hrest
    have hlen : (rest.take (k + m)).length = k + m := List.length_take_of_le (by omega)
    obtain ⟨hcount, hmass, hflat⟩ := readEntries_tile hrest (by rw [List.length_drop]; omega)
    refine ⟨by rw [List.length_cons, hcount], by rw [mass_cons, hlen]; omega, ?_⟩
    rw [List.flatten_cons, hflat, ← List.take_add]
    congr 1
    omega

/-- Bytes in which entries are found, and the table of these, lay them out. -/
theorem lays_read {bs : Bytes} {count stop capacity : Nat} {last : BlockNumber}
    (hread : Block.readEntries K P count count 0 headerSize (bs.drop headerSize) = .ok (es, stop))
    (hlong : headerSize ≤ bs.length) (hstop : stop ≤ bs.length) :
    (⟨capacity, bs.take stop, startsFrom headerSize es, last⟩ : Packed K P).Lays es := by
  have hle := Block.le_of_readEntries hread
  obtain ⟨-, -, hflat⟩ := readEntries_tile hread (by rw [List.length_drop]; omega)
  refine ⟨?_, ?_, rfl⟩
  · rw [List.length_take]
    omega
  · rw [List.drop_take, hflat]

/-- A block that is read is made of what is found in the bytes. -/
theorem exists_read {bs : Bytes} {capacity : Nat} (h : ofBytes K P bs capacity = .ok q) :
    ∃ es stop, Block.readEntries K P (Bytes.toWord bs).toNat (Bytes.toWord bs).toNat 0 headerSize
        (bs.drop headerSize) = .ok (es, stop) ∧
      headerSize ≤ bs.length ∧ stop ≤ capacity ∧ stop ≤ bs.length ∧
      q = ⟨capacity, bs.take stop, startsFrom headerSize es, Bytes.toWord (bs.drop 4)⟩ := by
  rw [ofBytes] at h
  split at h
  · cases h
  next hlong =>
    obtain ⟨⟨starts, stop⟩, hread, h⟩ := exists_of_bind_eq_ok h
    rw [readStarts_eq] at hread
    cases hentries : Block.readEntries K P (Bytes.toWord bs).toNat (Bytes.toWord bs).toNat 0
      headerSize (bs.drop headerSize) with
    | error e =>
      rw [hentries] at hread
      cases hread
    | ok r =>
      rw [hentries] at hread
      obtain ⟨rfl, rfl⟩ := Prod.mk.inj (Except.ok.inj hread)
      dsimp only at h
      split at h
      · cases h
      next hspan =>
        exact ⟨r.1, r.2, rfl, by omega, by omega, by omega, (Except.ok.inj h).symm⟩

/-- The reader of blocks finds the entries that the table tells apart, and refuses what is refused
here for the same reason. -/
theorem ofBytes_eq (bs : Bytes) (capacity : Nat) :
    (ofBytes K P bs capacity).map unpack = Block.ofBytes K P bs capacity := by
  rw [ofBytes, Block.ofBytes]
  by_cases hlong : bs.length < headerSize
  · rw [if_pos hlong, if_pos hlong]
    rfl
  rw [if_neg hlong, if_neg hlong]
  simp only [readStarts_eq, bind, Except.bind, pure, Except.pure]
  cases hread : Block.readEntries K P (Bytes.toWord bs).toNat (Bytes.toWord bs).toNat 0 headerSize
    (bs.drop headerSize) with
  | error e => rfl
  | ok r =>
    dsimp only [Except.map]
    by_cases hspan : capacity < r.2 ∨ bs.length < r.2
    · rw [if_pos hspan, if_pos hspan]
      rfl
    · rw [if_neg hspan, if_neg hspan]
      exact congrArg Except.ok (lays_read hread (by omega) (by omega)).unpack_eq

/-- A block that is read lays out its entries. -/
theorem lays_of_ofBytes {bs : Bytes} {capacity : Nat} (h : ofBytes K P bs capacity = .ok q) :
    q.Lays q.unpack.entries := by
  obtain ⟨es, stop, hread, hlong, -, hstop, rfl⟩ := exists_read h
  have hlays :
      Lays ⟨capacity, bs.take stop, startsFrom headerSize es, Bytes.toWord (bs.drop 4)⟩ es :=
    lays_read hread hlong hstop
  rwa [hlays.unpack_eq]

end Packed

end PagedMap
