/-
# Blocks are read as they were written

The written form of a block tells how many entries there are and where they go on to, but not
where one ends: the reader asks the codecs, and looks only in the end whether it has gone beyond
the bytes. Of what a block with lawful codecs has written it finds the same entries again,
whatever follows them. And from any bytes whatever it finds entries that lie one behind the other
without a gap from the header on, as many as the header tells, so that the block writes the same
bytes again (`Packed.read_written`).

Key theorems: `Packed.Lays.tiles`, `Packed.data_read`, `Packed.toBytes_read`,
`Packed.read_written`.
-/
import PagedMap.Proofs.Block.Packed
import PagedMap.Proofs.Codec.Kinds

namespace PagedMap

namespace Packed

open Block (headerSize record WritesItem ofItems)

variable {κ π : Type} {K : OrderedCodec κ} {P : Codec π} {p q : Packed K P} {es : List Bytes}

/-- The pieces from each beginning to the next lie one behind the other, the first behind the
header, the last before the end. -/
theorem Lays.tiles (h : p.Lays es) :
    p.start 0 = headerSize ∧ p.start p.length = p.occupied ∧
      ∀ n < p.length, p.start n ≤ p.start (n + 1) ∧ p.start (n + 1) ≤ p.occupied ∧
        p.entry n = .ok ((p.data.take (p.start (n + 1))).drop (p.start n)) := by
  have hfirst : p.Lays ([] ++ es) := h
  refine ⟨hfirst.start_eq, by simp [start, length, occupied], fun n hn => ?_⟩
  have hentry : p.entry n = .ok ((p.data.take (p.start (n + 1))).drop (p.start n)) := by
    rw [entry, if_pos hn, slice]
  rw [h.length_eq] at hn
  have hlen : (es.take n).length = n := by
    rw [List.length_take]
    omega
  have hsplit := eq_take_append_of_getElem? (List.getElem?_eq_getElem hn)
  rw [hsplit] at h
  have hstart := h.start_eq
  have hnext := h.start_succ
  have hend := h.occupied_eq
  rw [hlen] at hstart hnext
  rw [Block.mass_append, Block.mass_cons] at hend
  exact ⟨by omega, by omega, hentry⟩

/-- A block that is read has the bytes up to the end of its last entry, which is within them and
within its capacity, and as many entries as the first word tells. -/
theorem data_read {bs : Bytes} {capacity : Nat} (h : ofBytes K P bs capacity = .ok q) :
    q.data = bs.take q.occupied ∧ q.occupied ≤ capacity ∧ q.occupied ≤ bs.length ∧
      q.length = (Bytes.toWord bs).toNat := by
  obtain ⟨es, stop, hread, hlong, hcap, hstop, rfl⟩ := exists_read h
  obtain ⟨hcount, -, -⟩ := readEntries_tile hread (by
    rw [List.length_drop]
    omega)
  have hocc : (bs.take stop).length = stop := List.length_take_of_le hstop
  simp only [occupied, length, hocc, length_startsFrom, hcount]
  exact ⟨trivial, hcap, hstop, trivial⟩

/-- A block of no more bytes than a word can tell has no more entries than a word can count. -/
theorem Lays.length_lt [LinearOrder κ] [K.Lawful] {items : List (κ × π)}
    (h : p.Lays (items.map (record K P))) (hw : ∀ i ∈ items, WritesItem K P i)
    (hfit : p.occupied ≤ p.capacity) (hcapacity : p.capacity ≤ UInt32.size) :
    p.length < UInt32.size := by
  have hocc := h.occupied_eq
  have hmany := Block.length_le_bytesOf hw
  rw [Block.mass_records, headerSize] at hocc
  rw [h.length_eq, List.length_map]
  omega

/-- What a block writes that was read are the bytes that it was read from. -/
theorem toBytes_read {bs : Bytes} {capacity : Nat} (h : ofBytes K P bs capacity = .ok q) :
    q.toBytes = bs.take q.occupied := by
  obtain ⟨es, stop, hread, hlong, -, hstop, rfl⟩ := exists_read h
  have hle := Block.le_of_readEntries hread
  have hlen : headerSize = 8 := rfl
  obtain ⟨hcount, -, -⟩ := readEntries_tile hread (by rw [List.length_drop]; omega)
  have hnumber : Bytes.ofNat 4 es.length = bs.take 4 := by
    rw [hcount]
    exact Bytes.ofNat_toWord (by omega)
  have hlast : Bytes.ofWord (Bytes.toWord (bs.drop 4)) = (bs.drop 4).take 4 :=
    Bytes.ofNat_toWord (by rw [List.length_drop]; omega)
  have hwords : bs.take 4 ++ (bs.drop 4).take 4 = (bs.take stop).take headerSize := by
    rw [← List.take_add, List.take_take, Nat.min_eq_left hle]
    rfl
  have hocc : (bs.take stop).length = stop := List.length_take_of_le hstop
  simp only [toBytes, length, occupied, length_startsFrom, hnumber, hlast, hwords, hocc,
    List.take_append_drop]

/-- **Blocks are read as they were written.** Whatever follows the written form of a block whose
entries are those of items, in no more bytes than it may have and no more entries than the word
in front of them can count (a block of up to 2 ^ 32 bytes has not more, `Lays.length_lt`), a block
is read of the same entries, beginnings and pointer. And if a
block is read from any bytes, it writes the bytes that its entries occupy, which is within its
capacity; its entries are as many as the first word tells and lie one behind the other in them,
the first behind the header, the last before the end. -/
theorem read_written [LinearOrder κ] [K.Lawful] [P.Lawful] :
    (∀ (p : Packed K P) (items : List (κ × π)), p.Lays (items.map (record K P)) →
      (∀ i ∈ items, WritesItem K P i) → p.occupied ≤ p.capacity → p.length < UInt32.size →
      ∀ rest, Block.ofBytes K P (p.toBytes ++ rest) p.capacity = .ok p.unpack ∧
        ∃ q, ofBytes K P (p.toBytes ++ rest) p.capacity = .ok q ∧ q.unpack = p.unpack ∧
          q.starts = p.starts ∧ q.unpack.items = items.map .ok) ∧
    ∀ (bs : Bytes) (capacity : Nat) (q : Packed K P), ofBytes K P bs capacity = .ok q →
      Block.ofBytes K P bs capacity = .ok q.unpack ∧ q.toBytes = bs.take q.occupied ∧
        q.length = (Bytes.toWord bs).toNat ∧ q.occupied ≤ capacity ∧ q.occupied ≤ bs.length ∧
        q.start 0 = headerSize ∧ q.start q.length = q.occupied ∧
        ∀ n < q.length, q.start n ≤ q.start (n + 1) ∧
          q.entry n = .ok ((bs.take (q.start (n + 1))).drop (q.start n)) := by
  constructor
  · intro p items h hw hfit hcount rest
    have hunpack : p.unpack = ofItems K P p.capacity items p.last := h.unpack_eq
    have hmass : 8 + Block.bytesOf K P items ≤ p.capacity := by
      rw [← Block.mass_records]
      exact h.occupied_eq ▸ hfit
    have hitems : items.length < 2 ^ 32 := by
      rw [h.length_eq, List.length_map] at hcount
      exact hcount
    have hread := @Block.ofBytes_toBytes _ _ K P _ _ _ p.capacity items p.last hw hmass hitems rest
    rw [← hunpack, ← h.toBytes_eq] at hread
    refine ⟨hread, ?_⟩
    rw [← ofBytes_eq] at hread
    cases hq : ofBytes K P (p.toBytes ++ rest) p.capacity with
    | error e =>
      rw [hq] at hread
      cases hread
    | ok q =>
      rw [hq] at hread
      have hsame : q.unpack = p.unpack := Except.ok.inj hread
      have hstarts := (lays_of_ofBytes hq).starts_eq
      rw [hsame, hunpack] at hstarts
      refine ⟨q, rfl, hsame, hstarts.trans h.starts_eq.symm, ?_⟩
      rw [hsame, hunpack]
      exact Block.items_ofItems hw
  · intro bs capacity q h
    have hlays := lays_of_ofBytes h
    obtain ⟨hfirst, hend, htile⟩ := hlays.tiles
    have hblock := ofBytes_eq (K := K) (P := P) bs capacity
    rw [h] at hblock
    obtain ⟨hdata, hcap, hlong, hcount⟩ := data_read h
    refine ⟨hblock.symm, toBytes_read h, hcount, hcap, hlong, hfirst, hend, fun n hn => ?_⟩
    obtain ⟨hle, hin, hentry⟩ := htile n hn
    refine ⟨hle, ?_⟩
    rw [hentry, hdata, List.take_take, Nat.min_eq_left hin]

/-- Two entries of different lengths that fill their block are read again from before other bytes,
and the second of them is found where the first ends. -/
theorem read_written_padded :
    ∃ q : Packed KeyKind.byteString.codec word32.toCodec,
      ofBytes KeyKind.byteString.codec word32.toCodec
          ([0, 0, 0, 2, 0, 0, 0, 42, 0, 0, 0, 0, 0, 0, 0, 9, 0, 0, 0, 1, 0x61, 0, 0, 0, 7] ++
            [0, 0, 0, 0, 3]) 25 = .ok q ∧
        q.starts = [8, 16] ∧ q.unpack.items = [.ok ([], 9), .ok ([0x61], 7)] ∧
        q.toBytes.length = q.occupied ∧ q.occupied ≤ 25 ∧
        q.entry 1 = .ok [0, 0, 0, 1, 0x61, 0, 0, 0, 7] := by
  let p : Packed KeyKind.byteString.codec word32.toCodec :=
    ⟨25, List.replicate 8 0 ++ [0, 0, 0, 0, 0, 0, 0, 9, 0, 0, 0, 1, 0x61, 0, 0, 0, 7], [8, 16], 42⟩
  obtain ⟨hwritten, hread⟩ := read_written (K := KeyKind.byteString.codec) (P := word32.toCodec)
  have hlays : p.Lays ([([], 9), ([0x61], 7)].map (record KeyKind.byteString.codec word32.toCodec)) :=
    ⟨by decide, by decide, by decide⟩
  have hw : ∀ i ∈ [([], 9), ([0x61], 7)], WritesItem KeyKind.byteString.codec word32.toCodec i := by
    intro i hi
    rcases List.mem_cons.1 hi with rfl | hi
    · exact ⟨rfl, rfl⟩
    · rw [List.mem_singleton.1 hi]
      exact ⟨rfl, rfl⟩
  obtain ⟨-, q, hq, hsame, hstarts, hitems⟩ := hwritten p _ hlays hw (by decide)
    (hlays.length_lt hw (by decide) (by decide)) [0, 0, 0, 0, 3]
  have hwrite : p.toBytes =
      [0, 0, 0, 2, 0, 0, 0, 42, 0, 0, 0, 0, 0, 0, 0, 9, 0, 0, 0, 1, 0x61, 0, 0, 0, 7] := by decide
  rw [hwrite] at hq
  obtain ⟨-, hbytes, -, hcap, hlong, -, hend, htile⟩ := hread _ _ _ hq
  have hlen : q.toBytes.length = q.occupied := by
    rw [hbytes]
    exact List.length_take_of_le hlong
  refine ⟨q, hq, hstarts, hitems, hlen, hcap, ?_⟩
  have htwo : q.length = 2 := congrArg List.length hstarts
  have hlast : q.start 2 = 25 := by
    rw [← htwo, hend, ← hlen, (lays_of_ofBytes hq).toBytes_eq, hsame]
    decide
  have hsecond : q.start 1 = 16 := by
    rw [start, hstarts]
    rfl
  rw [(htile 1 (by omega)).2, hsecond, hlast]
  rfl

end Packed

end PagedMap
