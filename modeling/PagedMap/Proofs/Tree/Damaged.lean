/-
# A damaged descriptor is never taken for one

A descriptor is written exactly if its root and its size are signed words, and then it is read back
from a reserve that begins with what was written. If one of the twenty bytes is replaced, no
descriptor is read, neither this nor another (`Descriptor.encode_guarded`): a descriptor is read
only where the checksum of the first sixteen bytes is the one stored after them
(`Descriptor.checksum_of_decode`), and a byte that is replaced changes the one or the other.

Key theorems: `Descriptor.checksum_of_decode`, `Descriptor.decode_damaged`,
`Descriptor.encode_guarded`.
-/
import PagedMap.Proofs.Codec.Checksum
import PagedMap.Proofs.Tree.Descriptor

namespace PagedMap.Descriptor

variable {d found : Descriptor} {bs rest : Bytes} {i : Nat} {b : UInt8}

/-- Only where the checksum is right a descriptor is read. -/
theorem checksum_of_decode (h : decode bs = .ok (some found)) :
    Checksum.ofBytes (bs.take 16) = Bytes.toWord (bs.drop 16) := by
  rw [decode] at h
  dsimp only at h
  split at h
  · cases h
  split at h
  · cases h
  split at h
  · cases h
  next hsame => exact not_not.1 hsame

/-- What is written is the fields and their checksum. -/
theorem eq_of_encode (h : d.encode = .ok bs) :
    bs = d.fields ++ Bytes.ofWord (Checksum.ofBytes d.fields) := by
  rw [encode] at h
  split at h
  · cases h
  split at h
  · cases h
  exact (Except.ok.inj h).symm

/-- The words of different bytes differ. -/
theorem toWord_set_ne {w : UInt32} (hi : i < (Bytes.ofWord w).length)
    (hb : b ≠ (Bytes.ofWord w)[i]) : Bytes.toWord ((Bytes.ofWord w).set i b ++ rest) ≠ w := by
  intro h
  have hlen : ((Bytes.ofWord w).set i b).length = 4 := by simp
  have hlong : 4 ≤ ((Bytes.ofWord w).set i b ++ rest).length := by simp
  have hdigits := Bytes.ofNat_toWord hlong
  rw [h, List.take_left' hlen] at hdigits
  have hbyte : (Bytes.ofWord w)[i]? = ((Bytes.ofWord w).set i b)[i]? := congrArg (·[i]?) hdigits
  rw [List.getElem?_set_self hi, List.getElem?_eq_getElem hi] at hbyte
  exact hb (Option.some.inj hbyte).symm

/-- Where one of the bytes is replaced no descriptor is read. -/
theorem decode_damaged (h : d.encode = .ok bs) (hi : i < bs.length) (hb : b ≠ bs[i]) :
    decode (bs.set i b ++ rest) ≠ .ok (some found) := by
  intro hread
  have hchecksum := checksum_of_decode hread
  obtain rfl := eq_of_encode h
  have hfields := d.length_fields
  by_cases hfield : i < d.fields.length
  · -- the checksum that is computed changes
    have hset : (d.fields.set i b).length = 16 := by simpa using hfields
    rw [List.set_append_left _ _ hfield, List.append_assoc, List.take_left' hset,
      List.drop_left' hset, Bytes.toWord_ofWord_append] at hchecksum
    rw [List.getElem_append_left hfield] at hb
    exact Checksum.ofBytes_set_ne hfield hb hchecksum
  · -- the checksum that is stored changes
    rw [Nat.not_lt] at hfield
    rw [List.set_append_right _ _ hfield, List.append_assoc, List.take_left' hfields,
      List.drop_left' hfields] at hchecksum
    rw [List.getElem_append_right hfield] at hb
    exact toWord_set_ne _ hb hchecksum.symm

/-- It is known in advance whether a descriptor can be written. -/
theorem encode_fails_iff (hsize : 0 ≤ d.size) :
    (∃ e, d.encode = .error e) ↔ maxInt32 < d.root.toNat ∨ maxInt32 < d.size := by
  have hlength : (d.length : Int) = d.size := by
    rw [length, if_pos hsize]
    exact Int.toNat_of_nonneg hsize
  rw [encode]
  split
  next hroot => exact ⟨fun _ => .inl hroot, fun _ => ⟨_, rfl⟩⟩
  next hroot =>
    split
    next hlarge => exact ⟨fun _ => .inr (by omega), fun _ => ⟨_, rfl⟩⟩
    next hsmall =>
      constructor
      · rintro ⟨e, he⟩
        cases he
      · rintro (hroot' | hlarge)
        · exact absurd hroot' hroot
        · omega

/-- **A descriptor is read back, and a damaged one is never read.** It is written exactly if root
and size are signed words. What is written has twenty bytes; it is read back whatever follows; and
if one of its bytes is replaced by another then no descriptor is read. -/
theorem encode_guarded (hsize : 0 ≤ d.size) :
    ((∃ e, d.encode = .error e) ↔ maxInt32 < d.root.toNat ∨ maxInt32 < d.size) ∧
    (d.root.toNat ≤ maxInt32 → d.size ≤ maxInt32 → ∃ bs, d.encode = .ok bs ∧ bs.length = 20 ∧
      (-1 ≤ d.leafLevel → d.leafLevel ≤ maxInt32 → ∀ rest, decode (bs ++ rest) = .ok (some d)) ∧
      ∀ (i : Fin bs.length) (b : UInt8), b ≠ bs[i] → ∀ rest found,
        decode (bs.set i b ++ rest) ≠ .ok (some found)) := by
  refine ⟨encode_fails_iff hsize, fun hroot hsmall => ?_⟩
  cases hencode : d.encode with
  | error e =>
    have hlarge := (encode_fails_iff hsize).1 ⟨e, hencode⟩
    omega
  | ok bs =>
    exact ⟨bs, rfl, length_of_encode hencode,
      fun hlow hhigh rest => decode_encode hencode hlow hhigh hsize rest,
      fun i b hb rest found => decode_damaged hencode i.isLt hb⟩

/-- The greatest root and size; in the mark, where only the lowest bit is looked at first, another
bit is set. -/
theorem encode_guarded_greatest :
    let d : Descriptor := ⟨0x7FFFFFFF, -1, 0x7FFFFFFF⟩
    let bs : Bytes := [0x7F, 0xFF, 0xFF, 0xFF, 0xFF, 0xFF, 0xFF, 0xFF, 0x7F, 0xFF, 0xFF, 0xFF,
      0, 0, 0, 1, 0x99, 0xC9, 0xBE, 0x41]
    0 ≤ d.size ∧ d.encode = .ok bs ∧ decode (bs ++ [7]) = .ok (some d) ∧ (3 : UInt8) ≠ bs[15] ∧
      ∀ rest found, decode (bs.set 15 3 ++ rest) ≠ .ok (some found) := by
  intro d bs
  have hencode : d.encode = .ok bs := by decide +kernel
  obtain ⟨-, hwritten⟩ := encode_guarded (d := d) (by decide)
  obtain ⟨bs', hencode', -, hread, hdamaged⟩ := hwritten (by decide) (by decide)
  obtain rfl : bs = bs' := Except.ok.inj (hencode.symm.trans hencode')
  exact ⟨by decide, hencode, hread (by decide) (by decide) [7], by decide,
    hdamaged 15 3 (by decide)⟩

end PagedMap.Descriptor
