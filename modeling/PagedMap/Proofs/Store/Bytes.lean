/-
# Reading and writing a file

What is written is read back, and what is read elsewhere stays as it was
(`File.window_write`, `File.window_write_of_disjoint`). Within its length a file
is the same whether it is mapped or not.

Key definition: `File.toList`.
Key theorems: `File.toList_write`, `File.window_write`,
`File.window_write_of_disjoint`.
-/
import Mathlib.Algebra.Order.Ring.Int
import Mathlib.Data.List.Basic
import PagedMap.File

namespace PagedMap.File

variable {f : File} {offset n o : Nat} {data : Bytes}

/-- The bytes of a file as a list. -/
def toList (f : File) : Bytes := f.bytes.data.toList

theorem length_toList (f : File) : f.toList.length = f.size := by
  rw [toList, Array.length_toList, ByteArray.size_data]
  rfl

theorem window_eq (f : File) (offset n : Nat) :
    f.window offset n = (f.toList.drop offset).take n := by
  rw [window, ByteArray.data_extract, Array.toList_extract, List.extract_eq_take_drop,
    Nat.add_sub_cancel_left]
  rfl

theorem toList_extend (f : File) (n : Nat) :
    (f.extend n).toList = f.toList ++ List.replicate (n - f.size) 0 := by
  rw [extend]
  split
  · rw [toList, data_addZeros, Array.toList_append, Array.toList_replicate]
    rfl
  · next h =>
    rw [Nat.sub_eq_zero_of_le (Nat.not_lt.1 h), List.replicate_zero, List.append_nil]

theorem size_extend (f : File) (n : Nat) : (f.extend n).size = max f.size n := by
  rw [← length_toList, toList_extend, List.length_append, List.length_replicate, length_toList]
  omega

/-- Extending a file changes nothing that was there. -/
theorem window_extend (h : o + n ≤ f.size) (m : Nat) :
    (f.extend m).window o n = f.window o n := by
  have hle : o + n ≤ f.toList.length := by
    rw [length_toList]
    exact h
  rw [window_eq, window_eq, toList_extend, List.drop_append_of_le_length (by omega),
    List.take_append_of_le_length (by rw [List.length_drop]; omega)]

/-- What is written comes between what was before and what was behind it. -/
theorem toList_write (f : File) (offset : Nat) (hdata : data ≠ []) :
    (f.write offset data).toList =
      (f.toList ++ List.replicate (offset - f.size) 0).take offset ++ data ++
        f.toList.drop (offset + data.length) := by
  obtain ⟨b, data, rfl⟩ := List.exists_cons_of_ne_nil hdata
  have hdrop : (f.extend offset).toList.drop (offset + (b :: data).length) =
      f.toList.drop (offset + (b :: data).length) := by
    have hzero : offset - f.size - (offset + (b :: data).length - f.size) = 0 := by
      rw [List.length_cons]
      omega
    rw [toList_extend, List.drop_append, List.drop_replicate, length_toList, hzero,
      List.replicate_zero, List.append_nil]
  have htake (k : Nat) : ((f.extend offset).toList.drop k).take ((f.extend offset).size - k) =
      (f.extend offset).toList.drop k :=
    List.take_of_length_le (Nat.le_of_eq (by rw [List.length_drop, length_toList]))
  rw [← hdrop, ← toList_extend, ← htake]
  simp [write, toList, size, ByteArray.copySlice, List.data_toByteArray, Array.toList_extract,
    List.extract_eq_take_drop]

theorem size_write (f : File) (offset : Nat) (hdata : data ≠ []) :
    (f.write offset data).size = max f.size (offset + data.length) := by
  rw [← length_toList, toList_write f offset hdata]
  simp only [List.length_append, List.length_take, List.length_replicate, List.length_drop,
    length_toList]
  omega

theorem size_le_write (f : File) (offset : Nat) (data : Bytes) :
    f.size ≤ (f.write offset data).size := by
  by_cases hdata : data = []
  · subst hdata
    exact Nat.le_refl _
  · rw [size_write f offset hdata]
    exact Nat.le_max_left ..

theorem length_before (f : File) (offset : Nat) :
    ((f.toList ++ List.replicate (offset - f.size) 0).take offset).length = offset := by
  simp only [List.length_take, List.length_append, List.length_replicate, length_toList]
  omega

/-- What was written is read back, and behind it what was there before. -/
theorem window_write (f : File) (offset : Nat) (h : data.length ≤ n) :
    (f.write offset data).window offset n = data ++ (f.window offset n).drop data.length := by
  by_cases hdata : data = []
  · subst hdata
    rfl
  · rw [window_eq, window_eq, toList_write f offset hdata, List.append_assoc,
      List.drop_left' (length_before f offset), List.take_append, List.take_of_length_le h,
      List.drop_take, List.drop_drop]

theorem window_write_self (f : File) (offset : Nat) (data : Bytes) :
    (f.write offset data).window offset data.length = data := by
  rw [window_write f offset (Nat.le_refl _), window_eq,
    List.drop_eq_nil_of_le (List.length_take_le ..), List.append_nil]

/-- What does not meet what is written is read as before. -/
theorem window_write_of_disjoint
    (h : o + n ≤ offset ∧ o + n ≤ f.size ∨ offset + data.length ≤ o) :
    (f.write offset data).window o n = f.window o n := by
  by_cases hdata : data = []
  · subst hdata
    rfl
  · have hlen := length_before f offset
    rw [window_eq, window_eq, toList_write f offset hdata]
    rcases h with ⟨hle, hsize⟩ | hle
    · have hsize' : o + n ≤ f.toList.length := by
        rw [length_toList]
        exact hsize
      rw [List.append_assoc, List.drop_append_of_le_length (by omega),
        List.take_append_of_le_length (by rw [List.length_drop]; omega), List.drop_take,
        List.take_take, Nat.min_eq_left (by omega), List.drop_append_of_le_length (by omega),
        List.take_append_of_le_length (by rw [List.length_drop]; omega)]
    · have hlen' : ((f.toList ++ List.replicate (offset - f.size) 0).take offset ++ data).length =
          offset + data.length := by
        rw [List.length_append, hlen]
      rw [List.drop_append, List.drop_eq_nil_of_le (by omega), List.nil_append, List.drop_drop,
        hlen', Nat.add_sub_cancel' hle]

/-- A mapped file is written like another where it is long enough. -/
theorem writeMapped_eq (h : offset + data.length ≤ f.size) :
    f.writeMapped offset data = f.write offset data := by
  rw [writeMapped, List.take_of_length_le (by omega)]

theorem length_window (h : offset + n ≤ f.size) : (f.window offset n).length = n := by
  rw [window_eq, List.length_take, List.length_drop, length_toList]
  omega

theorem readMapped_eq (h : offset + n ≤ f.size) :
    f.readMapped offset n = f.window offset n := by
  have hlen := length_window h
  rw [readMapped, Bytes.fit_eq (Nat.le_of_eq hlen), hlen, Nat.sub_self, List.replicate_zero,
    List.append_nil]

theorem read_eq (h : offset + n ≤ f.size) : f.read offset n = .ok (f.window offset n) := by
  rw [read]
  exact if_pos (length_window h)

end PagedMap.File
