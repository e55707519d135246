/-
# Files

A file is a byte array that grows. Writing past its end fills the gap with
zeros; reading past its end fails. A part of a file can also be mapped: then
reading past the end gives zeros, and what is written past the end is lost.

Key definitions: `File`, `File.read`, `File.write`, `File.resize`,
`File.readMapped`, `File.writeMapped`.
Key theorem: `File.data_addZeros`.
-/
import PagedMap.Checksum
import PagedMap.Error

namespace PagedMap

/-- The content of a file. -/
structure File where
  bytes : ByteArray

namespace File

/-- A file without content. -/
def empty : File := ⟨ByteArray.empty⟩

/-- A file of the given bytes. -/
def ofBytes (bs : Bytes) : File := ⟨bs.toByteArray⟩

/-- The length. -/
def size (f : File) : Nat := f.bytes.size

/-- The bytes from an offset on, `n` at most. -/
def window (f : File) (offset n : Nat) : Bytes :=
  (f.bytes.extract offset (offset + n)).data.toList

/-- All bytes. -/
def toBytes (f : File) : Bytes := f.window 0 f.size

/-- Reads `n` bytes from an offset on. -/
def read (f : File) (offset n : Nat) : Except Error Bytes :=
  let bs := f.window offset n
  if bs.length = n then .ok bs else .error (.io .unexpectedEof)

/-- The number of zeros that are added at a time. -/
def runLength : Nat := 4096

/-- A run of zeros. -/
def run : ByteArray := ⟨Array.replicate runLength 0⟩

/-- Adds `k` runs of zeros. -/
def addRuns : Nat → ByteArray → ByteArray
  | 0, bytes => bytes
  | k + 1, bytes => addRuns k (bytes ++ run)

/-- Adds `n` zeros, run by run so that a long file is not built byte by byte. -/
def addZeros (n : Nat) (bytes : ByteArray) : ByteArray :=
  addRuns (n / runLength) (bytes ++ ⟨Array.replicate (n % runLength) 0⟩)

/-- Adds zeros up to a length. -/
def extend (f : File) (n : Nat) : File :=
  if f.size < n then ⟨addZeros (n - f.size) f.bytes⟩ else f

/-- Writes bytes from an offset on. -/
def write (f : File) (offset : Nat) (data : Bytes) : File :=
  match data with
  | [] => f
  | data => ⟨data.toByteArray.copySlice 0 (f.extend offset).bytes offset data.length⟩

/-- Cuts or extends the file to a length. -/
def resize (f : File) (n : Nat) : File :=
  if n < f.size then ⟨f.bytes.extract 0 n⟩ else f.extend n

/-- Reads `n` bytes from an offset on of a mapped file. -/
def readMapped (f : File) (offset n : Nat) : Bytes := (f.window offset n).fit n

/-- Writes bytes from an offset on of a mapped file. -/
def writeMapped (f : File) (offset : Nat) (data : Bytes) : File :=
  f.write offset (data.take (f.size - offset))

/-- The checksum of the content. -/
def checksum (f : File) : UInt32 :=
  f.bytes.foldl Checksum.absorb 0xFFFFFFFF ^^^ 0xFFFFFFFF

theorem data_addRuns : ∀ (k : Nat) (bytes : ByteArray),
    (addRuns k bytes).data = bytes.data ++ Array.replicate (k * runLength) 0
  | 0, bytes => by simp [addRuns]
  | k + 1, bytes => by
    simp only [addRuns, data_addRuns k, ByteArray.data_append, run, Array.append_assoc]
    rw [Array.replicate_append_replicate, Nat.succ_mul, Nat.add_comm]

/-- Adding zeros in runs adds as many zeros as asked for. -/
theorem data_addZeros (n : Nat) (bytes : ByteArray) :
    (addZeros n bytes).data = bytes.data ++ Array.replicate n 0 := by
  simp only [addZeros, data_addRuns, ByteArray.data_append, Array.append_assoc]
  rw [Array.replicate_append_replicate, Nat.mod_add_div' n runLength]

end File

end PagedMap
