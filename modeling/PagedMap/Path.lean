/-
# Paths into one directory

A path is a row of parts with slashes between them. The part `.` stays in the
directory it is met in, and so does an empty part, the one between two slashes.
A path whose parts all stay, but for a name at its end, leads to the file of
that name: `./a` and `a` are two paths to one file (`Path.name?_dot`), and a
bare name leads to itself (`Path.name?_of_plain`). A path that starts at the
root, enters or leaves a directory, or ends in no name leads to no file. A path
with no name in it, such as `.` or `../`, leads to a directory, and then to no
file (`Path.name?_of_isDirectory`). Names and paths have a greatest length in
bytes, and longer ones lead nowhere.

Key definitions: `Path.parts`, `Path.name?`, `Path.isDirectory`.
Key theorems: `Path.name?_of_plain`, `Path.name?_dot`,
`Path.name?_of_isDirectory`.
-/

namespace PagedMap.Path

/-- The most bytes that a path may have. -/
def maxPathBytes : Nat := 4095

/-- The most bytes that a name may have. -/
def maxNameBytes : Nat := 255

/-- The number of bytes that a text takes. -/
def byteCount : List Char → Nat
  | [] => 0
  | c :: cs => c.utf8Size + byteCount cs

/-- The parts of a path, cut at its slashes. -/
def parts : List Char → List (List Char)
  | [] => [[]]
  | c :: cs =>
    if c = '/' then [] :: parts cs
    else match parts cs with
      | [] => [[c]]
      | p :: ps => (c :: p) :: ps

/-- Whether a part stays in the directory it is met in. -/
def staysHere (part : List Char) : Bool := part = [] || part = ['.']

/-- Whether a part leads to a directory wherever it is met. -/
def isStep (part : List Char) : Bool := staysHere part || part = ['.', '.']

/-- Whether a part can be the name of a file. -/
def isName (part : List Char) : Bool :=
  !isStep part && !part.contains '\x00' && byteCount part ≤ maxNameBytes

/-- The name at the end of parts that stay in the directory. -/
def lastName? : List (List Char) → Option (List Char)
  | [] => none
  | [p] => if isName p then some p else none
  | p :: ps => if staysHere p then lastName? ps else none

/-- The name that a path leads to in the directory, if it leads to one. -/
def name? (path : String) : Option String :=
  if path.toList.head? = some '/' || maxPathBytes < byteCount path.toList then none
  else (lastName? (parts path.toList)).map String.ofList

/-- Whether a path leads to this directory, to one above it or to the root. -/
def isDirectory (path : String) : Bool :=
  path ≠ "" && byteCount path.toList ≤ maxPathBytes && (parts path.toList).all isStep

/-- A text without a slash is one part. -/
theorem parts_of_not_mem : ∀ cs : List Char, '/' ∉ cs → parts cs = [cs]
  | [], _ => rfl
  | c :: cs, h => by
    have hc : c ≠ '/' := fun e => h (by simp [e])
    have hcs : '/' ∉ cs := fun e => h (by simp [e])
    simp [parts, hc, parts_of_not_mem cs hcs]

/-- A path that is a name leads to that name. -/
theorem name?_of_plain (path : String) (h : '/' ∉ path.toList) (hn : isName path.toList) :
    name? path = some path := by
  have hh : path.toList.head? ≠ some '/' := fun e => h (List.mem_of_head? e)
  have hl : ¬ maxPathBytes < byteCount path.toList := by
    have : byteCount path.toList ≤ maxNameBytes := by
      simp only [isName, Bool.and_eq_true, decide_eq_true_eq] at hn
      exact hn.2
    simp only [maxNameBytes, maxPathBytes] at this ⊢
    omega
  simp [name?, hh, hl, parts_of_not_mem _ h, lastName?, hn]

/-- A text has at least one part. -/
theorem parts_ne_nil : ∀ cs : List Char, parts cs ≠ []
  | [] => by simp [parts]
  | c :: cs => by
    by_cases hc : c = '/'
    · simp [parts, hc]
    · cases hs : parts cs <;> simp [parts, hc, hs]

/-- Going through the directory itself leads to the same name. -/
theorem name?_dot (path : String) (h : path.toList.head? ≠ some '/')
    (hl : byteCount path.toList + 2 ≤ maxPathBytes) : name? ("./" ++ path) = name? path := by
  have hd : byteCount ('.' :: '/' :: path.toList) = byteCount path.toList + 2 := by
    simp only [byteCount]
    have : '.'.utf8Size = 1 ∧ '/'.utf8Size = 1 := by decide
    omega
  have h2 : ¬ maxPathBytes < byteCount ('.' :: '/' :: path.toList) := by omega
  have h0 : ¬ maxPathBytes < byteCount path.toList := by omega
  cases hs : parts path.toList with
  | nil => exact absurd hs (parts_ne_nil _)
  | cons p ps => simp [name?, h, h0, h2, parts, hs, lastName?, staysHere]

/-- Parts without a name end in none. -/
theorem lastName?_eq_none : ∀ ps : List (List Char), (∀ p ∈ ps, isName p = false) →
    lastName? ps = none
  | [], _ => rfl
  | [p], h => by simp [lastName?, h p (by simp)]
  | p :: q :: ps, h => by
    simp [lastName?, lastName?_eq_none (q :: ps) fun r hr => h r (List.mem_cons_of_mem p hr)]

/-- A path to a directory leads to no file. -/
theorem name?_of_isDirectory (path : String) (h : isDirectory path) : name? path = none := by
  have hp : ∀ p ∈ parts path.toList, isName p = false := fun p hm => by
    simp only [isDirectory, Bool.and_eq_true, List.all_eq_true] at h
    simp [isName, h.2 p hm]
  simp [name?, lastName?_eq_none _ hp]

end PagedMap.Path
