/-
# Answers without faults

A fault is the error of a computation that asks for a position outside of a block, which a
program answers by giving up. `Answers` says that a computation does not end in one, and
which answers it may have; its rules follow the ways in which computations are put together.

Key definition: `Answers`.
Key theorems: `Answers.bind`, `Answers.bind_ne`, `mapM_ne_fault`.
-/
import PagedMap.Error

namespace PagedMap

variable {α β : Type} {x : Except Error α} {Q : α → Prop}

/-- The computation ends with an answer that `Q` allows, or with an error that is no
fault. -/
def Answers (x : Except Error α) (Q : α → Prop) : Prop :=
  match x with
  | .ok a => Q a
  | .error e => e ≠ .fault

theorem answers_ok {a : α} (h : Q a) : Answers (.ok a) Q := h

theorem answers_error {e : Error} (h : e ≠ .fault) : Answers (.error e : Except Error α) Q := h

theorem ok_ne_fault (a : α) : (.ok a : Except Error α) ≠ .error .fault := by
  rintro ⟨⟩

theorem Answers.imp {Q' : α → Prop} (h : Answers x Q) (hQ : ∀ a, Q a → Q' a) : Answers x Q' := by
  cases x with
  | ok a => exact hQ a h
  | error e => exact h

theorem Answers.ne_fault (h : Answers x Q) : x ≠ .error .fault := by
  rintro rfl
  exact h rfl

/-- A computation without a fault has the answer that it has. -/
theorem answers_of_ne (h : x ≠ .error .fault) : Answers x fun a => x = .ok a := by
  cases x with
  | ok a => exact answers_ok rfl
  | error e => exact fun he => h (congrArg Except.error he)

/-- The second computation goes on with the answer of the first. -/
theorem Answers.bind {f : α → Except Error β} {R : β → Prop} (h : Answers x Q)
    (hf : ∀ a, Q a → Answers (f a) R) : Answers (x >>= f) R := by
  cases x with
  | ok a => exact hf a h
  | error e => exact h

theorem Answers.map {f : α → β} {R : β → Prop} (h : Answers x Q) (hf : ∀ a, Q a → R (f a)) :
    Answers (x.map f) R := by
  cases x with
  | ok a => exact hf a h
  | error e => exact h

theorem map_ne_fault (f : α → β) (h : x ≠ .error .fault) : x.map f ≠ .error .fault :=
  ((answers_of_ne h).map (R := fun _ => True) fun _ _ => trivial).ne_fault

/-- Going on with an answer that `Q` allows is without a fault. -/
theorem Answers.bind_ne {f : α → Except Error β} (h : Answers x Q)
    (hf : ∀ a, Q a → f a ≠ .error .fault) : x >>= f ≠ .error .fault :=
  (h.bind (R := fun _ => True) fun a ha =>
    (answers_of_ne (hf a ha)).imp fun _ _ => trivial).ne_fault

theorem bind_ne_fault {f : α → Except Error β} (h : x ≠ .error .fault)
    (hf : ∀ a, f a ≠ .error .fault) : x >>= f ≠ .error .fault :=
  (answers_of_ne h).bind_ne fun a _ => hf a

/-- Computing something for every element is without a fault if it is for each. -/
theorem mapM_ne_fault {f : α → Except Error β} : ∀ {as : List α},
    (∀ a ∈ as, f a ≠ .error .fault) → as.mapM f ≠ .error .fault
  | [], _ => ok_ne_fault _
  | a :: as, h => by
    rw [List.mapM_cons]
    refine bind_ne_fault (h a (List.mem_cons_self ..)) fun _ => ?_
    exact bind_ne_fault (mapM_ne_fault fun c hc => h c (List.mem_cons_of_mem a hc)) fun _ =>
      ok_ne_fault _

end PagedMap
