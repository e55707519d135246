/-
# How actions end

An action ends in an answer or an error, and in a state either way. `Ends` says
which answers, errors and states are possible; its rules follow the ways in
which actions are put together.

Key definitions: `Ends`, `Attempt`.
Key theorems: `Ends.bind`, `Ends.mono`, `Ends.attempt`, `ends_findSomeM?`.
-/
import Mathlib.Algebra.Order.Ring.Int
import PagedMap.Error

namespace PagedMap

variable {σ α β : Type}

/-- Run from `s`, the action ends with an answer and a state that `Q` allows, or
with an error and a state that `E` allows. -/
def Ends (act : Action σ α) (s : σ) (E : Error → σ → Prop) (Q : α → σ → Prop) : Prop :=
  match act s with
  | (.ok a, s') => Q a s'
  | (.error e, s') => E e s'

section Rules

variable {E : Error → σ → Prop} {Q : α → σ → Prop} {s : σ}

theorem ends_of_ok {act : Action σ α} {a : α} {s' : σ} (h : act s = (.ok a, s')) (hQ : Q a s') :
    Ends act s E Q := by
  rw [Ends, h]
  exact hQ

theorem Ends.of_ok {act : Action σ α} {a : α} {s' : σ} (h : Ends act s E Q)
    (hrun : act s = (.ok a, s')) : Q a s' := by
  rw [Ends, hrun] at h
  exact h

theorem Ends.of_error {act : Action σ α} {e : Error} {s' : σ} (h : Ends act s E Q)
    (hrun : act s = (.error e, s')) : E e s' := by
  rw [Ends, hrun] at h
  exact h

/-- An action that cannot end with an error ends with an answer. -/
theorem Ends.exists_ok {act : Action σ α} (h : Ends act s (fun _ _ => False) Q) :
    ∃ a s', act s = (.ok a, s') ∧ Q a s' := by
  rw [Ends] at h
  split at h
  · next a s' hrun => exact ⟨a, s', hrun, h⟩
  · exact h.elim

/-- An action ends as it does. -/
theorem ends_run (act : Action σ α) (s : σ) :
    Ends act s (fun e s' => act s = (.error e, s')) fun a s' => act s = (.ok a, s') := by
  rw [Ends]
  split <;> assumption

theorem Ends.mono {act : Action σ α} {E' : Error → σ → Prop} {Q' : α → σ → Prop}
    (h : Ends act s E Q) (hE : ∀ e s', E e s' → E' e s') (hQ : ∀ a s', Q a s' → Q' a s') :
    Ends act s E' Q' := by
  rw [Ends] at h ⊢
  split at h
  · exact hQ _ _ h
  · exact hE _ _ h

theorem Ends.imp {act : Action σ α} {Q' : α → σ → Prop} (h : Ends act s E Q)
    (hQ : ∀ a s', Q a s' → Q' a s') : Ends act s E Q' :=
  h.mono (fun _ _ he => he) hQ

theorem Ends.imp_error {act : Action σ α} {E' : Error → σ → Prop} (h : Ends act s E Q)
    (hE : ∀ e s', E e s' → E' e s') : Ends act s E' Q :=
  h.mono hE fun _ _ hq => hq

theorem Ends.and {act : Action σ α} {E' : Error → σ → Prop} {Q' : α → σ → Prop}
    (h : Ends act s E Q) (h' : Ends act s E' Q') :
    Ends act s (fun e s' => E e s' ∧ E' e s') fun a s' => Q a s' ∧ Q' a s' := by
  rw [Ends] at h h' ⊢
  split at h <;> next hrun =>
    rw [hrun] at h'
    exact ⟨h, h'⟩

/-- What holds of all states that an action may end in holds of the one it ends in. -/
theorem Ends.final {act : Action σ α} {P : σ → Prop}
    (h : Ends act s (fun _ s' => P s') fun _ s' => P s') : P (act s).2 := by
  rw [Ends] at h
  split at h <;> next hrun =>
    rw [hrun]
    exact h

theorem bind_eq (act : Action σ β) (f : β → Action σ α) (s : σ) :
    (act >>= f) s =
      match act s with
      | (.ok b, s') => f b s'
      | (.error e, s') => (.error e, s') := by
  change (ExceptT.bind act f) s = _
  simp only [ExceptT.bind, ExceptT.mk, bind, StateT.bind]
  cases h : act s with
  | mk r s' => cases r <;> rfl

/-- Answering otherwise changes nothing. -/
theorem snd_bind_pure (act : Action σ α) (f : α → β) (s : σ) :
    ((act >>= fun a => pure (f a)) s).2 = (act s).2 := by
  rw [bind_eq]
  cases act s with
  | mk r s' => cases r <;> rfl

theorem get_eq (s : σ) : (get : Action σ σ) s = (.ok s, s) := rfl

theorem set_eq (s s' : σ) : (set s' : Action σ PUnit) s = (.ok ⟨⟩, s') := rfl

theorem lift_eq (x : Except Error α) (s : σ) : (liftM x : Action σ α) s = (x, s) := rfl

theorem tryCatch_eq (act : Action σ α) (f : Error → Action σ α) (s : σ) :
    (tryCatch act f) s =
      match act s with
      | (.ok a, s') => (.ok a, s')
      | (.error e, s') => f e s' := by
  change (ExceptT.tryCatch act f) s = _
  simp only [ExceptT.tryCatch, ExceptT.mk, bind, StateT.bind]
  cases h : act s with
  | mk r s' => cases r <;> rfl

/-- The second action goes on from where the first has ended. -/
theorem Ends.bind {act : Action σ β} {f : β → Action σ α} {R : β → σ → Prop}
    (h : Ends act s E R) (hf : ∀ b s', R b s' → Ends (f b) s' E Q) :
    Ends (act >>= f) s E Q := by
  rw [Ends] at h
  rw [Ends, bind_eq]
  split at h
  · exact hf _ _ h
  · exact h

theorem ends_bind_of_ok {act : Action σ β} {f : β → Action σ α} {b : β} {s' : σ}
    (h : act s = (.ok b, s')) (hf : Ends (f b) s' E Q) : Ends (act >>= f) s E Q := by
  rw [Ends, bind_eq, h]
  exact hf

theorem ends_pure {a : α} (h : Q a s) : Ends (pure a) s E Q := h

theorem ends_throw {e : Error} (h : E e s) : Ends (throw e : Action σ α) s E Q := h

theorem ends_bind_get {f : σ → Action σ α} (h : Ends (f s) s E Q) : Ends (get >>= f) s E Q := h

theorem ends_bind_set {f : PUnit → Action σ α} {s' : σ} (h : Ends (f ⟨⟩) s' E Q) :
    Ends (set s' >>= f) s E Q := h

theorem ends_bind_lift {x : Except Error β} {b : β} {f : β → Action σ α} (h : x = .ok b)
    (hf : Ends (f b) s E Q) : Ends (liftM x >>= f) s E Q := by
  subst h
  exact hf

/-- A check passes, or refuses with its error. -/
theorem ends_bind_check {p : Prop} [Decidable p] {e : Error} {f : Unit → Action σ α}
    (hpass : p → Ends (f ()) s E Q) (hrefuse : ¬ p → E e s) :
    Ends (liftM (if p then Except.ok () else Except.error e) >>= f) s E Q := by
  by_cases h : p
  · rw [if_pos h]
    exact hpass h
  · rw [if_neg h]
    exact hrefuse h

/-- A computation, whatever it gives, changes nothing. -/
theorem ends_bind_compute {x : Except Error β} {f : β → Action σ α} (hE : ∀ e, E e s)
    (hf : ∀ b, Ends (f b) s E Q) : Ends (liftM x >>= f) s E Q := by
  cases x with
  | ok b => exact hf b
  | error e => exact hE e

theorem ends_modify {f : σ → σ} {Q : PUnit → σ → Prop} (h : Q ⟨⟩ (f s)) :
    Ends (modify f : Action σ PUnit) s E Q := h

/-- How an attempt ends: with an answer, or without one and in the state where it
began. -/
def Attempt (s : σ) (Q : α → σ → Prop) (N : Prop) : Option α → σ → Prop
  | some a, s' => Q a s'
  | none, s' => s' = s ∧ N

/-- An action goes on from an attempt with its answer, or where the attempt began. -/
theorem Ends.attempt {act : Action σ (Option β)} {f : Option β → Action σ α} {N : Prop}
    {R : β → σ → Prop} (h : Ends act s E (Attempt s R N))
    (hsome : ∀ b s', R b s' → Ends (f (some b)) s' E Q) (hnone : N → Ends (f none) s E Q) :
    Ends (act >>= f) s E Q := by
  refine h.bind fun b? s' hb => ?_
  cases b? with
  | some b => exact hsome b s' hb
  | none =>
    obtain ⟨rfl, hN⟩ := hb
    exact hnone hN

/-- The first of several attempts that succeeds gives the answer. -/
theorem ends_findSomeM? {f : β → Action σ (Option α)} {N : β → Prop} : ∀ {bs : List β} {s : σ},
    (∀ b ∈ bs, Ends (f b) s E (Attempt s Q (N b))) →
    Ends (bs.findSomeM? f) s E (Attempt s Q (∀ b ∈ bs, N b))
  | [], _, _ => ends_pure ⟨rfl, fun _ hb => by cases hb⟩
  | b :: bs, s, h => by
    refine (h b (List.mem_cons_self ..)).attempt (fun _ _ ha => ends_pure ha) fun hN => ?_
    refine (ends_findSomeM? fun c hc => h c (List.mem_cons_of_mem b hc)).imp fun a? s' hbs => ?_
    cases a? with
    | some a => exact hbs
    | none => exact ⟨hbs.1, List.forall_mem_cons.2 ⟨hN, hbs.2⟩⟩

end Rules

/-- What an answer shows tells that there is one. -/
theorem exists_ok_of_toOption {x : Except Error α} {f : α → β} {b : β}
    (h : x.toOption.map f = some b) : ∃ a, x = .ok a ∧ f a = b := by
  cases x with
  | error e => cases h
  | ok a => exact ⟨a, rfl, Option.some.inj h⟩

theorem eq_ok_of_toOption {x : Except Error α} {a : α} (h : x.toOption = some a) : x = .ok a := by
  cases x with
  | error e => cases h
  | ok b => exact congrArg Except.ok (Option.some.inj h)

theorem eq_of_toOption_fst {x : Except Error α × σ} {a : α} (h : x.1.toOption = some a) :
    x = (.ok a, x.2) := Prod.ext (eq_ok_of_toOption h) rfl

theorem exists_of_isOk {x : Except Error α} (h : x.isOk = true) : ∃ a, x = .ok a := by
  cases x with
  | ok a => exact ⟨a, rfl⟩
  | error e => cases h

theorem exists_error_of_toOption {x : Except Error α} (h : x.toOption = none) :
    ∃ e, x = .error e := by
  cases x with
  | error e => exact ⟨e, rfl⟩
  | ok a => cases h

theorem ok_bind (a : α) (f : α → Except Error β) : Except.ok a >>= f = f a := rfl

theorem error_bind (e : Error) (f : α → Except Error β) : Except.error e >>= f = .error e := rfl

/-- A computation in two steps that succeeds has succeeded in both. -/
theorem exists_of_bind_eq_ok {x : Except Error α} {f : α → Except Error β} {b : β}
    (h : x >>= f = .ok b) : ∃ a, x = .ok a ∧ f a = .ok b := by
  cases x with
  | ok a => exact ⟨a, rfl, h⟩
  | error e => cases h

/-- Computing something for every element succeeds if it does for each. -/
theorem mapM_map_ok {α β γ : Type} {f : β → Except Error γ} {m : α → β} {h : α → γ} :
    ∀ {xs : List α}, (∀ x ∈ xs, f (m x) = .ok (h x)) → (xs.map m).mapM f = .ok (xs.map h)
  | [], _ => rfl
  | x :: xs, hxs => by
    rw [List.map_cons, List.mapM_cons, hxs x (List.mem_cons_self ..),
      mapM_map_ok fun y hy => hxs y (List.mem_cons_of_mem x hy)]
    rfl

/-- If it succeeds for every element, it does for the first and for the others. -/
theorem exists_of_mapM_cons {f : α → Except Error β} {x : α} {xs : List α} {ys : List β}
    (h : (x :: xs).mapM f = .ok ys) :
    ∃ y ys', f x = .ok y ∧ xs.mapM f = .ok ys' ∧ ys = y :: ys' := by
  rw [List.mapM_cons] at h
  obtain ⟨y, hy, h⟩ := exists_of_bind_eq_ok h
  obtain ⟨ys', hys, h⟩ := exists_of_bind_eq_ok h
  exact ⟨y, ys', hy, hys, (Except.ok.inj h).symm⟩

/-- If it succeeds for the elements of two lists, it does for those of each. -/
theorem exists_of_mapM_append {f : α → Except Error β} {xs xs' : List α} {ys : List β}
    (h : (xs ++ xs').mapM f = .ok ys) :
    ∃ zs zs', xs.mapM f = .ok zs ∧ xs'.mapM f = .ok zs' ∧ ys = zs ++ zs' := by
  rw [List.mapM_append] at h
  obtain ⟨zs, hzs, h⟩ := exists_of_bind_eq_ok h
  obtain ⟨zs', hzs', h⟩ := exists_of_bind_eq_ok h
  exact ⟨zs, zs', hzs, hzs', (Except.ok.inj h).symm⟩

end PagedMap
