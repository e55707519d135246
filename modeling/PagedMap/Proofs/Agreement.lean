/-
# Actions that agree

Two actions on different kinds of states agree if they give the same answers and errors
from related states and lead to related states (`Agrees`). The rules follow the ways in
which actions are put together, so that two programs of the same form agree if their
parts do; whole lists of actions that agree give the same, one by one
(`agrees_performAll`). Where they are to reach a relation that does not hold from the
start, they lead from the one to the other (`Leads`).

Key definitions: `Agrees`, `Leads`, `performAll`.
Key theorems: `Agrees.bind`, `agrees_of_ends`, `agrees_performAll`.
-/
import Mathlib.Logic.Relation
import PagedMap.Proofs.Action

namespace PagedMap

variable {σ τ α β : Type} {R : σ → τ → Prop}

/-- From related states the actions give the same, and they end in related states. -/
def Agrees (R : σ → τ → Prop) (act : Action σ α) (act' : Action τ α) : Prop :=
  ∀ s t, R s t → (act s).1 = (act' t).1 ∧ R (act s).2 (act' t).2

section Rules

variable {act : Action σ α} {act' : Action τ α}

/-- What is known of the end of one action is told of the other. -/
theorem agrees_of_ends (h : ∀ s t, R s t → Ends act s
    (fun e s' => ∃ t', act' t = (.error e, t') ∧ R s' t')
    (fun a s' => ∃ t', act' t = (.ok a, t') ∧ R s' t')) : Agrees R act act' := by
  intro s t hR
  have hends := h s t hR
  rw [Ends] at hends
  split at hends <;> next hrun =>
    obtain ⟨t', hrun', hR'⟩ := hends
    rw [hrun, hrun']
    exact ⟨rfl, hR'⟩

/-- Both runs, from states that are related. -/
theorem Agrees.run (h : Agrees R act act') {s : σ} {t : τ} (hR : R s t) :
    ∃ r s' t', act s = (r, s') ∧ act' t = (r, t') ∧ R s' t' := by
  obtain ⟨hr, hR'⟩ := h s t hR
  exact ⟨_, _, _, rfl, Prod.ext hr.symm rfl, hR'⟩

theorem Agrees.bind {act : Action σ β} {act' : Action τ β} {f : β → Action σ α}
    {f' : β → Action τ α} (h : Agrees R act act') (hf : ∀ b, Agrees R (f b) (f' b)) :
    Agrees R (act >>= f) (act' >>= f') := by
  intro s t hR
  obtain ⟨r, s', t', hrun, hrun', hR'⟩ := h.run hR
  rw [bind_eq, bind_eq, hrun, hrun']
  cases r with
  | ok b => exact hf b s' t' hR'
  | error e => exact ⟨rfl, hR'⟩

theorem agrees_pure (a : α) : Agrees R (pure a) (pure a) := fun _ _ hR => ⟨rfl, hR⟩

theorem agrees_throw (e : Error) : Agrees R (throw e : Action σ α) (throw e) :=
  fun _ _ hR => ⟨rfl, hR⟩

theorem agrees_lift {x x' : Except Error α} (h : x = x') :
    Agrees R (liftM x : Action σ α) (liftM x') := fun _ _ hR => ⟨h, hR⟩

/-- What an action makes of the state that it sees it makes of a related one. -/
theorem agrees_bind_get {f : σ → Action σ α} {f' : τ → Action τ α}
    (h : ∀ s t, R s t → Agrees R (f s) (f' t)) : Agrees R (get >>= f) (get >>= f') :=
  fun s t hR => h s t hR s t hR

theorem agrees_set {s : σ} {t : τ} (h : R s t) :
    Agrees R (set s : Action σ PUnit) (set t) := fun _ _ _ => ⟨rfl, h⟩

theorem agrees_modify {f : σ → σ} {f' : τ → τ} (h : ∀ s t, R s t → R (f s) (f' t)) :
    Agrees R (modify f : Action σ PUnit) (modify f') := fun s t hR => ⟨rfl, h s t hR⟩

theorem agrees_ite {c : Prop} [Decidable c] {rest : Action σ α} {rest' : Action τ α}
    (h : Agrees R act act') (hrest : Agrees R rest rest') :
    Agrees R (if c then act else rest) (if c then act' else rest') := by
  split
  · exact h
  · exact hrest

theorem Agrees.tryCatch {f : Error → Action σ α} {f' : Error → Action τ α}
    (h : Agrees R act act') (hf : ∀ e, Agrees R (f e) (f' e)) :
    Agrees R (tryCatch act f) (tryCatch act' f') := by
  intro s t hR
  obtain ⟨r, s', t', hrun, hrun', hR'⟩ := h.run hR
  rw [tryCatch_eq, tryCatch_eq, hrun, hrun']
  cases r with
  | ok a => exact ⟨rfl, hR'⟩
  | error e => exact hf e s' t' hR'

theorem agrees_forM {f : β → Action σ PUnit} {f' : β → Action τ PUnit}
    (h : ∀ b, Agrees R (f b) (f' b)) : ∀ bs : List β, Agrees R (bs.forM f) (bs.forM f')
  | [] => agrees_pure _
  | b :: bs => (h b).bind fun _ => agrees_forM h bs

theorem agrees_findSomeM? {f : β → Action σ (Option α)} {f' : β → Action τ (Option α)}
    (h : ∀ b, Agrees R (f b) (f' b)) :
    ∀ bs : List β, Agrees R (bs.findSomeM? f) (bs.findSomeM? f')
  | [] => agrees_pure _
  | b :: bs => (h b).bind fun
    | some _ => agrees_pure _
    | none => agrees_findSomeM? h bs

/-! ### Other relations -/

/-- Actions that agree with the same action agree with each other. -/
theorem Agrees.comp {ρ : Type} {S : τ → ρ → Prop} {act'' : Action ρ α} (h : Agrees R act act')
    (h' : Agrees S act' act'') : Agrees (Relation.Comp R S) act act'' := by
  rintro s r ⟨t, hR, hS⟩
  obtain ⟨hr, hR'⟩ := h s t hR
  obtain ⟨hr', hS'⟩ := h' t r hS
  exact ⟨hr.trans hr', _, hR', hS'⟩

/-- An action that agrees with itself keeps the states that are related to themselves. -/
theorem Agrees.ends {R : σ → σ → Prop} {act : Action σ α} {s : σ} (h : Agrees R act act)
    (hs : R s s) : Ends act s (fun _ s' => R s' s') fun _ s' => R s' s' := by
  have hR := (h s s hs).2
  rw [Ends]
  split <;> next hrun => rwa [hrun] at hR

theorem Agrees.swap (h : Agrees R act act') : Agrees (flip R) act' act := by
  intro t s hR
  obtain ⟨hr, hR'⟩ := h s t hR
  exact ⟨hr.symm, hR'⟩

/-- What the first action preserves is preserved beside the relation. -/
theorem Agrees.keeps {P : σ → Prop} (h : Agrees R act act') (hP : ∀ s, P s → P (act s).2) :
    Agrees (fun s t => P s ∧ R s t) act act' := by
  rintro s t ⟨hs, hR⟩
  obtain ⟨hr, hR'⟩ := h s t hR
  exact ⟨hr, hP s hs, hR'⟩

/-! ### Relations that are reached -/

/-- From states that `R` relates the actions give the same, and they end in states that
`S` relates, or that `R` still relates if they fail. -/
def Leads (R S : σ → τ → Prop) (act : Action σ α) (act' : Action τ α) : Prop :=
  ∀ s t, R s t → (act s).1 = (act' t).1 ∧
    match (act s).1 with
    | .ok _ => S (act s).2 (act' t).2
    | .error _ => R (act s).2 (act' t).2

variable {S : σ → τ → Prop}

theorem Leads.of_ok {s : σ} {t : τ} {a : α} (h : Leads R S act act') (hR : R s t)
    (hact : (act s).1 = .ok a) : S (act s).2 (act' t).2 := by
  obtain ⟨-, hend⟩ := h s t hR
  rw [hact] at hend
  exact hend

theorem Leads.agrees (h : Leads R S act act') (hS : ∀ s t, S s t → R s t) :
    Agrees R act act' := by
  intro s t hR
  obtain ⟨hr, hend⟩ := h s t hR
  refine ⟨hr, ?_⟩
  split at hend
  · exact hS _ _ hend
  · exact hend

theorem Agrees.bind_leads {act : Action σ β} {act' : Action τ β} {f : β → Action σ α}
    {f' : β → Action τ α} (h : Agrees R act act') (hf : ∀ b, Leads R S (f b) (f' b)) :
    Leads R S (act >>= f) (act' >>= f') := by
  intro s t hR
  obtain ⟨r, s', t', hrun, hrun', hR'⟩ := h.run hR
  rw [bind_eq, bind_eq, hrun, hrun']
  cases r with
  | ok b => exact hf b s' t' hR'
  | error e => exact ⟨rfl, hR'⟩

/-- An answer that is given afterwards changes nothing. -/
theorem Leads.bind_pure {act : Action σ β} {act' : Action τ β} (h : Leads R S act act')
    (f : β → α) : Leads R S (act >>= fun b => pure (f b)) (act' >>= fun b => pure (f b)) := by
  intro s t hR
  obtain ⟨hr, hend⟩ := h s t hR
  rw [bind_eq, bind_eq]
  cases hrun : act s with
  | mk r s' =>
    cases hrun' : act' t with
    | mk r' t' =>
      rw [hrun, hrun'] at hr hend
      obtain rfl : r = r' := hr
      cases r with
      | ok b => exact ⟨rfl, hend⟩
      | error e => exact ⟨rfl, hend⟩

theorem leads_bind_get {f : σ → Action σ α} {f' : τ → Action τ α}
    (h : ∀ s t, R s t → Leads R S (f s) (f' t)) : Leads R S (get >>= f) (get >>= f') :=
  fun s t hR => h s t hR s t hR

theorem leads_ite {c : Prop} [Decidable c] {rest : Action σ α} {rest' : Action τ α}
    (h : Leads R S act act') (hrest : Leads R S rest rest') :
    Leads R S (if c then act else rest) (if c then act' else rest') := by
  split
  · exact h
  · exact hrest

theorem leads_throw (e : Error) : Leads R S (throw e : Action σ α) (throw e) :=
  fun _ _ hR => ⟨rfl, hR⟩

end Rules

/-! ### Lists of actions -/

/-- Does one thing after the other, whether they fail or not, and keeps all they gave. -/
def performAll : List (Action σ α) → σ → List (Except Error α) × σ
  | [], s => ([], s)
  | act :: acts, s =>
    let (r, s) := act s
    let (rs, s) := performAll acts s
    (r :: rs, s)

theorem performAll_cons (act : Action σ α) (acts : List (Action σ α)) (s : σ) :
    performAll (act :: acts) s =
      ((act s).1 :: (performAll acts (act s).2).1, (performAll acts (act s).2).2) := rfl

/-- What every action of a list preserves the list preserves. -/
theorem performAll_induct {P : σ → Prop} : ∀ {acts : List (Action σ α)} {s : σ}, P s →
    (∀ act ∈ acts, ∀ s, P s → P (act s).2) → P (performAll acts s).2
  | [], _, h, _ => h
  | act :: acts, s, h, hstep => by
    rw [performAll_cons]
    exact performAll_induct (hstep act (List.mem_cons_self ..) s h) fun act' hact' =>
      hstep act' (List.mem_cons_of_mem act hact')

/-- Actions that agree one by one give the same one by one. -/
theorem agrees_performAll {γ : Type} {f : γ → Action σ α} {f' : γ → Action τ α}
    (h : ∀ c, Agrees R (f c) (f' c)) : ∀ (cs : List γ) (s : σ) (t : τ), R s t →
    (performAll (cs.map f) s).1 = (performAll (cs.map f') t).1 ∧
      R (performAll (cs.map f) s).2 (performAll (cs.map f') t).2
  | [], _, _, hR => ⟨rfl, hR⟩
  | c :: cs, s, t, hR => by
    obtain ⟨hr, hR'⟩ := h c s t hR
    obtain ⟨hrs, hR''⟩ := agrees_performAll h cs (f c s).2 (f' c t).2 hR'
    rw [List.map_cons, List.map_cons, performAll_cons, performAll_cons, hr, hrs]
    exact ⟨rfl, hR''⟩

end PagedMap
