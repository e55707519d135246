/-
# Children between separators

The children of an index block form a chain: each child lies between the two
separators beside it. Taken apart at a child, a chain is what comes before the
child, the child, and what comes after it; either side stays as it is when the
child is exchanged for something else within the same bounds (`chain_focus`).
If no child is empty, then the separators ascend (`Chain.keys`) and so do the
items of all children (`Chain.items`).

Key definitions: `Span`, `Chain`, `Before`, `After`, `Fills`.
Key theorems: `chain_focus`, `chain_append`, `Chain.keys`, `Chain.items`.
-/
import PagedMap.Proofs.Block.Search

namespace PagedMap

variable {κ ν τ : Type}

/-- The keys from `lower?` on and below `upper?`. -/
structure Span (κ : Type) where
  lower? : Option κ
  upper? : Option κ

namespace Span

/-- All keys. -/
def all : Span κ := ⟨none, none⟩

variable [LinearOrder κ]

/-- A key is within the bounds. -/
def Has (r : Span κ) (k : κ) : Prop := (∀ a ∈ r.lower?, a ≤ k) ∧ ∀ b ∈ r.upper?, k < b

/-- The lower bound is below the upper one. -/
def Proper (r : Span κ) : Prop := ∀ a ∈ r.lower?, ∀ b ∈ r.upper?, a < b

theorem Has.proper {r : Span κ} {k : κ} (h : r.Has k) : r.Proper :=
  fun a ha b hb => lt_of_le_of_lt (h.1 a ha) (h.2 b hb)

theorem has_all (k : κ) : (all : Span κ).Has k :=
  ⟨fun _ h => (Option.not_mem_none _ h).elim, fun _ h => (Option.not_mem_none _ h).elim⟩

end Span

/-! ### Chains -/

section Chains

variable (H : Span κ → τ → Prop)

/-- The children lie between the separators, in a block of the given bounds. -/
def Chain : Span κ → List κ → List τ → Prop
  | r, [], [c] => H r c
  | r, k :: ks, c :: cs => H ⟨r.lower?, some k⟩ c ∧ Chain ⟨some k, r.upper?⟩ ks cs
  | _, _, _ => False

/-- The children to the left of the separators. -/
def Before : Option κ → List κ → List τ → Prop
  | _, [], [] => True
  | lo?, k :: ks, c :: cs => H ⟨lo?, some k⟩ c ∧ Before (some k) ks cs
  | _, _, _ => False

/-- The children to the right of the separators. -/
def After (hi? : Option κ) : List κ → List τ → Prop
  | [], [] => True
  | k :: ks, c :: cs => H ⟨some k, ks.head?.or hi?⟩ c ∧ After hi? ks cs
  | _, _ => False

variable {H} {r : Span κ} {ks as bs : List κ} {cs ds : List τ}

theorem Before.length : ∀ {lo? : Option κ} {ks : List κ} {cs : List τ}, Before H lo? ks cs →
    cs.length = ks.length
  | _, [], [], _ => rfl
  | _, _ :: _, _ :: _, h => congrArg (· + 1) h.2.length

theorem After.length {hi? : Option κ} : ∀ {ks : List κ} {cs : List τ}, After H hi? ks cs →
    cs.length = ks.length
  | [], [], _ => rfl
  | _ :: _, _ :: _, h => congrArg (· + 1) h.2.length

theorem Chain.length : ∀ {r : Span κ} {ks : List κ} {cs : List τ}, Chain H r ks cs →
    cs.length = ks.length + 1
  | _, [], [_], _ => rfl
  | _, _ :: _, _ :: _, h => congrArg (· + 1) h.2.length

theorem chain_cons : ∀ {r : Span κ} {ks : List κ} {c : τ} {cs : List τ},
    Chain H r ks (c :: cs) ↔ H ⟨r.lower?, ks.head?.or r.upper?⟩ c ∧ After H r.upper? ks cs
  | _, [], _, [] => by simp [Chain, After]
  | _, [], _, _ :: _ => by simp [Chain, After]
  | _, k :: ks, c, [] => by simp [Chain, After]
  | _, k :: ks, c, d :: cs => by simp [Chain, After, chain_cons]

/-- A chain is what comes before a child, the child, and what comes after it. -/
theorem chain_focus : ∀ {as : List κ} {cs : List τ} {r : Span κ} {c : τ},
    cs.length = as.length →
    (Chain H r (as ++ bs) (cs ++ c :: ds) ↔ Before H r.lower? as cs ∧
      H ⟨as.getLast?.or r.lower?, bs.head?.or r.upper?⟩ c ∧ After H r.upper? bs ds)
  | [], [], _, _, _ => by simp [Before, chain_cons]
  | a :: as, d :: cs, r, c, h => by
    have ih := chain_focus (r := ⟨some a, r.upper?⟩) (c := c)
      (Nat.succ.inj h)
    have hlast : (a :: as).getLast?.or r.lower? = as.getLast?.or (some a) := by
      rw [List.getLast?_cons]
      cases as.getLast? <;> rfl
    rw [List.cons_append, List.cons_append, Chain, ih, hlast, Before, and_assoc]

/-- A chain is a chain below a separator and one from it on. -/
theorem chain_append {k : κ} {ls : List κ} : ∀ {ks : List κ} {cs : List τ} {r : Span κ},
    cs.length = ks.length + 1 → (Chain H r (ks ++ k :: ls) (cs ++ ds) ↔
      Chain H ⟨r.lower?, some k⟩ ks cs ∧ Chain H ⟨some k, r.upper?⟩ ls ds)
  | [], [_], _, _ => Iff.rfl
  | a :: ks, c :: cs, r, h => by
    rw [List.cons_append, List.cons_append, Chain, chain_append (Nat.succ.inj h), Chain, and_assoc]

theorem before_concat : ∀ {lo? : Option κ} {as : List κ} {cs : List τ} {k : κ} {c : τ},
    Before H lo? (as ++ [k]) (cs ++ [c]) ↔
      Before H lo? as cs ∧ H ⟨as.getLast?.or lo?, some k⟩ c
  | _, [], [], _, _ => by simp [Before]
  | _, [], _ :: cs, _, _ => by cases cs <;> simp [Before]
  | _, a :: as, [], _, _ => by cases as <;> simp [Before]
  | lo?, a :: as, d :: cs, k, c => by
    have hlast : (a :: as).getLast?.or lo? = as.getLast?.or (some a) := by
      rw [List.getLast?_cons]
      cases as.getLast? <;> rfl
    rw [List.cons_append, List.cons_append, Before, before_concat, hlast, Before, and_assoc]

theorem Before.of_mem : ∀ {lo? : Option κ} {ks : List κ} {cs : List τ}, Before H lo? ks cs →
    ∀ c ∈ cs, ∃ r, H r c
  | _, [], [], _, _, hc => by cases hc
  | _, _ :: _, _ :: _, h, c, hc => by
    rcases List.mem_cons.1 hc with rfl | hc
    · exact ⟨_, h.1⟩
    · exact h.2.of_mem c hc

theorem After.of_mem {hi? : Option κ} : ∀ {ks : List κ} {cs : List τ}, After H hi? ks cs →
    ∀ c ∈ cs, ∃ r, H r c
  | [], [], _, _, hc => by cases hc
  | _ :: _, _ :: _, h, c, hc => by
    rcases List.mem_cons.1 hc with rfl | hc
    · exact ⟨_, h.1⟩
    · exact h.2.of_mem c hc

theorem Chain.of_mem : ∀ {r : Span κ} {ks : List κ} {cs : List τ}, Chain H r ks cs →
    ∀ c ∈ cs, ∃ r, H r c
  | _, [], [_], h, _, hc => ⟨_, List.mem_singleton.1 hc ▸ h⟩
  | _, _ :: _, _ :: _, h, c, hc => by
    rcases List.mem_cons.1 hc with rfl | hc
    · exact ⟨_, h.1⟩
    · exact h.2.of_mem c hc

/-- What is shown of the children may use that the bounds of each are separators or
bounds of the block. -/
theorem Chain.imp_of_mem {H' : Span κ → τ → Prop} : ∀ {r : Span κ} {ks : List κ} {cs : List τ},
    (∀ r' c, c ∈ cs → (∀ k ∈ r'.lower?, k ∈ ks ∨ k ∈ r.lower?) →
      (∀ k ∈ r'.upper?, k ∈ ks ∨ k ∈ r.upper?) → H r' c → H' r' c) →
    Chain H r ks cs → Chain H' r ks cs
  | _, [], [c], h, hc =>
    h _ c (List.mem_cons_self ..) (fun _ hk => .inr hk) (fun _ hk => .inr hk) hc
  | r, k :: ks, c :: cs, h, hc => by
    refine ⟨h _ c (List.mem_cons_self ..) (fun _ hl => .inr hl) (fun l hl => .inl ?_) hc.1,
      hc.2.imp_of_mem fun r' d hd hlower hupper => h r' d (List.mem_cons_of_mem c hd) ?_ ?_⟩
    · rw [← Option.some.inj hl]
      exact List.mem_cons_self ..
    · intro l hl
      rcases hlower l hl with hl | hl
      · exact .inl (List.mem_cons_of_mem k hl)
      · rw [← Option.some.inj hl]
        exact .inl (List.mem_cons_self ..)
    · intro l hl
      exact (hupper l hl).imp_left (List.mem_cons_of_mem k)

/-- The upper bound of a chain may be raised if that of a child may be. -/
theorem Chain.raise {k : κ} {hi? : Option κ}
    (hH : ∀ lo? c, H ⟨lo?, some k⟩ c → H ⟨lo?, hi?⟩ c) : ∀ {lo? : Option κ} {ks : List κ}
    {cs : List τ}, Chain H ⟨lo?, some k⟩ ks cs → Chain H ⟨lo?, hi?⟩ ks cs
  | _, [], [_], h => hH _ _ h
  | _, _ :: _, _ :: _, h => ⟨h.1, h.2.raise hH⟩

end Chains

/-! ### The order of a chain -/

variable [LinearOrder κ]

/-- If no child is empty then the separators ascend between the bounds. -/
theorem Chain.keys {H : Span κ → τ → Prop} (hH : ∀ r c, H r c → r.Proper) :
    ∀ {r : Span κ} {ks : List κ} {cs : List τ}, Chain H r ks cs → r.Proper ∧ ks.Pairwise (· < ·) ∧
      ∀ k ∈ ks, (∀ a ∈ r.lower?, a < k) ∧ ∀ b ∈ r.upper?, k < b
  | r, [], [c], h => ⟨hH r c h, List.Pairwise.nil, fun _ hk => by cases hk⟩
  | r, k :: ks, c :: cs, h => by
    have hfirst : ∀ a ∈ r.lower?, a < k := fun a ha => hH _ _ h.1 a ha k rfl
    obtain ⟨hproper, hsorted, hks⟩ := h.2.keys hH
    refine ⟨fun a ha b hb => lt_trans (hfirst a ha) (hproper k rfl b hb),
      List.pairwise_cons.2 ⟨fun l hl => (hks l hl).1 k rfl, hsorted⟩, fun l hl => ?_⟩
    rcases List.mem_cons.1 hl with rfl | hl
    · exact ⟨hfirst, fun b hb => hproper l rfl b hb⟩
    · exact ⟨fun a ha => lt_trans (hfirst a ha) ((hks l hl).1 k rfl), (hks l hl).2⟩

/-- The items, of which there are some, ascend within the bounds. -/
structure Fills (r : Span κ) (items : List (κ × ν)) : Prop where
  ne_nil : items ≠ []
  ascending : Ascending items
  within : ∀ i ∈ items, r.Has i.1

theorem Fills.proper {r : Span κ} {items : List (κ × ν)} (h : Fills r items) : r.Proper := by
  obtain ⟨i, hi⟩ := List.exists_mem_of_ne_nil items h.ne_nil
  exact (h.within i hi).proper

/-- If the items of every child fill its bounds, all items fill the bounds of
the chain. -/
theorem Chain.items {H : Span κ → τ → Prop} {f : τ → List (κ × ν)}
    (hH : ∀ r c, H r c → Fills r (f c)) : ∀ {r : Span κ} {ks : List κ} {cs : List τ},
    Chain H r ks cs → Fills r (cs.flatMap f)
  | r, [], [c], h => by
    rw [List.flatMap_singleton]
    exact hH r c h
  | r, k :: ks, c :: cs, h => by
    have hc := hH _ _ h.1
    have hcs := h.2.items hH
    have hkeys := (Chain.keys (fun r c h => (hH r c h).proper) h).2.2 k (List.mem_cons_self ..)
    have hlt : ∀ i ∈ f c, i.1 < k := fun i hi => (hc.within i hi).2 k rfl
    have hle : ∀ j ∈ cs.flatMap f, k ≤ j.1 := fun j hj => (hcs.within j hj).1 k rfl
    rw [List.flatMap_cons]
    refine ⟨fun h => hc.ne_nil (List.append_eq_nil_iff.1 h).1, ?_, fun i hi => ?_⟩
    · exact ascending_append.2 ⟨hc.ascending, hcs.ascending,
        fun i hi j hj => lt_of_lt_of_le (hlt i hi) (hle j hj)⟩
    · rcases List.mem_append.1 hi with hi | hi
      · exact ⟨(hc.within i hi).1, fun b hb => lt_trans (hlt i hi) (hkeys.2 b hb)⟩
      · exact ⟨fun a ha => le_trans (le_of_lt (hkeys.1 a ha)) (hle i hi), (hcs.within i hi).2⟩

end PagedMap
