/-
# The reader finds the tokens of a laid out text

The reader does not know that a number is complete before it sees the character
after it. So after some tokens it stands between tokens or in a number that may
end (`Lexer.Holds`), and from there a blank or a token that may stand next to
the last one leads on to such a state again.

Key definitions: `Json.Lexer.Holds`, `Json.Apart`.
Key theorem: `Json.tokens?_of_laid`.
-/
import Mathlib.Data.List.Chain
import Mathlib.Data.Nat.Digits.Defs
import PagedMap.Proofs.Json.Grammar

namespace PagedMap.Json

/-! ### Runs of a machine -/

section Runs

variable {σ α : Type} {step : σ → α → Option σ} {s t u : σ} {a : α} {as bs : List α}

theorem run_cons (h : step s a = some t) : (a :: as).foldlM step s = as.foldlM step t := by
  rw [List.foldlM_cons, h]
  rfl

theorem run_append (h : as.foldlM step s = some t) :
    (as ++ bs).foldlM step s = bs.foldlM step t := by
  rw [List.foldlM_append, h]
  rfl

theorem exists_of_run_cons (h : (a :: as).foldlM step s = some u) :
    ∃ t, step s a = some t ∧ as.foldlM step t = some u := by
  rw [List.foldlM_cons] at h
  exact Option.bind_eq_some_iff.mp h

/-- What each step keeps of a state and of all that was taken before, a run keeps. -/
theorem run_invariant {Q : σ → List α → Prop}
    (hstep : ∀ {s t : σ} {before : List α} {a : α}, Q s before → step s a = some t →
      Q t (before ++ [a]))
    {before : List α} (h : Q s before) (hrun : as.foldlM step s = some t) : Q t (before ++ as) := by
  induction as generalizing s before with
  | nil =>
    obtain rfl : s = t := by simpa using hrun
    rwa [List.append_nil]
  | cons a as ih =>
    obtain ⟨mid, hmid, hrun⟩ := exists_of_run_cons hrun
    have hend := ih (hstep h hmid) hrun
    rwa [List.append_assoc] at hend

end Runs

/-! ### Numbers -/

/-- Digits lead from a part to one that takes any digit and stays. -/
theorem Digits.foldlM_next? {part last : NumberPart} {ds : List Char} (h : Digits ds)
    (hfirst : ∀ c : Char, c.isDigit = true → part.next? c = some last)
    (hrest : ∀ c : Char, c.isDigit = true → last.next? c = some last) :
    ds.foldlM NumberPart.next? part = some last := by
  have hstay : ∀ {ds : List Char}, (∀ c ∈ ds, c.isDigit = true) →
      ds.foldlM NumberPart.next? last = some last := by
    intro ds hds
    induction ds with
    | nil => rfl
    | cons c ds ih =>
      rw [run_cons (hrest c (hds c (by simp)))]
      exact ih fun d hd => hds d (by simp [hd])
  obtain ⟨hne, hds⟩ := h
  cases ds with
  | nil => exact absurd rfl hne
  | cons c ds =>
    rw [run_cons (hfirst c (hds c (by simp)))]
    exact hstay fun d hd => hds d (by simp [hd])

theorem NumberPart.complete_of_isPlain {part : NumberPart} (h : part.isPlain = true) :
    part.complete = true := by
  cases part <;> first | rfl | cases h

/-- A fraction leads on from the digits of a whole number, if there is one. -/
theorem Fraction.exists_part {part : NumberPart} {ds : List Char} (h : Fraction ds)
    (hplain : part.isPlain = true) :
    ∃ last, ds.foldlM NumberPart.next? part = some last ∧
      (last.isPlain = true ∨ last = .fraction) ∧ (ds ≠ [] → last = .fraction) := by
  cases h with
  | absent => exact ⟨part, rfl, .inl hplain, fun hne => absurd rfl hne⟩
  | @point ds h =>
    have hpoint : part.next? '.' = some .point := by cases part <;> first | rfl | cases hplain
    refine ⟨.fraction, ?_, .inr rfl, fun _ => rfl⟩
    rw [run_cons hpoint]
    exact h.foldlM_next? (fun c hc => by simp [NumberPart.next?, hc])
      fun c hc => by simp [NumberPart.next?, hc]

/-- An exponent leads on from the digits before it, if there is one. -/
theorem Exponent.exists_part {part : NumberPart} {ds : List Char} (h : Exponent ds)
    (hpart : part.isPlain = true ∨ part = .fraction) :
    ∃ last, ds.foldlM NumberPart.next? part = some last ∧
      (last = part ∨ last = .exponent) ∧ (ds ≠ [] → last = .exponent) := by
  have hletter : ∀ {e : Char}, e = 'e' ∨ e = 'E' → part.next? e = some .e := by
    rintro e (rfl | rfl) <;> rcases hpart with hplain | rfl <;>
      first | rfl | cases part <;> first | rfl | cases hplain
  have hdigit : ∀ {part : NumberPart}, part = .e ∨ part = .eSign ∨ part = .exponent →
      ∀ c : Char, c.isDigit = true → part.next? c = some .exponent := by
    rintro part (rfl | rfl | rfl) c hc <;> simp [NumberPart.next?, hc]
  cases h with
  | absent => exact ⟨part, rfl, .inl rfl, fun hne => absurd rfl hne⟩
  | unsigned he h =>
    refine ⟨.exponent, ?_, .inr rfl, fun _ => rfl⟩
    rw [run_cons (hletter he)]
    exact h.foldlM_next? (hdigit (by simp)) (hdigit (by simp))
  | @signed e sign ds he hsign h =>
    have hnext : NumberPart.next? .e sign = some .eSign := by
      rcases hsign with rfl | rfl <;> rfl
    refine ⟨.exponent, ?_, .inr rfl, fun _ => rfl⟩
    rw [run_cons (hletter he), run_cons hnext]
    exact h.foldlM_next? (hdigit (by simp)) (hdigit (by simp))

/-- After a fraction and an exponent a number may end. With one of them it is
more than digits. -/
theorem exists_last_part {part : NumberPart} {fraction exponent : List Char}
    (hf : Fraction fraction) (he : Exponent exponent) (hpart : part.isPlain = true) :
    ∃ last, (fraction ++ exponent).foldlM NumberPart.next? part = some last ∧
      last.complete = true ∧ (fraction ≠ [] ∨ exponent ≠ [] → last.isPlain = false) := by
  obtain ⟨mid, hmid, hkind, hfraction⟩ := hf.exists_part hpart
  obtain ⟨last, hlast, hlastKind, hexponent⟩ := he.exists_part hkind
  refine ⟨last, by rw [run_append hmid, hlast], ?_, ?_⟩
  · rcases hlastKind with rfl | rfl
    · rcases hkind with hplain | rfl
      · exact NumberPart.complete_of_isPlain hplain
      · rfl
    · rfl
  · rintro (hne | hne)
    · rcases hlastKind with rfl | rfl
      · rw [hfraction hne]
        rfl
      · rfl
    · rw [hexponent hne]
      rfl

/-- The part in which the digits of a whole number end. -/
def NumberPart.ofWhole (n : Nat) : NumberPart := if n = 0 then .zero else .digits

@[simp]
theorem NumberPart.isPlain_ofWhole (n : Nat) : (ofWhole n).isPlain = true := by
  rw [ofWhole]
  split <;> rfl

theorem NumberPart.next?_digits {c : Char} (hc : c.isDigit = true) :
    NumberPart.digits.next? c = some .digits := by
  simp [next?, hc]

theorem isBlank_of_isDigit {c : Char} (hc : c.isDigit = true) : isBlank c = false := by
  rw [Bool.eq_false_iff]
  intro hblank
  simp only [isBlank, Bool.or_eq_true, decide_eq_true_eq] at hblank
  rcases hblank with ((rfl | rfl) | rfl) | rfl <;> cases hc

theorem isDigit_digitChar {d : Nat} (hd : d < 10) : d.digitChar.isDigit = true := by
  rw [Nat.isDigit_digitChar]
  exact decide_eq_true hd

/-- The digits of a number are taken after its sign. -/
theorem foldlM_toDigits_minus (n : Nat) :
    (Nat.toDigits 10 n).foldlM NumberPart.next? .minus = some (.ofWhole n) := by
  induction n using Nat.strong_induction_on with
  | _ n ih =>
    rw [Nat.toDigits_eq_if (by decide)]
    split
    · next hn =>
      simp [NumberPart.next?, NumberPart.ofWhole, isDigit_digitChar hn, Nat.digitChar_eq_zero]
    · next hn =>
      have hdiv : n / 10 ≠ 0 := by omega
      have hn0 : n ≠ 0 := by omega
      have hdigit := isDigit_digitChar (Nat.mod_lt n (by decide : 0 < 10))
      rw [run_append (ih (n / 10) (by omega))]
      simp [NumberPart.ofWhole, hdiv, hn0, NumberPart.next?_digits hdigit]

namespace Lexer

/-- The reader takes the digits of a number and keeps its value. -/
theorem foldlM_toDigits (n : Nat) (done : List Token) :
    (Nat.toDigits 10 n).foldlM step ⟨.between, done⟩ =
      some ⟨.inNumber (.ofWhole n) true n, done⟩ := by
  induction n using Nat.strong_induction_on with
  | _ n ih =>
    rw [Nat.toDigits_eq_if (by decide)]
    split
    · next hn =>
      have hdigit := isDigit_digitChar hn
      have hvalue : n.digitChar.toNat - 48 = n := Nat.toNat_digitChar_sub_48_of_lt_ten hn
      simp [step, start, NumberPart.ofWhole, isBlank_of_isDigit hdigit, hdigit,
        Nat.digitChar_eq_zero, hvalue]
    · next hn =>
      have hlt : n % 10 < 10 := Nat.mod_lt n (by decide)
      have hdigit := isDigit_digitChar hlt
      have hdiv : n / 10 ≠ 0 := by omega
      have hn0 : n ≠ 0 := by omega
      have hvalue : n / 10 * 10 + ((n % 10).digitChar.toNat - 48) = n := by
        rw [Nat.toNat_digitChar_sub_48_of_lt_ten hlt]
        omega
      rw [run_append (ih (n / 10) (by omega))]
      simp [step, NumberPart.ofWhole, hdiv, hn0, NumberPart.next?_digits hdigit, hvalue,
        NumberPart.isPlain]

/-- The reader goes through the parts of a number. Once it is more than digits
it stays so. -/
theorem foldlM_parts {part last : NumberPart} {ds : List Char}
    (h : ds.foldlM NumberPart.next? part = some last) (plain : Bool)
    (hplain : plain = true → part.isPlain = true) (value : Nat) (done : List Token) :
    ∃ plain' value', ds.foldlM step ⟨.inNumber part plain value, done⟩ =
      some ⟨.inNumber last plain' value', done⟩ ∧
        (plain' = true → plain = true ∧ last.isPlain = true) := by
  induction ds generalizing part plain value with
  | nil =>
    obtain rfl : part = last := by simpa using h
    exact ⟨plain, value, rfl, fun hp => ⟨hp, hplain hp⟩⟩
  | cons c ds ih =>
    obtain ⟨next, hnext, h⟩ := exists_of_run_cons h
    have hstep : step ⟨.inNumber part plain value, done⟩ c =
        some ⟨.inNumber next (plain && next.isPlain) (value * 10 + (c.toNat - 48)), done⟩ := by
      simp [step, hnext]
    have hnow : (plain && next.isPlain) = true → next.isPlain = true := by simp
    obtain ⟨plain', value', hrun, hkeeps⟩ := ih h _ hnow (value * 10 + (c.toNat - 48))
    rw [run_cons hstep]
    refine ⟨plain', value', hrun, fun hp => ?_⟩
    obtain ⟨hboth, hlast⟩ := hkeeps hp
    exact ⟨(Bool.and_eq_true_iff.mp hboth).1, hlast⟩

/-! ### Tokens -/

/-- What the reader has found: the complete tokens, the last first. The last may
be a number that the next character ends. -/
inductive Holds : Lexer → List Token → Prop where
  | between (done : List Token) : Holds ⟨.between, done⟩ done
  | number {part : NumberPart} (hpart : part.complete = true) (plain : Bool) (value : Nat)
    (done : List Token) :
    Holds ⟨.inNumber part plain value, done⟩ (numberToken plain value :: done)

theorem Holds.finish_eq {l : Lexer} {done : List Token} (h : l.Holds done) :
    l.finish = some done.reverse := by
  cases h with
  | between => rfl
  | number hpart => simp [finish, hpart]

/-- A character that goes on with no number begins the next token. -/
theorem Holds.step_eq {l : Lexer} {done : List Token} (h : l.Holds done) {c : Char}
    (hc : ∀ part : NumberPart, part.next? c = none) : l.step c = start done c := by
  cases h with
  | between => rfl
  | number hpart => simp [step, hc, hpart]

/-- After the digits of a number its fraction and its exponent are taken, and
with a sign or one of them it is more than digits. -/
theorem foldlM_tail {fraction exponent : List Char} (hf : Fraction fraction)
    (he : Exponent exponent) {part : NumberPart} (hpart : part.isPlain = true) {plain : Bool}
    (hmore : plain = false ∨ fraction ≠ [] ∨ exponent ≠ []) (value : Nat) (done : List Token) :
    ∃ l, (fraction ++ exponent).foldlM step ⟨.inNumber part plain value, done⟩ = some l ∧
      l.Holds (.number :: done) := by
  obtain ⟨last, hlast, hcomplete, hnumber⟩ := exists_last_part hf he hpart
  obtain ⟨plain', value', hrun, hkeeps⟩ := foldlM_parts hlast plain (fun _ => hpart) value done
  have hnot : plain' = false := by
    rw [Bool.eq_false_iff]
    intro hp
    obtain ⟨hplain, hlastPlain⟩ := hkeeps hp
    rcases hmore with hsign | hmore
    · exact Bool.false_ne_true (hsign.symm.trans hplain)
    · exact Bool.false_ne_true ((hnumber hmore).symm.trans hlastPlain)
  refine ⟨_, hrun, ?_⟩
  rw [hnot]
  exact .number hcomplete false value' done

/-- Inside a string a mark is taken, however it is written. -/
theorem foldlM_mark {m : Mark} {w : List Char} (h : m.Written w) (marks : List Mark)
    (done : List Token) :
    w.foldlM step ⟨.inString marks, done⟩ = some ⟨.inString (m :: marks), done⟩ := by
  cases h with
  | plain hlow hquote hslash =>
    simp [step, hquote, hslash, Char.not_lt.mpr hlow]
  | short h =>
    have hescaped : ∀ p ∈ shortEscapes, p.1 ≠ 'u' ∧ escaped? p.1 = some p.2 := by decide
    obtain ⟨hne, he⟩ := hescaped _ h
    simp [step, hne, he]
  | code ha hb hc hd =>
    have hhex : ∀ p ∈ hexDigits, hexDigit? p.1 = some p.2 := by decide
    simp [step, hhex _ ha, hhex _ hb, hhex _ hc, hhex _ hd]

theorem foldlM_marks {marks : List Mark} {pieces : List (List Char)}
    (h : List.Forall₂ Mark.Written marks pieces) (before : List Mark) (done : List Token) :
    pieces.flatten.foldlM step ⟨.inString before, done⟩ =
      some ⟨.inString (marks.reverse ++ before), done⟩ := by
  induction h generalizing before with
  | nil => rfl
  | @cons m w marks pieces hm _ ih =>
    rw [List.flatten_cons, run_append (foldlM_mark hm before done)]
    simpa using ih (m :: before)

/-- From between two tokens the reader takes a token, however it is written. -/
theorem foldlM_token {t : Token} {w : List Char} (h : t.Written w) (done : List Token) :
    ∃ l, w.foldlM step ⟨.between, done⟩ = some l ∧ l.Holds (t :: done) := by
  cases h with
  | openObject | closeObject | openArray | closeArray | colon | comma | null | yes | no =>
    exact ⟨_, rfl, .between _⟩
  | natural n =>
    rw [foldlM_toDigits]
    exact ⟨_, rfl, .number (NumberPart.complete_of_isPlain (NumberPart.isPlain_ofWhole n)) true n
      done⟩
  | @number n sign fraction exponent hsign hf he hmore =>
    -- the digits, after a sign or not, lead to a part that is still digits alone
    obtain ⟨plain, value, hrun, hplain⟩ : ∃ plain value,
        (sign ++ Nat.toDigits 10 n).foldlM step ⟨.between, done⟩ =
          some ⟨.inNumber (.ofWhole n) plain value, done⟩ ∧ (plain = true → sign = []) := by
      rcases hsign with rfl | rfl
      · exact ⟨true, n, foldlM_toDigits n done, fun _ => rfl⟩
      · obtain ⟨plain, value, hrun, hkeeps⟩ :=
          foldlM_parts (foldlM_toDigits_minus n) false (fun h => nomatch h) 0 done
        exact ⟨plain, value, hrun, fun hp => nomatch (hkeeps hp).1⟩
    have hmore' : plain = false ∨ fraction ≠ [] ∨ exponent ≠ [] := by
      rcases hmore with hsign | hmore
      · exact .inl (Bool.eq_false_iff.mpr fun hp => hsign (hplain hp))
      · exact .inr hmore
    obtain ⟨l, hl, hholds⟩ := foldlM_tail hf he (NumberPart.isPlain_ofWhole n) hmore' value done
    refine ⟨l, ?_, hholds⟩
    rwa [List.append_assoc, run_append hrun]
  | @string marks pieces h =>
    have hquote : step ⟨.between, done⟩ '"' = some ⟨.inString [], done⟩ := rfl
    refine ⟨⟨.between, .string marks :: done⟩, ?_, .between _⟩
    rw [List.cons_append, run_cons hquote, run_append (foldlM_marks h [] done)]
    simp [step]

end Lexer

/-! ### Texts -/

/-- Two tokens may stand side by side when one of them is punctuation. -/
def Apart (t u : Token) : Prop := t.isPunctuation = true ∨ u.isPunctuation = true

/-- Punctuation is one character, which goes on with no number. -/
theorem Token.Written.eq_singleton {t : Token} {w : List Char} (h : t.Written w)
    (ht : t.isPunctuation = true) :
    ∃ c, w = [c] ∧ ∀ part : NumberPart, part.next? c = none := by
  cases h with
  | openObject | closeObject | openArray | closeArray | colon | comma =>
    exact ⟨_, rfl, fun part => by cases part <;> rfl⟩
  | null | yes | no | natural | number | string => cases ht

theorem NumberPart.next?_of_isBlank {c : Char} (hc : isBlank c = true) (part : NumberPart) :
    part.next? c = none := by
  simp only [isBlank, Bool.or_eq_true, decide_eq_true_eq] at hc
  rcases hc with ((rfl | rfl) | rfl) | rfl <;> cases part <;> rfl

namespace Lexer

/-- The reader takes a token from any state in which the last token may stand
next to it. -/
theorem Holds.foldlM_token {l : Lexer} {done : List Token} (h : l.Holds done) {t : Token}
    {w : List Char} (hw : t.Written w) (hapart : ∀ u ∈ done.head?, Apart u t) :
    ∃ l', w.foldlM step l = some l' ∧ l'.Holds (t :: done) := by
  cases h with
  | between => exact Lexer.foldlM_token hw done
  | number hpart plain value done =>
    -- a number that is not complete yet: only punctuation may come next
    have ht : t.isPunctuation = true := by
      rcases hapart _ rfl with h | h
      · rw [numberToken] at h
        split at h <;> cases h
      · exact h
    obtain ⟨c, rfl, hc⟩ := hw.eq_singleton ht
    obtain ⟨l', hl, hholds⟩ := Lexer.foldlM_token hw (numberToken plain value :: done)
    refine ⟨l', ?_, hholds⟩
    rwa [List.foldlM_cons, (Holds.number hpart plain value done).step_eq hc]

/-- The reader goes through a laid out text. -/
theorem Holds.foldlM_laid {ts : List Token} {text : List Char} (hlaid : Laid ts text)
    {l : Lexer} {done : List Token} (h : l.Holds done)
    (hapart : (done.head?.toList ++ ts).IsChain Apart) :
    ∃ l', text.foldlM step l = some l' ∧ l'.Holds (ts.reverse ++ done) := by
  induction hlaid generalizing l done with
  | nil => exact ⟨l, rfl, h⟩
  | @blank c ts text hc _ ih =>
    have hstep : l.step c = some ⟨.between, done⟩ := by
      rw [h.step_eq (NumberPart.next?_of_isBlank hc)]
      simp [start, hc]
    rw [run_cons hstep]
    exact ih (.between done) hapart
  | @token t ts w text hw _ ih =>
    have hnext : ∀ u ∈ done.head?, Apart u t := by
      intro u hu
      rw [Option.mem_def.mp hu] at hapart
      exact (List.isChain_cons_cons.mp hapart).1
    have hrest : (t :: ts).IsChain Apart := hapart.right_of_append
    obtain ⟨l', hl, hholds⟩ := h.foldlM_token hw hnext
    obtain ⟨l'', hl', hholds'⟩ := ih hholds hrest
    refine ⟨l'', ?_, by simpa using hholds'⟩
    rwa [run_append hl]

end Lexer

/-- The tokens of a laid out text are those it was laid out from. -/
theorem tokens?_of_laid {ts : List Token} {text : List Char} (hlaid : Laid ts text)
    (hapart : ts.IsChain Apart) : tokens? text = some ts := by
  obtain ⟨l, hl, hholds⟩ := (Lexer.Holds.between []).foldlM_laid hlaid hapart
  rw [tokens?, hl, Option.bind_eq_bind, Option.bind_some, hholds.finish_eq]
  simp

end PagedMap.Json
