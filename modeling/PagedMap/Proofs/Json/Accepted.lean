/-
# Only laid out texts are accepted

The characters that the reader has taken are complete tokens, laid out, and the
beginning of one more token, as the phase tells it (`Phase.Begun`). The tokens
that the machine has taken are those of its frames and of what it holds
(`Expect.taken`). So a text is parsed as a value exactly if the tokens of the
value are laid out in it.

Key definitions: `Json.Phase.Begun`, `Json.Lexer.Read`, `Json.Expect.taken`.
Key theorem: `Json.parse?_eq_some_iff`.
-/
import PagedMap.Proofs.Json.Parser

namespace PagedMap.Json

/-! ### Numbers -/

/-- A digit and its value. -/
theorem exists_digitChar {c : Char} (hc : c.isDigit = true) :
    ∃ d, d < 10 ∧ c = d.digitChar ∧ c.toNat - 48 = d := by
  obtain ⟨hlow, hhigh⟩ := Char.isDigit_iff_toNat.mp hc
  have h48 : '0'.toNat = 48 := rfl
  have h57 : '9'.toNat = 57 := rfl
  refine ⟨c.toNat - 48, by omega, Char.toNat_inj.mp ?_, rfl⟩
  rw [Nat.toNat_digitChar_of_lt_ten (by omega)]
  omega

/-- The digits of a number and one more digit. -/
theorem toDigits_concat {n d : Nat} (hn : n ≠ 0) (hd : d < 10) :
    Nat.toDigits 10 n ++ [d.digitChar] = Nat.toDigits 10 (n * 10 + d) := by
  rw [← Nat.toDigits_of_lt_base hd, Nat.toDigits_append_toDigits (by decide) (by omega) hd,
    Nat.mul_comm 10 n]

theorem Digits.singleton {c : Char} (hc : c.isDigit = true) : Digits [c] :=
  ⟨by simp, by simpa using hc⟩

theorem Digits.concat {ds : List Char} (h : Digits ds) {c : Char} (hc : c.isDigit = true) :
    Digits (ds ++ [c]) := by
  refine ⟨by simp, fun d hd => ?_⟩
  rcases List.mem_append.mp hd with hd | hd
  · exact h.2 d hd
  · rwa [List.mem_singleton.mp hd]

theorem Exponent.concat {ds : List Char} (h : Exponent ds) (hne : ds ≠ []) {c : Char}
    (hc : c.isDigit = true) : Exponent (ds ++ [c]) := by
  cases h with
  | absent => exact absurd rfl hne
  | unsigned he hd => exact .unsigned he (hd.concat hc)
  | signed he hsign hd => exact .signed he hsign (hd.concat hc)

/-- The digits of a whole number, after a sign or not. -/
def Whole (w : List Char) : Prop :=
  ∃ sign n, (sign = [] ∨ sign = ['-']) ∧ w = sign ++ Nat.toDigits 10 n

/-- The digits of `n`, and then the value is `n`; or a sign and these digits. -/
def Counted (n : Nat) (plain : Bool) (value : Nat) (w : List Char) : Prop :=
  plain = true ∧ value = n ∧ w = Nat.toDigits 10 n ∨ plain = false ∧ w = '-' :: Nat.toDigits 10 n

theorem Counted.whole {n value : Nat} {plain : Bool} {w : List Char}
    (h : Counted n plain value w) : Whole w := by
  rcases h with ⟨-, -, rfl⟩ | ⟨-, rfl⟩
  · exact ⟨[], n, .inl rfl, rfl⟩
  · exact ⟨['-'], n, .inr rfl, rfl⟩

theorem Counted.concat {n value : Nat} {plain : Bool} {w : List Char}
    (h : Counted n plain value w) (hn : n ≠ 0) {d : Nat} (hd : d < 10) :
    Counted (n * 10 + d) plain (value * 10 + d) (w ++ [d.digitChar]) := by
  rcases h with ⟨hplain, rfl, rfl⟩ | ⟨hplain, rfl⟩
  · exact .inl ⟨hplain, rfl, toDigits_concat hn hd⟩
  · exact .inr ⟨hplain, congrArg ('-' :: ·) (toDigits_concat hn hd)⟩

/-- What has been taken of a number that is at a part. -/
def NumberPart.Begun (plain : Bool) (value : Nat) (w : List Char) : NumberPart → Prop
  | .minus => plain = false ∧ w = ['-']
  | .zero => Counted 0 plain value w
  | .digits => ∃ n ≠ 0, Counted n plain value w
  | .point => plain = false ∧ ∃ u, Whole u ∧ w = u ++ ['.']
  | .fraction => plain = false ∧ ∃ u ds, Whole u ∧ Digits ds ∧ w = u ++ '.' :: ds
  | .e => plain = false ∧
    ∃ u f e, Whole u ∧ Fraction f ∧ (e = 'e' ∨ e = 'E') ∧ w = u ++ f ++ [e]
  | .eSign => plain = false ∧ ∃ u f e sign, Whole u ∧ Fraction f ∧ (e = 'e' ∨ e = 'E') ∧
    (sign = '+' ∨ sign = '-') ∧ w = u ++ f ++ [e, sign]
  | .exponent => plain = false ∧
    ∃ u f x, Whole u ∧ Fraction f ∧ Exponent x ∧ x ≠ [] ∧ w = u ++ f ++ x

/-- What a character can be that goes on with a number. -/
theorem NumberPart.next?_cases {part next : NumberPart} {c : Char}
    (h : part.next? c = some next) :
    (c.isDigit = true ∧ (part = .minus ∧ next = (if c = '0' then .zero else .digits) ∨
      part = .digits ∧ next = .digits ∨ (part = .point ∨ part = .fraction) ∧ next = .fraction ∨
      (part = .e ∨ part = .eSign ∨ part = .exponent) ∧ next = .exponent)) ∨
    (c = '.' ∧ (part = .zero ∨ part = .digits) ∧ next = .point) ∨
    ((c = 'e' ∨ c = 'E') ∧ (part = .zero ∨ part = .digits ∨ part = .fraction) ∧ next = .e) ∨
    ((c = '+' ∨ c = '-') ∧ part = .e ∧ next = .eSign) := by
  unfold next? at h
  split at h
  next hc => left; refine ⟨hc, ?_⟩; cases part <;> simp_all
  next hc =>
    split at h
    next hpoint => right; left; cases part <;> simp_all
    next hpoint =>
      split at h
      next he => right; right; left; cases part <;> simp_all
      next he =>
        split at h
        next hsign => right; right; right; cases part <;> simp_all
        next hsign => cases h

/-- A number goes on with a digit. -/
theorem NumberPart.Begun.next_digit {part next : NumberPart} {plain : Bool} {value : Nat}
    {w : List Char} (h : part.Begun plain value w) {c : Char} (hc : c.isDigit = true)
    (hnext : part = .minus ∧ next = (if c = '0' then .zero else .digits) ∨
      part = .digits ∧ next = .digits ∨ (part = .point ∨ part = .fraction) ∧ next = .fraction ∨
      (part = .e ∨ part = .eSign ∨ part = .exponent) ∧ next = .exponent) :
    next.Begun (plain && next.isPlain) (value * 10 + (c.toNat - 48)) (w ++ [c]) := by
  rcases hnext with ⟨rfl, hkind⟩ | ⟨rfl, rfl⟩ | ⟨rfl | rfl, rfl⟩ | ⟨rfl | rfl | rfl, rfl⟩
  · obtain ⟨d, hd, rfl, -⟩ := exists_digitChar hc
    obtain ⟨rfl, rfl⟩ := h
    have hw : ['-'] ++ [d.digitChar] = '-' :: Nat.toDigits 10 d := by
      rw [Nat.toDigits_of_lt_base hd]
      rfl
    simp only [Nat.digitChar_eq_zero] at hkind
    rw [hw]
    by_cases hzero : d = 0
    · rw [if_pos hzero] at hkind
      subst hkind hzero
      exact .inr ⟨rfl, rfl⟩
    · rw [if_neg hzero] at hkind
      subst hkind
      exact ⟨d, hzero, .inr ⟨rfl, rfl⟩⟩
  · obtain ⟨d, hd, rfl, hvalue⟩ := exists_digitChar hc
    obtain ⟨n, hn, hcounted⟩ := h
    rw [hvalue, isPlain, Bool.and_true]
    exact ⟨n * 10 + d, by omega, hcounted.concat hn hd⟩
  · obtain ⟨rfl, u, hu, rfl⟩ := h
    exact ⟨rfl, u, [c], hu, .singleton hc, by simp⟩
  · obtain ⟨rfl, u, ds, hu, hds, rfl⟩ := h
    exact ⟨rfl, u, ds ++ [c], hu, hds.concat hc, by simp⟩
  · obtain ⟨rfl, u, f, e, hu, hf, he, rfl⟩ := h
    exact ⟨rfl, u, f, [e, c], hu, hf, .unsigned he (.singleton hc), by simp, by simp⟩
  · obtain ⟨rfl, u, f, e, sign, hu, hf, he, hsign, rfl⟩ := h
    exact ⟨rfl, u, f, [e, sign, c], hu, hf, .signed he hsign (.singleton hc), by simp, by simp⟩
  · obtain ⟨rfl, u, f, x, hu, hf, hx, hne, rfl⟩ := h
    exact ⟨rfl, u, f, x ++ [c], hu, hf, hx.concat hne hc, by simp, by simp⟩

/-- A number goes on from part to part. -/
theorem NumberPart.Begun.next {part next : NumberPart} {plain : Bool} {value : Nat}
    {w : List Char} (h : part.Begun plain value w) {c : Char} (hnext : part.next? c = some next) :
    next.Begun (plain && next.isPlain) (value * 10 + (c.toNat - 48)) (w ++ [c]) := by
  rcases next?_cases hnext with ⟨hc, hdigit⟩ | ⟨rfl, hpart, rfl⟩ | ⟨he, hpart, rfl⟩ |
    ⟨hsign, rfl, rfl⟩
  · exact h.next_digit hc hdigit
  · refine ⟨Bool.and_false plain, w, ?_, rfl⟩
    rcases hpart with rfl | rfl
    · exact h.whole
    · obtain ⟨n, -, hcounted⟩ := h
      exact hcounted.whole
  · refine ⟨Bool.and_false plain, ?_⟩
    rcases hpart with rfl | rfl | rfl
    · exact ⟨w, [], c, h.whole, .absent, he, by simp⟩
    · obtain ⟨n, -, hcounted⟩ := h
      exact ⟨w, [], c, hcounted.whole, .absent, he, by simp⟩
    · obtain ⟨-, u, ds, hu, hds, rfl⟩ := h
      exact ⟨u, '.' :: ds, c, hu, .point hds, he, rfl⟩
  · obtain ⟨rfl, u, f, e, hu, hf, he, rfl⟩ := h
    exact ⟨rfl, u, f, e, c, hu, hf, he, hsign, by simp⟩

theorem Whole.written {u f x : List Char} (hu : Whole u) (hf : Fraction f) (hx : Exponent x)
    (hmore : f ≠ [] ∨ x ≠ []) : Token.Written .number (u ++ f ++ x) := by
  obtain ⟨sign, n, hsign, rfl⟩ := hu
  exact .number n hsign hf hx (.inr hmore)

theorem Counted.written {n value : Nat} {plain : Bool} {w : List Char}
    (h : Counted n plain value w) : (numberToken plain value).Written w := by
  rcases h with ⟨rfl, rfl, rfl⟩ | ⟨rfl, rfl⟩
  · exact .natural value
  · have hwritten : Token.Written .number (['-'] ++ Nat.toDigits 10 n ++ [] ++ []) :=
      .number n (.inr rfl) .absent .absent (.inl (by simp))
    simpa [numberToken] using hwritten

/-- Where a number may end it is written. -/
theorem NumberPart.Begun.written {part : NumberPart} {plain : Bool} {value : Nat} {w : List Char}
    (h : part.Begun plain value w) (hpart : part.complete = true) :
    (numberToken plain value).Written w := by
  cases part with
  | zero => exact Counted.written h
  | digits =>
    obtain ⟨n, -, hcounted⟩ := h
    exact hcounted.written
  | fraction =>
    obtain ⟨rfl, u, ds, hu, hds, rfl⟩ := h
    have hwritten := hu.written (.point hds) .absent (.inl (by simp))
    rwa [List.append_nil] at hwritten
  | exponent =>
    obtain ⟨rfl, u, f, x, hu, hf, hx, hne, rfl⟩ := h
    exact hu.written hf hx (.inr hne)
  | minus | point | e | eSign => cases hpart

/-! ### Tokens -/

theorem mem_shortEscapes {letter c : Char} (h : escaped? letter = some c) :
    (letter, c) ∈ shortEscapes := by
  unfold escaped? at h
  split at h <;> cases h <;> decide

theorem mem_hexDigits {c : Char} {d : Nat} (h : hexDigit? c = some d) : (c, d) ∈ hexDigits := by
  have hall : ∀ n < 128, ∀ d ∈ hexDigit? (Char.ofNat n), (Char.ofNat n, d) ∈ hexDigits := by
    decide
  have hlt : c.toNat < 128 := by
    rw [hexDigit?] at h
    have hbound : ∀ {b : Char}, b.toNat < 128 → c ≤ b → c.toNat < 128 :=
      fun hb hle => Nat.lt_of_le_of_lt (UInt32.le_iff_toNat_le.mp (Char.le_def.mp hle)) hb
    split at h
    next hdigit => exact hbound (by decide) (of_decide_eq_true (Bool.and_eq_true_iff.mp hdigit).2)
    next =>
      split at h
      next hlower => exact hbound (by decide) (of_decide_eq_true (Bool.and_eq_true_iff.mp hlower).2)
      next =>
        split at h
        next hupper =>
          exact hbound (by decide) (of_decide_eq_true (Bool.and_eq_true_iff.mp hupper).2)
        next => cases h
  have hmem := hall c.toNat hlt d
  rw [Char.ofNat_toNat] at hmem
  exact hmem h

/-- What has been taken of a token, as the phase tells it. -/
def Phase.Begun (w : List Char) : Phase → Prop
  | .between => w = []
  | .word rest token => rest ≠ [] ∧ token.Written (w ++ rest)
  | .inNumber part plain value => part.Begun plain value w
  | .inString marks => ∃ pieces, List.Forall₂ Mark.Written marks.reverse pieces ∧
    w = '"' :: pieces.flatten
  | .escape marks => ∃ pieces, List.Forall₂ Mark.Written marks.reverse pieces ∧
    w = '"' :: pieces.flatten ++ ['\\']
  | .hex missing value marks => ∃ pieces, ∃ ds : List (Char × Nat),
    List.Forall₂ Mark.Written marks.reverse pieces ∧ (∀ d ∈ ds, d ∈ hexDigits) ∧
    ds.length + missing = 3 ∧ value = ds.foldl (fun v d => v * 16 + d.2) 0 ∧
    w = '"' :: pieces.flatten ++ '\\' :: 'u' :: ds.map Prod.fst

namespace Lexer

/-- The reader has taken a text: complete tokens, laid out, and the beginning of
one more. -/
def Read (l : Lexer) (text : List Char) : Prop :=
  ∃ before w, text = before ++ w ∧ Laid l.done.reverse before ∧ l.phase.Begun w

theorem read_between {done : List Token} {text : List Char} (h : Laid done.reverse text) :
    Read ⟨.between, done⟩ text :=
  ⟨text, [], by simp, h, rfl⟩

/-- A complete token is laid out after those before it. -/
theorem laid_cons {done : List Token} {before w : List Char} (h : Laid done.reverse before)
    {t : Token} (hw : t.Written w) : Laid (t :: done).reverse (before ++ w) := by
  have hlaid : Laid [t] (w ++ []) := .token hw .nil
  rw [List.append_nil] at hlaid
  rw [List.reverse_cons]
  exact h.append hlaid

theorem read_token {done : List Token} {before w : List Char} (h : Laid done.reverse before)
    {t : Token} (hw : t.Written w) : Read ⟨.between, t :: done⟩ (before ++ w) :=
  read_between (laid_cons h hw)

/-- A complete mark is written after those before it. -/
theorem read_mark {done : List Token} {before : List Char} (h : Laid done.reverse before)
    {marks : List Mark} {pieces : List (List Char)}
    (hpieces : List.Forall₂ Mark.Written marks.reverse pieces) {m : Mark} {w : List Char}
    (hm : m.Written w) :
    Read ⟨.inString (m :: marks), done⟩ (before ++ '"' :: (pieces.flatten ++ w)) := by
  refine ⟨before, _, rfl, h, pieces ++ [w], ?_, by simp⟩
  rw [List.reverse_cons]
  exact List.rel_append hpieces (.cons hm .nil)

/-- A character begins a token, or it is a whole one or a blank. -/
theorem read_start {done : List Token} {before : List Char} (h : Laid done.reverse before)
    {c : Char} {l : Lexer} (hstart : start done c = some l) : l.Read (before ++ [c]) := by
  unfold start at hstart
  split at hstart
  next hblank =>
    cases hstart
    have hlaid := h.append (.blank hblank .nil)
    rw [List.append_nil] at hlaid
    exact read_between hlaid
  next hblank =>
    split at hstart
    next hdigit =>
      cases hstart
      obtain ⟨d, hd, rfl, hvalue⟩ := exists_digitChar hdigit
      refine ⟨before, [d.digitChar], rfl, h, ?_⟩
      rw [hvalue, ← Nat.toDigits_of_lt_base hd]
      by_cases hzero : d = 0
      · subst hzero
        exact .inl ⟨rfl, rfl, rfl⟩
      · rw [if_neg (by simpa using hzero)]
        exact ⟨d, hzero, .inl ⟨rfl, rfl, rfl⟩⟩
    next hdigit =>
      split at hstart <;> cases hstart
      · exact read_token h .openObject
      · exact read_token h .closeObject
      · exact read_token h .openArray
      · exact read_token h .closeArray
      · exact read_token h .colon
      · exact read_token h .comma
      · exact ⟨before, ['"'], rfl, h, [], .nil, rfl⟩
      · exact ⟨before, ['-'], rfl, h, rfl, rfl⟩
      · exact ⟨before, ['t'], rfl, h, by simp, .yes⟩
      · exact ⟨before, ['f'], rfl, h, by simp, .no⟩
      · exact ⟨before, ['n'], rfl, h, by simp, .null⟩

section Step

variable {done : List Token} {before w : List Char} {c : Char} {l : Lexer}

/-- A literal goes on with its next character, and the last one completes it. -/
theorem read_word (h : Laid done.reverse before) {rest : List Char} {token : Token}
    (hbegun : (Phase.word rest token).Begun w)
    (hstep : Lexer.step ⟨.word rest token, done⟩ c = some l) : l.Read (before ++ w ++ [c]) := by
  obtain ⟨hne, hwritten⟩ := hbegun
  rcases rest with _ | ⟨next, _ | ⟨second, rest⟩⟩
  · exact absurd rfl hne
  · obtain ⟨rfl, hl⟩ := Option.ite_none_right_eq_some.mp hstep
    cases hl
    rw [List.append_assoc]
    exact read_token h hwritten
  · obtain ⟨rfl, hl⟩ := Option.ite_none_right_eq_some.mp hstep
    cases hl
    exact ⟨before, w ++ [c], by simp, h, by simp, by simpa using hwritten⟩

/-- A number goes on, or it is complete and something else begins. -/
theorem read_number (h : Laid done.reverse before) {part : NumberPart} {plain : Bool} {value : Nat}
    (hbegun : part.Begun plain value w)
    (hstep : Lexer.step ⟨.inNumber part plain value, done⟩ c = some l) :
    l.Read (before ++ w ++ [c]) := by
  unfold Lexer.step at hstep
  cases hnext : part.next? c with
  | some next =>
    simp only [hnext] at hstep
    cases hstep
    exact ⟨before, w ++ [c], by simp, h, hbegun.next hnext⟩
  | none =>
    simp only [hnext] at hstep
    obtain ⟨hpart, hstart⟩ := Option.ite_none_right_eq_some.mp hstep
    exact read_start (laid_cons h (hbegun.written hpart)) hstart

/-- In a string, a quote ends it, a backslash begins an escape, and no control character is
taken. -/
theorem read_string (h : Laid done.reverse before) {marks : List Mark}
    (hbegun : (Phase.inString marks).Begun w)
    (hstep : Lexer.step ⟨.inString marks, done⟩ c = some l) : l.Read (before ++ w ++ [c]) := by
  obtain ⟨pieces, hpieces, rfl⟩ := hbegun
  rw [List.append_assoc]
  unfold Lexer.step at hstep
  simp only at hstep
  split at hstep
  next hquote =>
    cases hstep
    rw [hquote]
    exact read_token h (.string hpieces)
  next hquote =>
    split at hstep
    next hslash =>
      cases hstep
      rw [hslash]
      exact ⟨before, _, rfl, h, pieces, hpieces, rfl⟩
    next hslash =>
      split at hstep
      next hlow => cases hstep
      next hlow =>
        cases hstep
        exact read_mark h hpieces (.plain (Char.not_lt.mp hlow) hquote hslash)

/-- After a backslash stands the letter of a short escape, or a `u`. -/
theorem read_escape (h : Laid done.reverse before) {marks : List Mark}
    (hbegun : (Phase.escape marks).Begun w)
    (hstep : Lexer.step ⟨.escape marks, done⟩ c = some l) : l.Read (before ++ w ++ [c]) := by
  obtain ⟨pieces, hpieces, rfl⟩ := hbegun
  unfold Lexer.step at hstep
  simp only at hstep
  split at hstep
  next hu =>
    cases hstep
    exact ⟨before, _, List.append_assoc .., h, pieces, [], hpieces, by simp, rfl, rfl,
      by simp [hu]⟩
  next hu =>
    obtain ⟨e, he, hl⟩ := Option.map_eq_some_iff.mp hstep
    cases hl
    simpa using read_mark h hpieces (.short (mem_shortEscapes he))

/-- An escape by number goes on with a digit, and the fourth completes it. -/
theorem read_hex (h : Laid done.reverse before) {missing value : Nat} {marks : List Mark}
    (hbegun : (Phase.hex missing value marks).Begun w)
    (hstep : Lexer.step ⟨.hex missing value marks, done⟩ c = some l) :
    l.Read (before ++ w ++ [c]) := by
  obtain ⟨pieces, ds, hpieces, hds, hlength, rfl, rfl⟩ := hbegun
  obtain ⟨d, hd, hl⟩ := Option.bind_eq_some_iff.mp hstep
  have hmem := mem_hexDigits hd
  cases missing with
  | zero =>
    cases hl
    obtain ⟨a, b, e, rfl⟩ := List.length_eq_three.mp hlength
    have hwritten : Mark.Written _ ['\\', 'u', a.1, b.1, e.1, c] :=
      .code (hds a (by simp)) (hds b (by simp)) (hds e (by simp)) hmem
    simpa using read_mark h hpieces hwritten
  | succ missing =>
    cases hl
    refine ⟨before, _, List.append_assoc .., h, pieces, ds ++ [(c, d)], hpieces, ?_, ?_, ?_,
      by simp⟩
    · intro p hp
      rcases List.mem_append.mp hp with hp | hp
      · exact hds p hp
      · rwa [List.mem_singleton.mp hp]
    · rw [List.length_append, List.length_singleton]
      omega
    · rw [List.foldl_append]
      rfl

/-- Each character that the reader takes goes on with what it has taken. -/
theorem Read.step {text : List Char} {l' : Lexer} (h : l.Read text)
    (hstep : l.step c = some l') : l'.Read (text ++ [c]) := by
  obtain ⟨phase, done⟩ := l
  obtain ⟨before, w, rfl, hlaid, hbegun⟩ := h
  cases phase with
  | between =>
    obtain rfl : w = [] := hbegun
    rw [List.append_nil]
    exact read_start hlaid hstep
  | word => exact read_word hlaid hbegun hstep
  | inNumber => exact read_number hlaid hbegun hstep
  | inString => exact read_string hlaid hbegun hstep
  | escape => exact read_escape hlaid hbegun hstep
  | hex => exact read_hex hlaid hbegun hstep

end Step

/-- The reader has taken the text that it went through. -/
theorem Read.run {l l' : Lexer} {before text : List Char} (h : l.Read before)
    (hrun : text.foldlM Lexer.step l = some l') : l'.Read (before ++ text) :=
  run_invariant (fun hread hstep => hread.step hstep) h hrun

theorem Read.finish {l : Lexer} {text : List Char} (h : l.Read text) {ts : List Token}
    (hfinish : l.finish = some ts) : Laid ts text := by
  obtain ⟨phase, done⟩ := l
  obtain ⟨before, w, rfl, hlaid, hbegun⟩ := h
  unfold Lexer.finish at hfinish
  cases phase with
  | between =>
    obtain rfl : w = [] := hbegun
    cases hfinish
    rwa [List.append_nil]
  | inNumber part plain value =>
    obtain ⟨hpart, hdone⟩ := Option.ite_none_right_eq_some.mp hfinish
    cases hdone
    exact laid_cons hlaid (NumberPart.Begun.written hbegun hpart)
  | word | inString | escape | hex => cases hfinish

end Lexer

/-- The tokens of a text are laid out in it. -/
theorem laid_of_tokens? {ts : List Token} {text : List Char} (h : tokens? text = some ts) :
    Laid ts text := by
  obtain ⟨l, hrun, hfinish⟩ := Option.bind_eq_some_iff.mp h
  have hstart : Lexer.Read ⟨.between, []⟩ [] := Lexer.read_between .nil
  exact (hstart.run hrun).finish hfinish

/-! ### Values -/

/-- The tokens of a member. -/
def memberToken (member : List Mark × Value) : List Token :=
  .string member.1 :: .colon :: member.2.tokens

/-- Items with a comma after each but the last, or before each but the first. -/
theorem itemTokens_concat (items : List Value) (v : Value) :
    .comma :: (items.flatMap (fun u => u.tokens ++ [.comma]) ++ v.tokens) =
      itemTokens (items ++ [v]) := by
  induction items with
  | nil => simp [itemTokens]
  | cons u items ih => simp [itemTokens, ← ih]

theorem memberTokens_concat (members : List (List Mark × Value)) (m : List Mark × Value) :
    .comma :: (members.flatMap (fun u => memberToken u ++ [.comma]) ++ memberToken m) =
      memberTokens (members ++ [m]) := by
  induction members with
  | nil => simp [memberTokens, memberToken]
  | cons u members ih => simp [memberTokens, memberToken, ← ih]

theorem tokens_array_concat (items : List Value) (v : Value) :
    (Value.array (items ++ [v])).tokens =
      .openArray :: (items.flatMap (fun u => u.tokens ++ [.comma]) ++ v.tokens) ++
        [.closeArray] := by
  cases items with
  | nil => simp [Value.tokens, itemTokens]
  | cons u items => simp [Value.tokens, ← itemTokens_concat]

theorem tokens_object_concat (members : List (List Mark × Value)) (m : List Mark × Value) :
    (Value.object (members ++ [m])).tokens =
      .openObject :: (members.flatMap (fun u => memberToken u ++ [.comma]) ++ memberToken m) ++
        [.closeObject] := by
  cases members with
  | nil => simp [Value.tokens, memberTokens, memberToken]
  | cons u members => simp [Value.tokens, ← memberTokens_concat, memberToken]

/-- The tokens that opened the frames and filled them. -/
def taken : List Frame → List Token
  | [] => []
  | .array items :: frames =>
    taken frames ++ .openArray :: items.reverse.flatMap fun v => v.tokens ++ [.comma]
  | .object members name :: frames =>
    taken frames ++ .openObject :: (members.reverse.flatMap fun m => memberToken m ++ [.comma]) ++
      [.string name, .colon]

namespace Expect

/-- The tokens that have led to a state. -/
def taken : Expect → List Token
  | .value frames => Json.taken frames
  | .valueOrClose frames => Json.taken frames ++ [.openArray]
  | .member members frames => Json.taken frames ++
    .openObject :: members.reverse.flatMap fun m => memberToken m ++ [.comma]
  | .memberOrClose frames => Json.taken frames ++ [.openObject]
  | .colon name members frames => Json.taken frames ++
    .openObject :: (members.reverse.flatMap fun m => memberToken m ++ [.comma]) ++ [.string name]
  | .next v frames => Json.taken frames ++ v.tokens

theorem taken_begin {frames : List Frame} {t : Token} {e : Expect} (h : begin frames t = some e) :
    e.taken = Json.taken frames ++ [t] := by
  cases t with
  | openObject | openArray => cases h; rfl
  | null | bool | natural | number | string => cases h; rw [taken, Value.tokens]
  | closeObject | closeArray | colon | comma => cases h

/-- Each token that the machine takes is one more. -/
theorem taken_step {e e' : Expect} {t : Token} (h : step e t = some e') :
    e'.taken = e.taken ++ [t] := by
  unfold step at h
  split at h
  · exact taken_begin h
  · cases h
    simp [taken, Value.tokens]
  · rw [taken_begin h]
    rfl
  · cases h; simp [taken]
  · cases h; simp [taken]
  · cases h; simp [taken, Value.tokens]
  · cases h; simp [taken, Json.taken]
  · cases h; simp [taken, Json.taken]
  · cases h
    rw [taken, List.reverse_cons, tokens_array_concat]
    simp [taken, Json.taken]
  · cases h; simp [taken, Json.taken, memberToken]
  · cases h
    rw [taken, List.reverse_cons, tokens_object_concat]
    simp [taken, Json.taken, memberToken]
  · cases h

theorem taken_run {ts : List Token} {e e' : Expect} (h : ts.foldlM step e = some e') :
    e'.taken = e.taken ++ ts := by
  refine run_invariant (Q := fun s before => s.taken = e.taken ++ before) ?_
    (List.append_nil _).symm h
  intro s t before a hs ha
  rw [taken_step ha, hs, List.append_assoc]

end Expect

theorem tokens_of_ofTokens? {ts : List Token} {v : Value} (h : ofTokens? ts = some v) :
    ts = v.tokens := by
  obtain ⟨e, hrun, he⟩ := Option.bind_eq_some_iff.mp h
  have htaken := Expect.taken_run hrun
  split at he
  · cases he
    simpa [Expect.taken, taken] using htaken.symm
  · cases he

/-- **The reader accepts the laid out texts and no others.** A text is parsed as
a value exactly if the tokens of this value are laid out in it. -/
theorem parse?_eq_some_iff {text : String} {v : Value} :
    parse? text = some v ↔ Laid v.tokens text.toList := by
  constructor
  · intro h
    obtain ⟨ts, htokens, hvalue⟩ := Option.bind_eq_some_iff.mp h
    rw [← tokens_of_ofTokens? hvalue]
    exact laid_of_tokens? htokens
  · exact parse?_of_laid

end PagedMap.Json
