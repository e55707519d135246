/-
# Rotating separators between two index blocks

The entries of two neighbours with that of the separator between them are one list, and a rotation
moves the border in this list by one separator (`Index.rotateOne?_keeps`).

A separator that has come down does not go up again, since it would come down only where the
other block is larger even without it. So all rotations of a run go to one side, there are no more
of them than separators on the other side, and the limit of a run is never what ends it
(`Index.rotate_settled`). Neighbours that are too large to merge are both larger than a sixth of
the room when no more separators rotate (`Index.Poised.large`), so none is left empty.

Key definitions: `Index.IsKey`, `Index.WellFormed`, `Index.Rotated.joined`, `Index.Settles`,
`Index.Poised`.
Key theorems: `Index.rotateOne?_keeps`, `Index.rotate_settled`, `Index.Poised.large`.
-/
import PagedMap.Proofs.Block.Cut
import PagedMap.Tree.Balance

namespace PagedMap.Index

open Block (mass)

variable {κ : Type} {K : OrderedCodec κ} {k l : Bytes} {c d : BlockNumber} {es fs : List Bytes}
  {b : Index K} {r r' r'' : Rotated K}

/-! ### Separators and their entries -/

/-- The bytes are found as the key of an entry, whichever child is behind them. -/
def IsKey (K : OrderedCodec κ) (k : Bytes) : Prop :=
  ∀ c, Block.keyOf K (separatorEntry k c) = .ok k

/-- The entry is a key and a child. -/
def IsSeparator (K : OrderedCodec κ) (e : Bytes) : Prop :=
  ∃ k c, IsKey K k ∧ e = separatorEntry k c

/-- All entries are separators. -/
def WellFormed (b : Index K) : Prop := ∀ e ∈ b.entries, IsSeparator K e

theorem length_separator (k : Bytes) (c : BlockNumber) :
    (separatorEntry k c).length = k.length + 4 := by
  rw [separatorEntry, List.length_append, Bytes.length_ofWord]

theorem separatorEntry_inj (h : separatorEntry k c = separatorEntry l d) : k = l ∧ c = d := by
  obtain ⟨hkey, hword⟩ := List.append_inj' h (by rw [Bytes.length_ofWord, Bytes.length_ofWord])
  refine ⟨hkey, ?_⟩
  rw [← Bytes.toWord_ofWord_append c [], hword, Bytes.toWord_ofWord_append]

/-- What is read of a separator is its key and its child. -/
theorem IsKey.cutEntry (h : IsKey K k) (c : BlockNumber) :
    Block.cutEntry K (separatorEntry k c) = .ok (k, Bytes.ofWord c) := by
  have hkey := h c
  rw [Block.keyOf] at hkey
  cases hcut : Block.cutEntry K (separatorEntry k c) with
  | error e =>
    rw [hcut] at hkey
    cases hkey
  | ok parts =>
    rw [hcut] at hkey
    have hfirst : parts.1 = k := Except.ok.inj hkey
    obtain ⟨n, -, hparts⟩ := exists_of_bind_eq_ok hcut
    have hall : parts.1 ++ parts.2 = separatorEntry k c := by
      split at hparts
      · rw [← Except.ok.inj hparts]
        exact List.take_append_drop ..
      · cases hparts
    rw [hfirst] at hall
    exact congrArg Except.ok (Prod.ext hfirst (List.append_cancel_left hall))

theorem IsKey.readPayload (h : IsKey K k) (c : BlockNumber) :
    Block.readPayload K word32.toCodec (separatorEntry k c) = .ok c := by
  rw [Block.readPayload, Block.payloadOf, h.cutEntry c]
  exact Codec.decode_bytes (word32_writes c)

/-- An encoded key is found. -/
theorem isKey_bytes [LinearOrder κ] [K.Lawful] {x : κ} (hx : K.Writes x) : IsKey K (K.bytes x) :=
  fun c => Block.keyOf_record (P := word32.toCodec) (i := (x, c)) ⟨hx, word32_writes c⟩

/-! ### One rotation -/

namespace Rotated

/-- The entries of both blocks, with that of the separator between them. -/
def joined (r : Rotated K) : List Bytes :=
  r.lower.entries ++ separatorEntry r.key r.lower.last :: r.upper.entries

/-- All entries are separators, the one between the blocks too. -/
def Separated (r : Rotated K) : Prop := ∀ e ∈ r.joined, IsSeparator K e

theorem separated_iff :
    r.Separated ↔ r.lower.WellFormed ∧ IsKey K r.key ∧ r.upper.WellFormed := by
  have hkey : IsSeparator K (separatorEntry r.key r.lower.last) ↔ IsKey K r.key := by
    refine ⟨fun ⟨k, c, hk, heq⟩ => ?_, fun hk => ⟨_, _, hk, rfl⟩⟩
    rwa [(separatorEntry_inj heq).1]
  rw [Separated, joined, List.forall_mem_append, List.forall_mem_cons, hkey]
  rfl

theorem mass_joined (r : Rotated K) :
    mass r.joined = r.lower.entryBytes + (r.key.length + 4) + r.upper.entryBytes := by
  rw [joined, Block.mass_append, Block.mass_cons, length_separator, ← Nat.add_assoc]
  rfl

/-- A separator can come down to the lower block. -/
def CanLower (r : Rotated K) : Prop :=
  r.lower.occupied + (r.key.length + 4) < r.upper.occupied ∧
    r.lower.occupied + (r.key.length + 4) ≤ r.lower.capacity

/-- A separator can come down to the upper block. -/
def CanRaise (r : Rotated K) : Prop :=
  r.upper.occupied + (r.key.length + 4) < r.lower.occupied ∧
    r.upper.occupied + (r.key.length + 4) ≤ r.upper.capacity

/-- A separator can come down to the lower block, or to the upper one. -/
def CanTurn (r : Rotated K) : Bool → Prop
  | true => r.CanLower
  | false => r.CanRaise

/-- How many separators the block has from which one goes up. -/
def supply (r : Rotated K) : Bool → Nat
  | true => r.upper.length
  | false => r.lower.length

instance (r : Rotated K) : Decidable r.CanLower := inferInstanceAs (Decidable (_ ∧ _))

instance (r : Rotated K) : Decidable r.CanRaise := inferInstanceAs (Decidable (_ ∧ _))

/-- A separator comes down to the lower block, and the first of the upper one goes up. -/
def lowered (r : Rotated K) (l : Bytes) (d : BlockNumber) (fs : List Bytes) : Rotated K :=
  ⟨{ r.lower with entries := r.lower.entries ++ [separatorEntry r.key r.lower.last], last := d },
    { r.upper with entries := fs }, l, r.moved + 1⟩

/-- A separator comes down to the upper block, and the last of the lower one goes up. -/
def raised (r : Rotated K) (l : Bytes) (c : BlockNumber) (es : List Bytes) : Rotated K :=
  ⟨{ r.lower with entries := es, last := c },
    { r.upper with entries := separatorEntry r.key r.lower.last :: r.upper.entries }, l,
    r.moved + 1⟩

/-- What a rotation keeps. -/
structure Keeps (r r' : Rotated K) : Prop where
  joined_eq : r'.joined = r.joined
  last_eq : r'.upper.last = r.upper.last
  lower_capacity : r'.lower.capacity = r.lower.capacity
  upper_capacity : r'.upper.capacity = r.upper.capacity
  lower_le : r.lower.occupied ≤ r.lower.capacity → r'.lower.occupied ≤ r.lower.capacity
  upper_le : r.upper.occupied ≤ r.upper.capacity → r'.upper.occupied ≤ r.upper.capacity

theorem Keeps.refl (r : Rotated K) : r.Keeps r := ⟨rfl, rfl, rfl, rfl, id, id⟩

theorem Keeps.trans (h : r.Keeps r') (h' : r'.Keeps r'') : r.Keeps r'' where
  joined_eq := h'.joined_eq.trans h.joined_eq
  last_eq := h'.last_eq.trans h.last_eq
  lower_capacity := h'.lower_capacity.trans h.lower_capacity
  upper_capacity := h'.upper_capacity.trans h.upper_capacity
  lower_le hle := h.lower_capacity ▸ h'.lower_le (h.lower_capacity.symm ▸ h.lower_le hle)
  upper_le hle := h.upper_capacity ▸ h'.upper_le (h.upper_capacity.symm ▸ h.upper_le hle)

theorem occupied_lowered (hupper : r.upper.entries = separatorEntry l d :: fs) :
    (r.lowered l d fs).lower.occupied = r.lower.occupied + (r.key.length + 4) ∧
      r.upper.occupied = (r.lowered l d fs).upper.occupied + (l.length + 4) := by
  simp only [lowered, Block.occupied, Block.entryBytes, hupper, Block.mass_append,
    Block.mass_cons, Block.mass_nil, length_separator]
  omega

theorem occupied_raised (hlower : r.lower.entries = es ++ [separatorEntry l c]) :
    (r.raised l c es).upper.occupied = r.upper.occupied + (r.key.length + 4) ∧
      r.lower.occupied = (r.raised l c es).lower.occupied + (l.length + 4) := by
  simp only [raised, Block.occupied, Block.entryBytes, hlower, Block.mass_append,
    Block.mass_cons, Block.mass_nil, length_separator]
  omega

theorem keeps_lowered (h : r.CanLower) (hupper : r.upper.entries = separatorEntry l d :: fs) :
    r.Keeps (r.lowered l d fs) := by
  obtain ⟨hlower, hless⟩ := occupied_lowered hupper
  exact ⟨by simp [joined, lowered, hupper], rfl, rfl, rfl, fun _ => hlower ▸ h.2,
    fun hle => by omega⟩

theorem keeps_raised (h : r.CanRaise) (hlower : r.lower.entries = es ++ [separatorEntry l c]) :
    r.Keeps (r.raised l c es) := by
  obtain ⟨hupper, hless⟩ := occupied_raised hlower
  exact ⟨by simp [joined, raised, hlower], rfl, rfl, rfl, fun hle => by omega,
    fun _ => hupper ▸ h.2⟩

/-- What has come down does not go up again. -/
theorem not_canRaise_lowered (h : r.CanLower)
    (hupper : r.upper.entries = separatorEntry l d :: fs) : ¬ (r.lowered l d fs).CanRaise := by
  obtain ⟨hlower, hless⟩ := occupied_lowered hupper
  have hlt := h.1
  rintro ⟨hback, -⟩
  change _ + (l.length + 4) < _ at hback
  omega

theorem not_canLower_raised (h : r.CanRaise)
    (hlower : r.lower.entries = es ++ [separatorEntry l c]) : ¬ (r.raised l c es).CanLower := by
  obtain ⟨hupper, hless⟩ := occupied_raised hlower
  have hlt := h.1
  rintro ⟨hback, -⟩
  change _ + (l.length + 4) < _ at hback
  omega

/-- The larger block has a separator that can go up. -/
theorem exists_first (hs : r.Separated) (h : r.CanLower) :
    ∃ l d fs, IsKey K l ∧ r.upper.entries = separatorEntry l d :: fs := by
  cases hupper : r.upper.entries with
  | nil =>
    have hlt := h.1
    have hempty : r.upper.entryBytes = 0 := by rw [Block.entryBytes, hupper, Block.mass_nil]
    rw [Block.occupied, Block.occupied, hempty] at hlt
    omega
  | cons e fs =>
    obtain ⟨l, d, hl, rfl⟩ := (separated_iff.1 hs).2.2 e (by simp [hupper])
    exact ⟨l, d, fs, hl, rfl⟩

theorem exists_last (hs : r.Separated) (h : r.CanRaise) :
    ∃ l c es, IsKey K l ∧ r.lower.entries = es ++ [separatorEntry l c] := by
  obtain hlower | ⟨es, e, hlower⟩ := List.eq_nil_or_concat' r.lower.entries
  · have hlt := h.1
    have hempty : r.lower.entryBytes = 0 := by rw [Block.entryBytes, hlower, Block.mass_nil]
    rw [Block.occupied, Block.occupied, hempty] at hlt
    omega
  · obtain ⟨l, c, hl, rfl⟩ := (separated_iff.1 hs).1 e (by simp [hlower])
    exact ⟨l, c, es, hl, hlower⟩

end Rotated

open Rotated

/-- What is read of the separator behind others, and what is left without it. -/
theorem read_separator (hb : b.entries = es ++ separatorEntry l d :: fs) (hl : IsKey K l) :
    child b es.length = .ok d ∧ b.keyBytes es.length = .ok l ∧
      b.removeAt es.length = .ok (separatorEntry l d, { b with entries := es ++ fs }) := by
  have hlt : es.length < b.length := by
    rw [Block.length, hb, List.length_append, List.length_cons]
    omega
  have hentry : b.entry es.length = .ok (separatorEntry l d) := by
    rw [Block.entry, hb, List.getElem?_append_right (Nat.le_refl _), Nat.sub_self]
    rfl
  refine ⟨?_, ?_, ?_⟩
  · rw [child, if_pos hlt, Block.payload, hentry]
    exact hl.readPayload d
  · rw [Block.keyBytes, hentry]
    exact hl d
  · rw [Block.removeAt, hentry, hb]
    exact congrArg (fun entries => Except.ok (separatorEntry l d, { b with entries }))
      (Block.eraseIdx_length_append es fs _)

theorem rotateOne?_lower (h : r.CanLower) (hl : IsKey K l)
    (hupper : r.upper.entries = separatorEntry l d :: fs) :
    rotateOne? r = .ok (some (r.lowered l d fs)) := by
  obtain ⟨hlt, hfit⟩ := h
  have hfirst : r.upper.entries = [] ++ separatorEntry l d :: fs := hupper
  obtain ⟨hchild, hkey, hremove⟩ := read_separator hfirst hl
  have hsome : r.upper.isEmpty = false := by rw [Block.isEmpty, hupper]; rfl
  have hinsert : r.lower.entries.insertIdx r.lower.length (separatorEntry r.key r.lower.last) =
      r.lower.entries ++ [separatorEntry r.key r.lower.last] := by
    have hput :=
      Block.insertIdx_length_append r.lower.entries [] (separatorEntry r.key r.lower.last)
    rwa [List.append_nil] at hput
  rw [List.length_nil] at hchild hkey hremove
  simp only [rotateOne?]
  rw [if_pos (by
    rw [hsome, decide_eq_true (by omega)]
    rfl), if_neg (by
    rw [Bool.or_eq_true, decide_eq_true_iff, decide_eq_true_iff]
    omega)]
  simp only [hchild, hkey, hremove, bind, Except.bind, pure, Except.pure, Block.insertIdx, hinsert,
    lowered, List.nil_append]

theorem rotateOne?_raise (h : r.CanRaise) (hl : IsKey K l)
    (hlower : r.lower.entries = es ++ [separatorEntry l c]) :
    rotateOne? r = .ok (some (r.raised l c es)) := by
  obtain ⟨hlt, hfit⟩ := h
  obtain ⟨hchild, hkey, hremove⟩ := read_separator hlower hl
  have hlength : r.lower.length - 1 = es.length := by
    rw [Block.length, hlower, List.length_append, List.length_singleton, Nat.add_sub_cancel]
  have hsome : r.lower.isEmpty = false := by rw [Block.isEmpty, hlower]; simp
  simp only [rotateOne?]
  rw [if_neg (by
    rw [decide_eq_false (by omega)]
    exact Bool.false_ne_true), if_pos (by
    rw [hsome, decide_eq_true (by omega)]
    rfl), if_neg (by
    rw [Bool.or_eq_true, decide_eq_true_iff, decide_eq_true_iff]
    omega)]
  simp only [hlength, hchild, hkey, hremove, bind, Except.bind, pure, Except.pure, Block.insertIdx,
    List.insertIdx_zero, List.append_nil, raised]

/-- Where no separator can come down none rotates. -/
theorem rotateOne?_stuck (hlower : ¬ r.CanLower) (hraise : ¬ r.CanRaise) :
    rotateOne? r = .ok none := by
  rw [CanLower] at hlower
  rw [CanRaise] at hraise
  simp only [rotateOne?]
  split
  next hcond =>
    have hlt := of_decide_eq_true (Bool.and_eq_true_iff.1 hcond).1
    rw [if_pos (by
      rw [Bool.or_eq_true, decide_eq_true_iff, decide_eq_true_iff]
      omega)]
  next =>
    split
    next hcond =>
      have hlt := of_decide_eq_true (Bool.and_eq_true_iff.1 hcond).1
      rw [if_pos (by
        rw [Bool.or_eq_true, decide_eq_true_iff, decide_eq_true_iff]
        omega)]
    next => rfl

/-! ### Rotations one after the other -/

/-- One rotation, to the lower block or to the upper one. -/
def Turns (lowers : Bool) (r r' : Rotated K) : Prop :=
  rotateOne? r = .ok (some r') ∧
    if lowers then r'.lower.length = r.lower.length + 1 else r'.upper.length = r.upper.length + 1

/-- Rotations without a limit, all to one side, until no separator rotates. -/
inductive Settles (lowers : Bool) : Rotated K → Rotated K → Prop
  | stop {r : Rotated K} : rotateOne? r = .ok none → Settles lowers r r
  | turn {r r' r'' : Rotated K} : Turns lowers r r' → Settles lowers r' r'' → Settles lowers r r''

/-- What one rotation of separators does. -/
theorem rotateOne?_keeps (hs : r.Separated) (h : rotateOne? r = .ok (some r')) :
    r.Keeps r' ∧ r'.Separated ∧ r'.moved = r.moved + 1 := by
  have hkeeps : r.Keeps r' ∧ r'.moved = r.moved + 1 := by
    by_cases hlower : r.CanLower
    · obtain ⟨l, d, fs, hl, hupper⟩ := exists_first hs hlower
      rw [rotateOne?_lower hlower hl hupper] at h
      obtain rfl := Option.some.inj (Except.ok.inj h)
      exact ⟨keeps_lowered hlower hupper, rfl⟩
    by_cases hraise : r.CanRaise
    · obtain ⟨l, c, es, hl, hentries⟩ := exists_last hs hraise
      rw [rotateOne?_raise hraise hl hentries] at h
      obtain rfl := Option.some.inj (Except.ok.inj h)
      exact ⟨keeps_raised hraise hentries, rfl⟩
    · rw [rotateOne?_stuck hlower hraise] at h
      cases h
  refine ⟨hkeeps.1, ?_, hkeeps.2⟩
  rw [Separated, hkeeps.1.joined_eq]
  exact hs

/-- A run keeps what one rotation keeps, and a run without a rotation changes nothing. -/
theorem Settles.keeps {lowers : Bool} (h : Settles lowers r r') (hs : r.Separated) :
    r.Keeps r' ∧ r'.Separated ∧ r.moved ≤ r'.moved ∧ (r'.moved = r.moved → r' = r) := by
  induction h with
  | stop => exact ⟨.refl _, hs, Nat.le_refl _, fun _ => rfl⟩
  | turn hturn _ ih =>
    obtain ⟨hkeeps, hs', hmoved⟩ := rotateOne?_keeps hs hturn.1
    obtain ⟨hrest, hs'', hle, -⟩ := ih hs'
    exact ⟨hkeeps.trans hrest, hs'', by omega, fun heq => by omega⟩

/-- A run ends where no separator rotates. -/
theorem Settles.stopped {lowers : Bool} (h : Settles lowers r r') : rotateOne? r' = .ok none := by
  induction h with
  | stop hnone => exact hnone
  | turn _ _ ih => exact ih

/-- A run ends in one way only. -/
theorem Settles.unique {lowers lowers' : Bool} (h : Settles lowers r r')
    (h' : Settles lowers' r r'') : r'' = r' := by
  induction h with
  | stop hnone =>
    cases h' with
    | stop => rfl
    | turn hturn => cases hnone.symm.trans hturn.1
  | turn hturn _ ih =>
    cases h' with
    | stop hnone => cases hnone.symm.trans hturn.1
    | turn hturn' hrest =>
      obtain rfl := Option.some.inj (Except.ok.inj (hturn.1.symm.trans hturn'.1))
      exact ih hrest

theorem rotateWithin_stuck (hlower : ¬ r.CanLower) (hraise : ¬ r.CanRaise) :
    ∀ limit, rotateWithin limit r = .ok r
  | 0 => rfl
  | limit + 1 => by
    rw [rotateWithin, rotateOne?_stuck hlower hraise]
    rfl

/-- While a separator can come down to one side one does, none can then come down to the other
side, and there is one less to go up. -/
theorem exists_turn (hs : r.Separated) (lowers : Bool) (h : r.CanTurn lowers) :
    ∃ r', Turns lowers r r' ∧ ¬ r'.CanTurn !lowers ∧ r'.supply lowers + 1 = r.supply lowers := by
  cases lowers with
  | true =>
    obtain ⟨l, d, fs, hl, hupper⟩ := exists_first hs h
    refine ⟨_, ⟨rotateOne?_lower h hl hupper, ?_⟩, not_canRaise_lowered h hupper, ?_⟩
    · simp [lowered, Block.length]
    · simp [supply, lowered, Block.length, hupper]
  | false =>
    obtain ⟨l, c, es, hl, hlower⟩ := exists_last hs h
    refine ⟨_, ⟨rotateOne?_raise h hl hlower, ?_⟩, not_canLower_raised h hlower, ?_⟩
    · simp [raised, Block.length]
    · simp [supply, raised, Block.length, hlower]

/-- Separators come down to one side, at most as many as the other block has. -/
theorem rotateWithin_settles (lowers : Bool) : ∀ {limit : Nat} {r : Rotated K}, r.Separated →
    (¬ r.CanTurn !lowers) → r.supply lowers ≤ limit →
    ∃ r', rotateWithin limit r = .ok r' ∧ Settles lowers r r'
  | limit, r, hs, hback, hlimit => by
    by_cases hturn : r.CanTurn lowers
    · obtain ⟨r', hturns, hback', hsupply⟩ := exists_turn hs lowers hturn
      cases limit with
      | zero => omega
      | succ limit =>
        have hlimit' : r'.supply lowers ≤ limit := by omega
        obtain ⟨r'', hrun, hsettles⟩ :=
          rotateWithin_settles lowers (rotateOne?_keeps hs hturns.1).2.1 hback' hlimit'
        refine ⟨r'', ?_, .turn hturns hsettles⟩
        rw [rotateWithin, hturns.1]
        exact hrun
    · have hneither : ¬ r.CanLower ∧ ¬ r.CanRaise := by
        cases lowers
        · exact ⟨hback, hturn⟩
        · exact ⟨hturn, hback⟩
      exact ⟨r, rotateWithin_stuck hneither.1 hneither.2 limit,
        .stop (rotateOne?_stuck hneither.1 hneither.2)⟩

/-- The rotations of a run are those of the run without a limit, and all go to one side. -/
theorem rotate_settled {lower upper : Index K} {key : Bytes}
    (hs : Separated ⟨lower, upper, key, 0⟩) :
    ∃ r, rotate lower upper key = .ok r ∧ ∃ lowers, Settles lowers ⟨lower, upper, key, 0⟩ r := by
  by_cases hlower : CanLower ⟨lower, upper, key, 0⟩
  · have hraise : ¬ CanRaise ⟨lower, upper, key, 0⟩ := fun hraise => by
      have hup := hraise.1
      have hdown := hlower.1
      omega
    obtain ⟨r, hrun, hsettles⟩ := rotateWithin_settles true hs hraise (Nat.le_add_left ..)
    exact ⟨r, hrun, true, hsettles⟩
  · obtain ⟨r, hrun, hsettles⟩ := rotateWithin_settles false hs hlower (Nat.le_add_right ..)
    exact ⟨r, hrun, false, hsettles⟩

/-! ### Blocks that are evened out -/

/-- No separator of `e` bytes rotates between blocks of `m` and `n` bytes: it
would not narrow the gap or does not fit. -/
def Poised (room m e n : Nat) : Prop :=
  (n ≤ m + e ∨ room < m + e) ∧ (m ≤ n + e ∨ room < n + e)

theorem Poised.large {room limit m e n : Nat} (h : Poised room m e n) (he : e ≤ limit)
    (hthird : 3 * limit ≤ room) (hover : room < m + e + n) : room < 6 * m ∧ room < 6 * n := by
  obtain ⟨h₁, h₂⟩ := h
  omega

/-- Blocks of one capacity between which no separator rotates are poised. -/
theorem poised_of_stopped {capacity room : Nat} (hs : r.Separated) (h : rotateOne? r = .ok none)
    (hroom : capacity = 8 + room) (hlower : r.lower.capacity = capacity)
    (hupper : r.upper.capacity = capacity) :
    Poised room r.lower.entryBytes (r.key.length + 4) r.upper.entryBytes := by
  have hstuck (lowers : Bool) : ¬ r.CanTurn lowers := fun hcan => by
    obtain ⟨r', hturns, -⟩ := exists_turn hs lowers hcan
    cases h.symm.trans hturns.1
  have hnot : ¬ r.CanLower ∧ ¬ r.CanRaise := ⟨hstuck true, hstuck false⟩
  rw [CanLower, CanRaise, Block.occupied, Block.occupied, Block.headerSize, hlower, hupper] at hnot
  rw [Poised]
  omega

end PagedMap.Index
