/-
# Options come back from the texts that list them

An object that lists some of the fields of some options, each once, in any order
and among unknown fields, is read as the options with the other fields at their
defaults, whatever its text looks like; the text that is written for options is
one of these. Checking comes after reading, and each dimension is checked by
itself, so a default in its place is never the cause of a rejection.

Key definitions: `Options.Lists`, `Options.restrict`, `Options.InRange`.
Key theorem: `Options.ofText_listed`.
-/
import PagedMap.Options.Text
import PagedMap.Proofs.Json.Parser
import PagedMap.Proofs.Store.Layout

namespace PagedMap

namespace Options

open Json

/-! ### Fields -/

/-- The value of a field. -/
def fieldValue (o : Options) : Field → Json.Value
  | .createIfMissing => .bool o.createIfMissing
  | .errorIfExists => .bool o.errorIfExists
  | .blockSize => .natural o.blockSize
  | .maxBlocks => .natural o.maxBlocks
  | .regionBlockSize => .natural o.regionBlockSize
  | .regionMaxBlocks => .natural o.regionMaxBlocks
  | .reserveSize => .natural o.reserveSize
  | .syncOnSave => .bool o.syncOnSave

/-- The numbers are in the ranges of their fields: sizes are words of 64 bits
and counts words of 32 bits. -/
structure InRange (o : Options) : Prop where
  blockSize : o.blockSize < UInt64.size
  maxBlocks : o.maxBlocks < UInt32.size
  regionBlockSize : o.regionBlockSize < UInt64.size
  regionMaxBlocks : o.regionMaxBlocks < UInt32.size
  reserveSize : o.reserveSize < UInt64.size

theorem Fits.inRange {o : Options} (h : o.Fits) : o.InRange := by
  have h64 : maxInt32 < UInt64.size := by decide
  have h32 : maxInt32 < UInt32.size := by decide
  exact ⟨Nat.lt_of_le_of_lt h.blockSize.2 h64, Nat.lt_of_le_of_lt h.maxBlocks.2 h32,
    Nat.lt_of_le_of_lt h.regionBlockSize.2 h64, Nat.lt_of_le_of_lt h.regionMaxBlocks.2 h32,
    Nat.lt_of_le_of_lt h.reserveSize.2 h64⟩

/-- The given fields of `o`, and the other fields of `base`. -/
def merge (base o : Options) (fs : List Field) : Options where
  createIfMissing := if .createIfMissing ∈ fs then o.createIfMissing else base.createIfMissing
  errorIfExists := if .errorIfExists ∈ fs then o.errorIfExists else base.errorIfExists
  blockSize := if .blockSize ∈ fs then o.blockSize else base.blockSize
  maxBlocks := if .maxBlocks ∈ fs then o.maxBlocks else base.maxBlocks
  regionBlockSize := if .regionBlockSize ∈ fs then o.regionBlockSize else base.regionBlockSize
  regionMaxBlocks := if .regionMaxBlocks ∈ fs then o.regionMaxBlocks else base.regionMaxBlocks
  reserveSize := if .reserveSize ∈ fs then o.reserveSize else base.reserveSize
  syncOnSave := if .syncOnSave ∈ fs then o.syncOnSave else base.syncOnSave

/-- The options with all fields but the given ones at their defaults. -/
def restrict (o : Options) (fs : List Field) : Options := merge {} o fs

theorem eq_of_fieldValue {o p : Options} (h : ∀ f, o.fieldValue f = p.fieldValue f) : o = p := by
  cases o
  cases p
  obtain rfl := Json.Value.bool.inj (h .createIfMissing)
  obtain rfl := Json.Value.bool.inj (h .errorIfExists)
  obtain rfl := Json.Value.natural.inj (h .blockSize)
  obtain rfl := Json.Value.natural.inj (h .maxBlocks)
  obtain rfl := Json.Value.natural.inj (h .regionBlockSize)
  obtain rfl := Json.Value.natural.inj (h .regionMaxBlocks)
  obtain rfl := Json.Value.natural.inj (h .reserveSize)
  obtain rfl := Json.Value.bool.inj (h .syncOnSave)
  rfl

theorem fieldValue_merge (base o : Options) (fs : List Field) (f : Field) :
    (merge base o fs).fieldValue f = if f ∈ fs then o.fieldValue f else base.fieldValue f := by
  cases f <;> simp only [fieldValue, merge] <;> split <;> rfl

theorem merge_nil (base o : Options) : merge base o [] = base :=
  eq_of_fieldValue fun f => by simp [fieldValue_merge]

theorem merge_merge (base o : Options) (f : Field) (fs : List Field) :
    merge (merge base o [f]) o fs = merge base o (f :: fs) := by
  refine eq_of_fieldValue fun g => ?_
  simp only [fieldValue_merge, List.mem_cons, List.not_mem_nil, or_false]
  by_cases hg : g ∈ fs <;> simp [hg]

theorem restrict_all (o : Options) : o.restrict Field.all = o :=
  eq_of_fieldValue fun f => by cases f <;> rfl

/-- The value of a field is of its type. -/
theorem set?_fieldValue {o : Options} (h : o.InRange) (base : Options) (f : Field) :
    base.set? (o.fieldValue f) f = some (merge base o [f]) := by
  cases f <;>
    simp [set?, fieldValue, ofBool?, ofNatural?, merge, h.blockSize, h.maxBlocks,
      h.regionBlockSize, h.regionMaxBlocks, h.reserveSize]

/-- Each dimension is one of `o` or a default. -/
theorem Fits.restrict {o : Options} (h : o.Fits) (fs : List Field) : (o.restrict fs).Fits := by
  have hdefault : ({} : Options).Fits := validate_eq.mp rfl
  have hpick (P : Nat → Prop) (f : Field) {a b : Nat} (ha : P a) (hb : P b) :
      P (if f ∈ fs then a else b) := by
    split
    · exact ha
    · exact hb
  exact ⟨hpick (fun n => minBlockSize ≤ n ∧ n ≤ maxInt32) .blockSize h.blockSize
      hdefault.blockSize,
    hpick (fun n => minBlockSize ≤ n ∧ n ≤ maxInt32) .regionBlockSize h.regionBlockSize
      hdefault.regionBlockSize,
    hpick (fun n => 0 < n ∧ n ≤ maxInt32) .maxBlocks h.maxBlocks hdefault.maxBlocks,
    hpick (fun n => 0 < n ∧ n ≤ maxInt32) .regionMaxBlocks h.regionMaxBlocks
      hdefault.regionMaxBlocks,
    hpick (fun n => descriptorSize ≤ n ∧ n ≤ maxInt32) .reserveSize h.reserveSize
      hdefault.reserveSize⟩

theorem Field.ofName?_name (f : Field) : Field.ofName? f.name = some f := by
  cases f <;> decide

theorem Field.ofName?_eq_none {name : String} (h : ∀ f : Field, f.name ≠ name) :
    Field.ofName? name = none :=
  List.find?_eq_none.mpr fun f _ => by simpa using h f

/-! ### Reading -/

/-- The members list the given fields with the values of `o`, each once, and
among them fields whose names are unknown, with any values. -/
inductive Lists (o : Options) : List Field → List (List Mark × Json.Value) → Prop where
  | nil : Lists o [] []
  | field {f : Field} {fs : List Field} {name : List Mark}
    {members : List (List Mark × Json.Value)} (hname : Spells name f.name.toList) (hnew : f ∉ fs)
    (h : Lists o fs members) : Lists o (f :: fs) ((name, o.fieldValue f) :: members)
  | unknown {fs : List Field} {name : List Mark} {cs : List Char} {v : Json.Value}
    {members : List (List Mark × Json.Value)} (hname : Spells name cs)
    (hunknown : ∀ f : Field, f.name.toList ≠ cs) (h : Lists o fs members) :
    Lists o fs ((name, v) :: members)

theorem Lists.ofMembers?_eq {o : Options} (hr : o.InRange) {fs : List Field}
    {members : List (List Mark × Json.Value)} (h : Lists o fs members) {seen : List Field}
    (hseen : ∀ f ∈ fs, f ∉ seen) (base : Options) :
    ofMembers? seen base members = some (merge base o fs) := by
  induction h generalizing seen base with
  | nil => rw [ofMembers?, merge_nil]
  | @field f fs name members hname hnew _ ih =>
    have hrest : ∀ g ∈ fs, g ∉ f :: seen := by
      intro g hg hmem
      rcases List.mem_cons.mp hmem with rfl | hmem
      · exact hnew hg
      · exact hseen g (List.mem_cons_of_mem f hg) hmem
    simp only [ofMembers?, hname.characters?_eq, Option.bind_eq_bind, Option.bind_some,
      String.ofList_toList, Field.ofName?_name, if_neg (hseen f List.mem_cons_self),
      set?_fieldValue hr]
    rw [ih hrest, merge_merge]
  | @unknown fs name cs v members hname hunknown _ ih =>
    have hnone : Field.ofName? (String.ofList cs) = none := by
      refine Field.ofName?_eq_none fun f hf => hunknown f ?_
      rw [hf, String.toList_ofList]
    simp only [ofMembers?, hname.characters?_eq, Option.bind_eq_bind, Option.bind_some, hnone]
    exact ih hseen base

/-- A text that lists some fields is read as the options with the others at
their defaults, and then these are checked. -/
theorem ofText_of_lists {o : Options} (hr : o.InRange) {fs : List Field}
    {members : List (List Mark × Json.Value)} (h : Lists o fs members) {text : String}
    (hlaid : Laid (Json.Value.object members).tokens text.toList) :
    ofText text = ((o.restrict fs).validate).map fun _ => o.restrict fs := by
  have hread := h.ofMembers?_eq hr (fun _ _ => List.not_mem_nil) {}
  rw [ofText, parse?_of_laid hlaid, Option.bind_some, ofValue?, hread]
  change (do (o.restrict fs).validate; return o.restrict fs) = _
  cases (o.restrict fs).validate <;> rfl

/-! ### Writing -/

/-- A value is written as its one token. -/
theorem laid_fieldText (o : Options) (f : Field) :
    Laid (o.fieldValue f).tokens (o.fieldText f).toList := by
  have hbool (b : Bool) : Laid (Json.Value.bool b).tokens (toString b).toList := by
    rw [Value.tokens]
    cases b
    · exact .token .no .nil
    · exact .token .yes .nil
  have hnatural (n : Nat) : Laid (Json.Value.natural n).tokens (toString n).toList := by
    have hdigits : (toString n).toList = Nat.toDigits 10 n := String.toList_ofList
    rw [Value.tokens, hdigits, ← List.append_nil (Nat.toDigits 10 n)]
    exact .token (.natural n) .nil
  cases f with
  | createIfMissing | errorIfExists | syncOnSave => exact hbool _
  | blockSize | maxBlocks | regionBlockSize | regionMaxBlocks | reserveSize => exact hnatural _

/-- A name of a field is written as it is. -/
theorem written_name (f : Field) :
    Token.Written (.string (f.name.toList.map .char)) ('"' :: f.name.toList ++ ['"']) := by
  have hplain : ∀ c ∈ f.name.toList, ' ' ≤ c ∧ c ≠ '"' ∧ c ≠ '\\' := by
    have hall : (f.name.toList.all fun c => ' ' ≤ c && c ≠ '"' && c ≠ '\\') = true := by
      cases f <;> decide
    simpa [and_assoc] using hall
  have hpieces : ∀ {cs : List Char}, (∀ c ∈ cs, ' ' ≤ c ∧ c ≠ '"' ∧ c ≠ '\\') →
      List.Forall₂ Mark.Written (cs.map .char) (cs.map fun c => [c]) := by
    intro cs hcs
    rw [List.forall₂_map_left_iff, List.forall₂_map_right_iff, List.forall₂_same]
    exact fun c hc => .plain (hcs c hc).1 (hcs c hc).2.1 (hcs c hc).2.2
  have hflat : (f.name.toList.map fun c => [c]).flatten = f.name.toList := by
    rw [← List.flatMap_def, List.flatMap_singleton']
  have hwritten := Token.Written.string (hpieces hplain)
  rwa [hflat] at hwritten

/-- The member that a line lists. -/
def member (o : Options) (f : Field) : List Mark × Json.Value :=
  (f.name.toList.map .char, o.fieldValue f)

theorem laid_line (o : Options) (f : Field) :
    Laid (.string (o.member f).1 :: .colon :: (o.member f).2.tokens) (o.line f).toList := by
  have hline : (o.line f).toList = ' ' :: ' ' :: (('"' :: f.name.toList ++ ['"']) ++
      ([':'] ++ ' ' :: (o.fieldText f).toList)) := by
    simp [line]
  rw [hline]
  exact .blank rfl (.blank rfl (.token (written_name f) (.token .colon (.blank rfl
    (laid_fieldText o f)))))

/-- The lines are laid out with a comma after each but the last. -/
theorem laid_lines (o : Options) (f : Field) (fs : List Field) :
    Laid (.string (o.member f).1 :: .colon :: (o.member f).2.tokens ++
      memberTokens (fs.map o.member)) (",\n".intercalate ((f :: fs).map o.line)).toList := by
  induction fs generalizing f with
  | nil => simpa [memberTokens] using laid_line o f
  | cons g fs ih =>
    have htext : (",\n".intercalate ((f :: g :: fs).map o.line)).toList =
        (o.line f).toList ++ ([','] ++ '\n' :: (",\n".intercalate
          ((g :: fs).map o.line)).toList) := by
      simp [String.intercalate_cons_cons]
    rw [htext, List.map_cons, memberTokens]
    exact (laid_line o f).append (.token .comma (.blank rfl (ih g)))

/-- The text of options lists all their fields. -/
theorem laid_toText (o : Options) :
    Laid (Json.Value.object (Field.all.map o.member)).tokens o.toText.toList := by
  have htext : o.toText.toList = ['\x7b'] ++ '\n' :: ((",\n".intercalate
      (Field.all.map o.line)).toList ++ '\n' :: (['\x7d'] ++ [])) := by
    simp [toText]
  have hlines := laid_lines o .createIfMissing Field.all.tail
  rw [htext]
  exact .token .openObject (.blank rfl (hlines.append (.blank rfl (.token .closeObject .nil))))

theorem lists_map_member (o : Options) {fs : List Field} (h : fs.Nodup) :
    Lists o fs (fs.map o.member) := by
  induction fs with
  | nil => exact .nil
  | cons f fs ih =>
    obtain ⟨hnew, hrest⟩ := List.nodup_cons.mp h
    exact .field (spells_map_char _) hnew (ih hrest)

/-- The text of options is read as they are, and then they are checked. -/
theorem ofText_toText {o : Options} (hr : o.InRange) :
    ofText o.toText = o.validate.map fun _ => o := by
  have hread := ofText_of_lists hr (lists_map_member o (by decide : Field.all.Nodup))
    (laid_toText o)
  rwa [restrict_all] at hread

theorem invalidArgument_of_validate {o : Options} {e : Error} (h : o.validate = .error e) :
    ∃ cause, e = .invalidArgument cause := by
  unfold validate at h
  split at h
  · cases h; exact ⟨_, rfl⟩
  split at h
  · cases h; exact ⟨_, rfl⟩
  split at h
  · cases h; exact ⟨_, rfl⟩
  split at h
  · cases h; exact ⟨_, rfl⟩
  split at h
  · cases h; exact ⟨_, rfl⟩
  · cases h

/-- **Options come back from the texts that list them.** If they are accepted
they come back from their text, and from any text of an object that lists some
of their fields among unknown ones, then with the other fields at their
defaults. If they are refused their text is refused for the same reason, which
is an invalid argument. -/
theorem ofText_listed (o : Options) :
    (o.validate = .ok () →
      ofText o.toText = .ok o ∧
      ∀ {fs : List Field} {members : List (List Mark × Json.Value)} {text : String},
        Lists o fs members → Laid (Json.Value.object members).tokens text.toList →
          ofText text = .ok (o.restrict fs)) ∧
    ∀ {e : Error}, o.InRange → o.validate = .error e →
      ofText o.toText = .error e ∧ ∃ cause, e = .invalidArgument cause := by
  constructor
  · intro hok
    have hfits := validate_eq.mp hok
    refine ⟨by rw [ofText_toText hfits.inRange, hok]; rfl, fun hlists hlaid => ?_⟩
    rw [ofText_of_lists hfits.inRange hlists hlaid, validate_eq.mpr (hfits.restrict _)]
    rfl
  · intro e hr he
    refine ⟨by rw [ofText_toText hr, he]; rfl, invalidArgument_of_validate he⟩

/-- An unknown field and one known field of options with two that are not the
defaults; options without blocks. -/
theorem ofText_listed_unknown :
    ofText "\x7b\"x\": [-1.5E3, null],\n\"block_size\":512\x7d" = .ok { blockSize := 512 } ∧
      ofText (toText { maxBlocks := 0 }) =
        .error (.invalidArgument (.blockCountRange .maxBlocks)) := by
  have hx : Token.Written (.string [.char 'x']) ['"', 'x', '"'] :=
    .string (.cons (.plain (by decide) (by decide) (by decide)) .nil)
  have hfraction : Fraction ['.', '5'] := .point ⟨by simp, by simp⟩
  have hexponent : Exponent ['E', '3'] := .unsigned (.inr rfl) ⟨by simp, by simp⟩
  have hnumber : Token.Written .number ['-', '1', '.', '5', 'E', '3'] :=
    .number 1 (.inr rfl) hfraction hexponent (.inl (by decide))
  have hlists : Lists { blockSize := 512, reserveSize := 100 } [.blockSize]
      [([.char 'x'], .array [.number, .null]), ("block_size".toList.map .char, .natural 512)] :=
    .unknown (spells_map_char ['x']) (by intro f; cases f <;> decide)
      (.field (f := .blockSize) (spells_map_char _) (by decide) .nil)
  refine ⟨((ofText_listed { blockSize := 512, reserveSize := 100 }).1 rfl).2 hlists ?_,
    ((ofText_listed { maxBlocks := 0 }).2 ⟨by decide, by decide, by decide, by decide, by decide⟩
      rfl).1⟩
  exact .token .openObject (.token hx (.token .colon (.blank rfl (.token .openArray
    (.token hnumber (.token .comma (.blank rfl (.token .null (.token .closeArray (.token .comma
      (.blank rfl (.token (written_name .blockSize) (.token .colon (.token (.natural 512)
        (.token .closeObject .nil)))))))))))))))

end Options

end PagedMap
