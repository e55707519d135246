/-
# Every laid out value is parsed

The tokens of a value lead the machine from expecting a value to having it, in
whatever frames it stands. The further items of an array and the further members
of an object are added to the innermost frame one by one.

Key theorem: `Json.parse?_of_laid`.
-/
import PagedMap.Proofs.Json.Reader

namespace PagedMap.Json

namespace Expect

/-- A value begins with no closing bracket. -/
theorem step_valueOrClose {t : Token} (ht : t ≠ .closeArray) (frames : List Frame) :
    step (.valueOrClose frames) t = step (.value (.array [] :: frames)) t := by
  cases t <;> first | rfl | exact absurd rfl ht

end Expect

theorem Value.tokens_head (v : Value) : ∃ t ts, v.tokens = t :: ts ∧ t ≠ .closeArray := by
  unfold tokens
  split <;> exact ⟨_, _, rfl, by simp⟩

namespace Expect

theorem foldlM_valueOrClose (v : Value) (frames : List Frame) :
    v.tokens.foldlM step (.valueOrClose frames) =
      v.tokens.foldlM step (.value (.array [] :: frames)) := by
  obtain ⟨t, ts, hts, ht⟩ := v.tokens_head
  rw [hts, List.foldlM_cons, List.foldlM_cons, step_valueOrClose ht]

mutual

/-- The tokens of a value lead to the value. -/
theorem foldlM_tokens (frames : List Frame) :
    ∀ v : Value, v.tokens.foldlM step (.value frames) = some (.next v frames)
  | .null | .bool _ | .natural _ | .number | .string _ | .array [] | .object [] => by
    rw [Value.tokens]; rfl
  | .array (v :: items) => by
    have hopen : step (.value frames) .openArray = some (.valueOrClose frames) := rfl
    have hvalue : v.tokens.foldlM step (.valueOrClose frames) =
        some (.next v (.array [] :: frames)) := by
      rw [foldlM_valueOrClose]
      exact foldlM_tokens (.array [] :: frames) v
    rw [Value.tokens, List.append_assoc, List.cons_append, run_cons hopen, run_append hvalue]
    exact foldlM_items frames v [] items
  | .object ((name, v) :: members) => by
    have hname : [Token.openObject, .string name, .colon].foldlM step (.value frames) =
        some (.value (.object [] name :: frames)) := rfl
    have hsplit : (Value.object ((name, v) :: members)).tokens =
        [.openObject, .string name, .colon] ++ (v.tokens ++ (memberTokens members ++
          [.closeObject])) := by rw [Value.tokens]; simp
    rw [hsplit, run_append hname, run_append (foldlM_tokens (.object [] name :: frames) v)]
    exact foldlM_members frames v [] name members

/-- The further items of an array complete it. -/
theorem foldlM_items (frames : List Frame) (last : Value) (before : List Value) :
    ∀ items : List Value, (itemTokens items ++ [Token.closeArray]).foldlM step
      (.next last (.array before :: frames)) =
        some (.next (.array ((last :: before).reverse ++ items)) frames)
  | [] => by simp [itemTokens, step]
  | v :: items => by
    have hcomma : step (.next last (.array before :: frames)) .comma =
        some (.value (.array (last :: before) :: frames)) := rfl
    rw [itemTokens, List.append_assoc, List.cons_append, run_cons hcomma,
      run_append (foldlM_tokens (.array (last :: before) :: frames) v)]
    simpa using foldlM_items frames v (last :: before) items

/-- The further members of an object complete it. -/
theorem foldlM_members (frames : List Frame) (last : Value)
    (before : List (List Mark × Value)) (lastName : List Mark) :
    ∀ members : List (List Mark × Value), (memberTokens members ++ [Token.closeObject]).foldlM step
      (.next last (.object before lastName :: frames)) =
        some (.next (.object (((lastName, last) :: before).reverse ++ members)) frames)
  | [] => by simp [memberTokens, step]
  | (name, v) :: members => by
    have hname : [Token.comma, .string name, .colon].foldlM step
        (.next last (.object before lastName :: frames)) =
          some (.value (.object ((lastName, last) :: before) name :: frames)) := rfl
    have hsplit : memberTokens ((name, v) :: members) ++ [.closeObject] =
        [.comma, .string name, .colon] ++ (v.tokens ++ (memberTokens members ++
          [.closeObject])) := by rw [memberTokens]; simp
    rw [hsplit, run_append hname,
      run_append (foldlM_tokens (.object ((lastName, last) :: before) name :: frames) v)]
    simpa using foldlM_members frames v ((lastName, last) :: before) name members

end

/-- Whether only punctuation may come next. -/
def isFull : Expect → Bool
  | .colon .. | .next .. => true
  | _ => false

theorem isFull_of_begin {frames : List Frame} {e : Expect} {t : Token}
    (ht : t.isPunctuation = false) (h : begin frames t = some e) : e.isFull = true := by
  cases t with
  | null | bool | natural | number | string => cases h; rfl
  | openObject | closeObject | openArray | closeArray | colon | comma => cases ht

/-- A token that is no punctuation is a value or a name. -/
theorem isFull_of_step {e e' : Expect} {t : Token} (ht : t.isPunctuation = false)
    (h : step e t = some e') : e'.isFull = true := by
  unfold step at h
  split at h
  case h_1 | h_3 => exact isFull_of_begin ht h
  case h_4 | h_5 => cases h; rfl
  all_goals first | cases ht | cases h

/-- After a value or a name comes punctuation. -/
theorem isPunctuation_of_step {e e' : Expect} {t : Token} (he : e.isFull = true)
    (h : step e t = some e') : t.isPunctuation = true := by
  unfold step at h
  split at h <;> first | rfl | cases he | cases h

/-- Tokens that the machine takes may stand side by side as they do. -/
theorem isChain_apart {ts : List Token} {e e' : Expect} (h : ts.foldlM step e = some e') :
    ts.IsChain Apart := by
  induction ts generalizing e with
  | nil => exact .nil
  | cons t ts ih =>
    obtain ⟨mid, hmid, h⟩ := exists_of_run_cons h
    cases ts with
    | nil => exact .singleton t
    | cons u ts =>
      refine List.isChain_cons_cons.mpr ⟨?_, ih h⟩
      obtain ⟨_, hu, -⟩ := exists_of_run_cons h
      cases ht : t.isPunctuation
      · exact .inr (isPunctuation_of_step (isFull_of_step ht hmid) hu)
      · exact .inl ht

end Expect

/-- A text in which the tokens of a value are laid out is parsed as the value. -/
theorem parse?_of_laid {v : Value} {text : String} (h : Laid v.tokens text.toList) :
    parse? text = some v := by
  have htokens := Expect.foldlM_tokens [] v
  rw [parse?, tokens?_of_laid h (Expect.isChain_apart htokens), Option.bind_eq_bind,
    Option.bind_some, ofTokens?, htokens]
  rfl

end PagedMap.Json
