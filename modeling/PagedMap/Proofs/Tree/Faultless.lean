/-
# Reading a store of any bytes

The blocks that a tree reads are checked when they are read, and nothing else is: the
descriptor may be wrong, index blocks may point anywhere, also to themselves, and keys may be
out of order. Still, whatever a store holds, a lookup ends with an answer or an error that is
no fault, and a scan gives entries one after the other until there are no more, or until an
error, which is its last step (`Tree.lookups_faultless`).

Key definition: `Steps`.
Key theorems: `Tree.locate_answers`, `Tree.scanLeaves_steps`, `Tree.lookups_faultless`.
-/
import PagedMap.Proofs.Block.Faultless
import PagedMap.Proofs.Tree.Fresh
import PagedMap.Store.Device
import PagedMap.Tree.Scan

namespace PagedMap

/-! ### Steps of a scan -/

/-- Some items, and then no more or an error that is no fault. -/
def Steps {α : Type} (steps : List (Except Error α)) : Prop :=
  ∃ (found : List α) (e? : Option Error),
    steps = found.map .ok ++ e?.toList.map .error ∧ e? ≠ some .fault

theorem steps_nil {α : Type} : Steps ([] : List (Except Error α)) := ⟨[], none, rfl, by rintro ⟨⟩⟩

theorem steps_error {α : Type} {e : Error} (h : e ≠ .fault) :
    Steps ([.error e] : List (Except Error α)) :=
  ⟨[], some e, rfl, fun he => h (Option.some.inj he)⟩

theorem Steps.cons {α : Type} {steps : List (Except Error α)} (h : Steps steps) (a : α) :
    Steps (.ok a :: steps) := by
  obtain ⟨found, e?, rfl, he⟩ := h
  exact ⟨a :: found, e?, rfl, he⟩

/-! ### Blocks of a device -/

namespace Device

/-- Whatever a device holds, a block is read from it or it is refused. -/
theorem read_ne : ∀ (s : Device) (kind : Pool) (n : BlockNumber),
    Store.read s kind n ≠ .error .fault
  | .memory s, kind, n => by
    have hcheck : (s.pool kind).check kind n ≠ .error .fault := by
      rw [MemoryPool.check]
      split <;> rintro ⟨⟩
    exact bind_ne_fault hcheck fun _ => ok_ne_fault _
  | .file _ s, kind, n => by
    have hcheck : (s.pool kind).check kind n ≠ .error .fault := by
      rw [FilePool.check]
      split <;> rintro ⟨⟩
    refine bind_ne_fault hcheck fun _ => ?_
    split
    · rintro ⟨⟩
    · dsimp only [File.read]
      split <;> rintro ⟨⟩

end Device

namespace Tree

variable {κ ν : Type} {K : OrderedCodec κ} {V : Codec ν} [K.Faultless] [V.Faultless]
  (t : Tree Device K V)

theorem readLeaf_answers (n : BlockNumber) : Answers (t.readLeaf n) Block.Whole :=
  (answers_of_ne (Device.read_ne _ _ _)).bind fun bs _ => Block.ofBytes_answers bs _

omit [V.Faultless] in
theorem readIndex_answers (n : BlockNumber) : Answers (t.readIndex n) Block.Whole :=
  (answers_of_ne (Device.read_ne _ _ _)).bind fun bs _ => Block.ofBytes_answers bs _

/-! ### Ways down -/

omit [V.Faultless] in
theorem leafBelow_ne (probe : Bytes) : ∀ (levels : Nat) (n : BlockNumber),
    t.leafBelow probe levels n ≠ .error .fault
  | 0, _ => ok_ne_fault _
  | levels + 1, n => by
    refine (t.readIndex_answers n).bind_ne fun node hnode => ?_
    refine bind_ne_fault (hnode.searchBytes_answers probe).ne_fault fun place => ?_
    exact bind_ne_fault (Index.child_ne hnode _) fun child => leafBelow_ne probe levels child

omit [V.Faultless] in
theorem endBelow_ne (last : Bool) : ∀ (levels : Nat) (n : BlockNumber),
    t.endBelow last levels n ≠ .error .fault
  | 0, _ => ok_ne_fault _
  | levels + 1, n => by
    refine (t.readIndex_answers n).bind_ne fun node hnode => ?_
    exact bind_ne_fault (Index.child_ne hnode _) fun child => endBelow_ne last levels child

omit [V.Faultless] in
theorem blocksBelow_ne : ∀ (levels : Nat) (n : BlockNumber),
    t.blocksBelow levels n ≠ .error .fault
  | 0, _ => ok_ne_fault _
  | levels + 1, n => by
    refine (t.readIndex_answers n).bind_ne fun node hnode => ?_
    refine bind_ne_fault (Index.children_ne hnode) fun children => ?_
    exact bind_ne_fault (mapM_ne_fault fun child _ => blocksBelow_ne levels child) fun _ =>
      ok_ne_fault _

omit [V.Faultless] in
theorem leaves_ne : t.leaves ≠ .error .fault := by
  rw [leaves, blocks_eq]
  exact map_ne_fault _ (t.blocksBelow_ne _ _)

/-! ### Lookups -/

/-- The place of a key is one of the leaf that is found for it. -/
theorem locate_answers (k : κ) :
    Answers (t.locate k) fun r => r.1.Whole ∧ r.2.Within r.1.length := by
  refine (answers_of_ne (Codec.Faultless.encode_ne k)).bind fun probe _ => ?_
  refine (answers_of_ne (t.leafBelow_ne probe _ _)).bind fun n _ => ?_
  refine (t.readLeaf_answers n).bind fun leaf hleaf => ?_
  exact (hleaf.searchBytes_answers probe).bind fun place hplace => answers_ok ⟨hleaf, hplace⟩

theorem get?_ne (k : κ) : t.get? k ≠ .error .fault := by
  refine (t.locate_answers k).bind_ne fun r hr => ?_
  obtain ⟨leaf, place⟩ := r
  cases place with
  | found i => exact map_ne_fault _ (hr.1.payload_ne hr.2)
  | absent i => rintro ⟨⟩

theorem getItem?_ne (k : κ) : t.getItem? k ≠ .error .fault := by
  refine (t.locate_answers k).bind_ne fun r hr => ?_
  obtain ⟨leaf, place⟩ := r
  cases place with
  | found i => exact map_ne_fault _ (hr.1.item_ne hr.2)
  | absent i => rintro ⟨⟩

theorem contains_ne (k : κ) : t.contains k ≠ .error .fault :=
  map_ne_fault _ (t.locate_answers k).ne_fault

/-! ### Scans -/

theorem scanItems_steps {leaf : Leaf K V} (hleaf : leaf.Whole)
    {after : List (Except Error (κ × ν))} (hafter : Steps after) : ∀ {visited : List Nat},
    (∀ i ∈ visited, i < leaf.length) → Steps (scanItems leaf after visited)
  | [], _ => hafter
  | i :: visited, h => by
    rw [scanItems]
    have hitem := answers_of_ne (hleaf.item_ne (h i (List.mem_cons_self ..)))
    split
    · next entry _ =>
      exact (scanItems_steps hleaf hafter fun j hj => h j (List.mem_cons_of_mem i hj)).cons entry
    · next e he =>
      rw [he] at hitem
      exact steps_error hitem

/-- A scan goes on to the next leaf, unless there was an error. -/
theorem scanLeaves_steps (descending : Bool) (lower upper : Bound κ) :
    ∀ ns : List BlockNumber, Steps (t.scanLeaves descending lower upper ns)
  | [] => steps_nil
  | n :: ns => by
    have hopen : Answers (t.openLeaf descending lower upper n) fun r =>
        r.1.Whole ∧ ∀ i ∈ r.2.visitAll.1, i < r.1.length := by
      refine (t.readLeaf_answers n).bind fun leaf hleaf => ?_
      exact (hleaf.cursor_answers lower upper descending).bind fun c hc => answers_ok ⟨hleaf, hc⟩
    rw [scanLeaves]
    split
    · next e he =>
      rw [he] at hopen
      exact steps_error hopen
    · next leaf cursor hrun =>
      rw [hrun] at hopen
      refine scanItems_steps hopen.1 ?_ hopen.2
      split
      · exact steps_nil
      · exact scanLeaves_steps descending lower upper ns

theorem scan_answers (descending : Bool) (lower upper : Bound κ) :
    Answers (t.scan descending lower upper) Steps := by
  have hstart : t.startLeaf descending lower upper ≠ .error .fault := by
    rw [startLeaf]
    split
    · exact bind_ne_fault (Codec.Faultless.encode_ne _) fun probe => t.leafBelow_ne probe _ _
    · exact t.endBelow_ne _ _ _
  refine (answers_of_ne t.leaves_ne).bind fun leaves _ => ?_
  refine (answers_of_ne hstart).bind fun start _ => ?_
  split
  · exact answers_error (by rintro ⟨⟩)
  · exact answers_ok (t.scanLeaves_steps descending lower upper _)

/-- Whatever its store holds and its descriptor says, a tree answers a lookup or refuses it,
and a scan gives entries until there are no more, or until an error. -/
theorem lookups_faultless (key : KeyKind) (value : ValueKind)
    (t : Tree Device key.codec value.codec) :
    (∀ k, t.get? k ≠ .error .fault ∧ t.getItem? k ≠ .error .fault ∧
      t.contains k ≠ .error .fault) ∧
    ∀ descending lower upper, t.scan descending lower upper ≠ .error .fault ∧
      ∀ steps, t.scan descending lower upper = .ok steps →
        ∃ (found : List (key.Item × value.Item)) (e? : Option Error),
          steps = found.map .ok ++ e?.toList.map .error ∧ e? ≠ some .fault := by
  refine ⟨fun k => ⟨t.get?_ne k, t.getItem?_ne k, t.contains_ne k⟩,
    fun descending lower upper => ⟨(t.scan_answers descending lower upper).ne_fault,
      fun steps hsteps => ?_⟩⟩
  have hscan := t.scan_answers descending lower upper
  rw [hsteps] at hscan
  exact hscan

/-- A tree of which every index block is the root, and every leaf too. -/
example : ((⟨(Store.allocate .index [0, 0, 0, 1, 0, 0, 0, 0, 0, 0, 0, 5] Device.small).2, ⟨0, 1, 9⟩,
    false⟩ : Tree Device word32 word32.toCodec).iter.toOption.map (·.map Except.toOption)) =
      some [some (5, 0), some (5, 0), some (5, 0), some (5, 0)] := by
  decide +kernel

end Tree

end PagedMap
