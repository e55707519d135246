/-
# When opening makes a new tree

Whether a reserve tells of a tree is decided by one of its bits, the lowest of the word that
marks a written descriptor; the checksum is looked at only if this bit is set
(`Descriptor.decode_eq_none`). If it is clear, opening makes a new tree, whatever else the
reserve holds. If it is set, opening gives the recorded tree or fails. Where opening fails,
for whichever reason, the store is as it was (`Tree.open_decides`).

So a reserve is not told from one that was never written if a descriptor was written into it
and only the mark was lost. Then a tree is taken for none, and its entries are forgotten
(`Tree.open_forgets`).

Key definition: `Descriptor.Marked`.
Key theorems: `Descriptor.decode_eq_none`, `openDescriptor_recorded`, `Tree.open_decides`.
-/
import PagedMap.Proofs.Tree.Fresh

namespace PagedMap

namespace Descriptor

variable {bs : Bytes}

/-- The lowest bit of the word that marks a written descriptor is set. -/
def Marked (bs : Bytes) : Prop := (bs.getD 15 0).toNat % 2 = 1

instance : Decidable (Marked bs) := inferInstanceAs (Decidable (_ = _))

/-- The lowest bit of the mark is that of its last byte. -/
theorem mark_eq_zero_iff (h : descriptorSize ≤ bs.length) :
    Bytes.toWord (bs.drop 12) &&& 1 = 0 ↔ ¬ Marked bs := by
  obtain ⟨init, b, rest, rfl, hinit⟩ : ∃ init b rest, bs = init ++ b :: rest ∧ init.length = 15 := by
    rw [descriptorSize] at h
    refine ⟨bs.take 15, bs[15], bs.drop 16, ?_, List.length_take_of_le (by omega)⟩
    rw [← List.drop_eq_getElem_cons, List.take_append_drop]
  have htake : ((init ++ b :: rest).drop 12).take 4 = init.drop 12 ++ [b] := by
    rw [List.drop_append_of_le_length (by omega), List.take_append, List.length_drop, hinit,
      List.take_of_length_le (by rw [List.length_drop]; omega)]
    rfl
  have hlast : (init ++ b :: rest).getD 15 0 = b := by
    rw [List.getD_append_right _ _ _ _ (by omega), hinit]
    rfl
  rw [Bytes.toWord, htake, Marked, hlast, ← UInt32.toNat_inj, UInt32.toNat_and,
    Bytes.toNat_concat, UInt32.toNat_ofNat']
  change _ &&& 1 = 0 ↔ _
  rw [Nat.and_one_is_mod]
  omega

/-- A reserve tells of no tree exactly if it is not marked. -/
theorem decode_eq_none : decode bs = .ok none ↔ descriptorSize ≤ bs.length ∧ ¬ Marked bs := by
  rw [decode]
  split
  · next hshort => exact ⟨(by rintro ⟨⟩), fun h => absurd h.1 (Nat.not_le.2 hshort)⟩
  · next hlong =>
    rw [← mark_eq_zero_iff (Nat.not_lt.1 hlong)]
    dsimp only
    split
    · next hclear => exact ⟨fun _ => ⟨Nat.not_lt.1 hlong, hclear⟩, fun _ => rfl⟩
    · next hset =>
      refine ⟨fun h => ?_, fun h => absurd h.2 hset⟩
      split at h
      · cases h
      · split at h <;> cases h

end Descriptor

section Store

variable {σ κ ν : Type} [Store σ] [LawfulStore σ] {s : σ}

theorem isBlank_iff (hs : LawfulStore.Valid s) :
    IsBlank s ↔ ¬ Descriptor.Marked (LawfulStore.reserved s) := by
  have hlong : descriptorSize ≤ (LawfulStore.reserved s).length := by
    rw [LawfulStore.length_reserved hs]
    exact (LawfulStore.shape_valid hs).descriptorSize_le
  constructor
  · rintro ⟨bs, hreserve, hdecode⟩
    obtain rfl := Except.ok.inj ((LawfulStore.reserve_eq hs).symm.trans hreserve)
    exact (Descriptor.decode_eq_none.1 hdecode).2
  · intro hmark
    exact ⟨_, LawfulStore.reserve_eq hs, Descriptor.decode_eq_none.2 ⟨hlong, hmark⟩⟩

/-- In a store that is not blank, opening changes nothing. -/
theorem openDescriptor_recorded (K : OrderedCodec κ) (V : Codec ν) (hs : LawfulStore.Valid s)
    (hblank : ¬ IsBlank s) :
    Ends (Tree.openDescriptor K V) s (fun _ s' => s' = s) fun d s' =>
      s' = s ∧ Descriptor.decode (LawfulStore.reserved s) = .ok (some d) := by
  rw [Tree.openDescriptor]
  refine ends_bind_get ?_
  split
  · exact ends_throw rfl
  · refine ends_bind_lift (LawfulStore.reserve_eq hs) ?_
    cases hdecode : Descriptor.decode (LawfulStore.reserved s) with
    | error e => exact ends_throw rfl
    | ok found =>
      cases found with
      | none => exact absurd ⟨_, LawfulStore.reserve_eq hs, hdecode⟩ hblank
      | some d =>
        have hroot (kind : Pool) : Ends (if Store.isAllocated s kind d.root then pure d
            else throw (.corruption (.rootNotAllocated d.root)) : Action σ Descriptor) s
            (fun _ s' => s' = s) fun d' s' => s' = s ∧ (.ok (some d) : Except Error _) = .ok (some d') := by
          split
          · exact ends_pure ⟨rfl, rfl⟩
          · exact ends_throw rfl
        refine ends_bind_lift rfl ?_
        dsimp only
        split <;> exact hroot _

end Store

namespace Tree

variable {κ ν : Type}

/-- Opening makes a new tree if and only if the mark of the reserve is clear and a leaf is
free; otherwise it gives the recorded tree or fails, and the store stays as it was. -/
theorem open_decides {s : Device} (hs : s.Valid) (K : OrderedCodec κ) (V : Codec ν) :
    Ends (ofStore K V : Action Device (Tree Device K V)) s
      (fun e s' => s' = s ∧ (¬ Descriptor.Marked s.reserved →
        e = .outOfSpace .leaf (s.shape.maxBlocks .leaf) ∧
          ∀ n : BlockNumber, n.toNat < s.shape.maxBlocks .leaf →
            Store.isAllocated s .leaf n = true))
      fun t s' => t.store = s' ∧
        (Descriptor.Marked s.reserved ∧ s' = s ∧
            Descriptor.decode s.reserved = .ok (some t.descriptor) ∨
          ¬ Descriptor.Marked s.reserved ∧ t.IsNew s) := by
  have hmark : IsBlank s ↔ ¬ Descriptor.Marked s.reserved := isBlank_iff hs
  rw [Ends, ofStore]
  by_cases hblank : IsBlank s
  · have hends := openDescriptor_new K V hs hblank
    rw [Ends] at hends
    split at hends
    · next d s' hrun =>
      rw [hrun]
      exact ⟨rfl, .inr ⟨hmark.1 hblank, hends⟩⟩
    · next e s' hrun =>
      rw [hrun]
      refine ⟨hends.1, fun _ => ⟨hends.2.1, fun n hn => ?_⟩⟩
      rw [LawfulStore.isAllocated_eq hs]
      exact hends.2.2 n hn
  · have hends := openDescriptor_recorded K V hs hblank
    rw [Ends] at hends
    split at hends
    · next d s' hrun =>
      rw [hrun]
      exact ⟨rfl, .inl ⟨not_not.1 (mt hmark.2 hblank), hends⟩⟩
    · next e s' hrun =>
      rw [hrun]
      exact ⟨hends, fun hclear => absurd (hmark.2 hclear) hblank⟩

/-- A store in which a tree with two entries was saved, and the mark overwritten. -/
@[irreducible]
def savedWith (mark : UInt8) : Device :=
  let leaf : Bytes := [0, 0, 0, 2, 255, 255, 255, 255, 0, 0, 0, 1, 0, 0, 0, 10, 0, 0, 0, 3, 0, 0, 0, 30]
  let reserve : Bytes :=
    [0, 0, 0, 0, 255, 255, 255, 255, 0, 0, 0, 2, 0, 0, 0, mark, 0x65, 0x56, 0x11, 0x33]
  (Store.setReserve reserve (Store.allocate .leaf leaf Device.small).2).2

theorem savedWith_used (mark : UInt8) : (savedWith mark).Used := by
  rw [savedWith]
  exact .setReserve _ (.allocate _ _ (.fresh Device.small_fresh))

/-- With its mark the store is opened and stays as it is; with another mark that does not
fit the checksum it is not opened, and stays as it is too. -/
theorem open_decides_saved :
    (∃ t : Tree Device word32 word32.toCodec,
      ofStore word32 word32.toCodec (savedWith 1) = (.ok t, savedWith 1) ∧ t.length = 2) ∧
    ∃ e, ofStore word32 word32.toCodec (savedWith 3) = (.error e, savedWith 3) := by
  constructor
  · have hlength : (ofStore word32 word32.toCodec (savedWith 1)).1.toOption.map Tree.length =
      some 2 := by decide +kernel
    have hends := open_decides (savedWith_used 1).valid word32 word32.toCodec
    rw [Ends] at hends
    split at hends
    · next t s' hrun =>
      rw [hrun] at hlength ⊢
      obtain ⟨-, ⟨-, rfl, -⟩ | ⟨hclear, -⟩⟩ := hends
      · exact ⟨t, rfl, Option.some.inj hlength⟩
      · exact absurd (by decide +kernel) hclear
    · next hrun =>
      rw [hrun] at hlength
      cases hlength
  · have hfails : (ofStore word32 word32.toCodec (savedWith 3)).1.isOk = false := by
      decide +kernel
    have hends := open_decides (savedWith_used 3).valid word32 word32.toCodec
    rw [Ends] at hends
    split at hends
    · next hrun =>
      rw [hrun] at hfails
      cases hfails
    · next e s' hrun =>
      obtain ⟨rfl, -⟩ := hends
      exact ⟨e, hrun⟩

/-- A tree whose mark was lost is taken for none: its store gets a new tree, although its
reserve is not of zeros, and the entries are forgotten. -/
theorem open_forgets : ∃ t u : Tree Device word32 word32.toCodec,
    (ofStore word32 word32.toCodec (savedWith 1)).1 = .ok t ∧ t.length = 2 ∧
      t.get? 3 = .ok (some 30) ∧
      (savedWith 0).reserved.take descriptorSize ≠ List.replicate descriptorSize 0 ∧
      (ofStore word32 word32.toCodec (savedWith 0)).1 = .ok u ∧ u.IsNew (savedWith 0) ∧
      u.length = 0 ∧ u.get? 3 = .ok none := by
  obtain ⟨t, hopen, htells⟩ := exists_ok_of_toOption (b := (2, some (some 30)))
    (f := fun t => (t.length, (t.get? 3).toOption))
    (x := (ofStore word32 word32.toCodec (savedWith 1)).1) (by decide +kernel)
  obtain ⟨u, hopen', htells'⟩ := exists_ok_of_toOption (b := (0, some none))
    (f := fun t => (t.length, (t.get? 3).toOption))
    (x := (ofStore word32 word32.toCodec (savedWith 0)).1) (by decide +kernel)
  have hvalid : LawfulStore.Valid (savedWith 0) := (savedWith_used 0).valid
  have hblank : IsBlank (savedWith 0) := (isBlank_iff hvalid).2 (by decide +kernel)
  have hnew : u.IsNew (savedWith 0) := by
    have hends := openDescriptor_new word32 word32.toCodec hvalid hblank
    rw [Ends] at hends
    rw [ofStore] at hopen'
    split at hopen'
    · next hrun =>
      rw [hrun] at hends
      exact Except.ok.inj hopen' ▸ hends
    · cases hopen'
  obtain ⟨hlength, hget⟩ := Prod.mk.inj htells
  obtain ⟨hlength', hget'⟩ := Prod.mk.inj htells'
  exact ⟨t, u, hopen, hlength, eq_ok_of_toOption hget, by decide +kernel, hopen', hnew, hlength',
    eq_ok_of_toOption hget'⟩

end Tree

end PagedMap
