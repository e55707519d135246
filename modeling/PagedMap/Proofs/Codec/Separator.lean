/-
# Separators are as short as they can be

A key above the lower of two keys and not above the upper one has more bytes than the two have in
common (`Counted.common_lt_length`), so a byte string of one more is a shortest separator. A
beginning of a text that ends with a character is completed to itself, and any shorter beginning
to a beginning of it (`Counted.wholeCharacters_append`). So the separator of two texts, which is
completed from one byte more than they have in common, is a beginning of every beginning of the
upper one that would do (`text_shortest`).

Key theorems: `Counted.common_lt_length`, `text_shortest`, `KeyKind.separate_encode`.
-/
import PagedMap.Proofs.Codec.Ordered

namespace PagedMap

namespace Counted

/-- What is above `low` and not above `high` is longer than what these have in common. -/
theorem common_lt_length : ∀ {low high bs : Bytes}, Ord.compare low bs = .lt →
    (Ord.compare bs high).isLE → Bytes.common low high < bs.length
  | [], _, [], hlow, _ | _ :: _, _, [], hlow, _ => by simp at hlow
  | [], _, _ :: _, _, _ => by simp [Bytes.common]
  | _ :: _, [], _ :: _, _, hhigh => by simp at hhigh
  | a :: low, c :: high, b :: bs, hlow, hhigh => by
    rw [Bytes.common]
    by_cases hac : a = c
    · subst hac
      rw [if_pos rfl, List.length_cons]
      rw [List.compare_cons_cons] at hlow hhigh
      -- the byte is neither below that of `low` nor above the same byte of `high`
      cases hab : Ord.compare a b with
      | lt =>
        rw [Std.OrientedOrd.eq_swap, hab] at hhigh
        cases hhigh
      | eq =>
        obtain rfl := Std.LawfulEqOrd.eq_of_compare hab
        rw [hab, Ordering.eq_then] at hlow hhigh
        exact Nat.succ_lt_succ (common_lt_length hlow hhigh)
      | gt =>
        rw [hab] at hlow
        cases hlow
    · rw [if_neg hac]
      exact Nat.succ_pos _

/-- A beginning that ends within `as` is completed within it, if no character is cut at its
end. -/
theorem wholeCharacters_append {n : Nat} {as bs : Bytes} (hn : n ≤ as.length)
    (hbs : bs.takeWhile isInner = []) :
    wholeCharacters n (as ++ bs) = wholeCharacters n as := by
  rw [wholeCharacters, wholeCharacters, List.take_append_of_le_length hn,
    List.drop_append_of_le_length hn, List.takeWhile_append, hbs, List.append_nil]
  split
  · next hall => rw [(List.takeWhile_prefix isInner).eq_of_length hall]
  · rfl

end Counted

namespace Text

theorem toUtf8_inj {s t : String} (h : toUtf8 s = toUtf8 t) : s = t := by
  have hs := ofUtf8_toUtf8 s
  rw [h, ofUtf8_toUtf8] at hs
  exact (Except.ok.inj hs).symm

/-- What a beginning of a text is completed to are the first characters of the text. -/
theorem prefix_of_wholeCharacters {n : Nat} {s t : String}
    (h : toUtf8 s = Counted.wholeCharacters n (toUtf8 t)) : s.toList <+: t.toList := by
  obtain ⟨k, hk⟩ := wholeCharacters_flatMap n t.toList
  have hs : s = String.ofList (t.toList.take k) :=
    toUtf8_inj (by rw [h, toUtf8_ofList, toUtf8_eq t, hk])
  rw [hs, String.toList_ofList]
  exact List.take_prefix k t.toList

/-- The bytes of the first characters, and those of the others. -/
theorem toUtf8_of_prefix {s t : String} (h : s.toList <+: t.toList) :
    ∃ bs, toUtf8 t = toUtf8 s ++ bs ∧ bs.takeWhile Counted.isInner = [] := by
  obtain ⟨cs, hcs⟩ := h
  refine ⟨cs.flatMap String.utf8EncodeChar, ?_, takeWhile_inner_flatMap cs⟩
  rw [toUtf8_eq, toUtf8_eq, ← hcs, List.flatMap_append]

end Text

/-! ### The separators of each kind of keys -/

section

variable {l h c : Bytes}

/-- Two byte strings are separated by the shortest beginning of the upper one. -/
theorem byteString_separator {x y s : Bytes} (hx : byteString.encode x = .ok l)
    (hy : byteString.encode y = .ok h) (hsep : byteString.separate l h = .ok c)
    (hs : byteString.encode s = .ok c) : s = y.take (Bytes.common x y + 1) := by
  rw [byteString_separate (Counted.payload_of_encode hx) (Counted.payload_of_encode hy)] at hsep
  exact Except.ok.inj ((Counted.payload_of_encode hs).symm.trans (Counted.payload_of_encode hsep))

/-- What separates two byte strings has as many bytes. -/
theorem byteString_shortest {x y t : Bytes} (hxt : Ord.compare x t = .lt)
    (hty : (Ord.compare t y).isLE) : (y.take (Bytes.common x y + 1)).length ≤ t.length := by
  have hlt := Counted.common_lt_length hxt hty
  rw [List.length_take]
  omega

/-- Two texts are separated by the same, completed to whole characters. -/
theorem text_separator {x y s : String} (hx : text.encode x = .ok l) (hy : text.encode y = .ok h)
    (hsep : text.separate l h = .ok c) (hs : text.encode s = .ok c) :
    Text.toUtf8 s = Counted.wholeCharacters
      (Counted.separatorLength (Text.toUtf8 x) (Text.toUtf8 y)) (Text.toUtf8 y) := by
  rw [text_separate (Counted.payload_of_encode hx) (Counted.payload_of_encode hy)] at hsep
  exact Except.ok.inj ((Counted.payload_of_encode hs).symm.trans (Counted.payload_of_encode hsep))

/-- The first characters of the upper text that are above the lower one begin with the
separator. -/
theorem text_shortest {x y s t : String}
    (hs : Text.toUtf8 s = Counted.wholeCharacters
      (Counted.separatorLength (Text.toUtf8 x) (Text.toUtf8 y)) (Text.toUtf8 y))
    (ht : t.toList <+: y.toList) (hxt : text.compare x t = .lt) : s.toList <+: t.toList := by
  obtain ⟨bs, hbs, hcut⟩ := Text.toUtf8_of_prefix ht
  have hxt' : Ord.compare (Text.toUtf8 x) (Text.toUtf8 t) = .lt :=
    (Text.compare_toUtf8 x t).trans hxt
  have htake : (Text.toUtf8 y).take (Text.toUtf8 t).length = Text.toUtf8 t := by
    rw [hbs]
    exact List.take_left' rfl
  have hty : (Ord.compare (Text.toUtf8 t) (Text.toUtf8 y)).isLE :=
    htake ▸ Counted.compare_take_ne_gt (Text.toUtf8 t).length (Text.toUtf8 y)
  have hlen : Counted.separatorLength (Text.toUtf8 x) (Text.toUtf8 y) ≤ (Text.toUtf8 t).length := by
    have := Counted.common_lt_length hxt' hty
    rw [Counted.separatorLength]
    omega
  generalize Counted.separatorLength (Text.toUtf8 x) (Text.toUtf8 y) = n at hs hlen
  rw [hbs, Counted.wholeCharacters_append hlen hcut] at hs
  exact Text.prefix_of_wholeCharacters hs

end

namespace KeyKind

/-- The codecs of integers take the upper key itself. -/
theorem separate_eq_high : ∀ {k : KeyKind}, k ≠ .byteString → k ≠ .text → ∀ l h,
    k.codec.separate l h = .ok h
  | word32, _, _, _, _ | word64, _, _, _, _ | int32, _, _, _, _ | int64, _, _, _, _
  | littleWord, _, _, _, _ => rfl
  | byteString, hk, _, _, _ => (hk rfl).elim
  | text, _, hk, _, _ => (hk rfl).elim

/-- An integer is one number. -/
theorem length_points : ∀ {k : KeyKind}, k ≠ .byteString → k ≠ .text → ∀ x : k.Item,
    (k.points x).length = 1
  | word32, _, _, _ | word64, _, _, _ | int32, _, _, _ | int64, _, _, _ | littleWord, _, _, _ => rfl
  | byteString, hk, _, _ => (hk rfl).elim
  | text, _, hk, _ => (hk rfl).elim

theorem byteString_length_points (x : KeyKind.byteString.Item) :
    (KeyKind.byteString.points x).length = (KeyKind.byteString.body x).length := List.length_map ..

/-- A text is made of the first code points of another if it is its first characters. -/
theorem text_points_prefix {s t : String} :
    KeyKind.text.points s <+: KeyKind.text.points t ↔ s.toList <+: t.toList :=
  List.prefix_map_iff_of_injective fun _ _ h => Char.toNat_inj.1 (Int.ofNat_inj.1 h)

/-- A key that is made of the first numbers of another is not above it. -/
theorem le_of_points_prefix {k : KeyKind} {x y : k.Item} (h : k.points x <+: k.points y) :
    x ≤ y := by
  have hle := Counted.compare_take_ne_gt (k.points x).length (k.points y)
  rw [← List.prefix_iff_eq_take.1 h, ← compare_eq_points] at hle
  exact hle

/-- **Separators separate and are the shortest.** Of two encoded keys the separator is the
encoding of a key above the lower and not above the upper one, which is no longer than the upper
one's. No byte string that would do is shorter, and every beginning of the upper key that would
do, at whole characters of a text, begins with it. -/
theorem separate_encode {k : KeyKind} {x y : k.Item} {l h : Bytes}
    (hx : k.codec.encode x = .ok l) (hy : k.codec.encode y = .ok h) (hxy : x < y) :
    ∃ s c, k.codec.separate l h = .ok c ∧ k.codec.encode s = .ok c ∧ x < s ∧ s ≤ y ∧
      c.length ≤ h.length ∧
      (k = .byteString → ∀ t, x < t → t ≤ y → (k.body s).length ≤ (k.body t).length) ∧
      k.points s <+: k.points y ∧
      ∀ t, k.points t <+: k.points y → x < t → k.points s <+: k.points t := by
  obtain ⟨s, c, hsep, hs, hxs, hsy, hlen⟩ := OrderedCodec.Lawful.separate_of_lt hx hy hxy
  refine ⟨s, c, hsep, hs, hxs, hsy, hlen, ?_⟩
  by_cases hbytes : k = .byteString
  · subst hbytes
    have hshort : ∀ t, x < t → t ≤ y →
        (KeyKind.byteString.body s).length ≤ (KeyKind.byteString.body t).length := by
      intro t hxt hty
      rw [byteString_separator hx hy hsep hs]
      exact byteString_shortest hxt hty
    have hprefix : KeyKind.byteString.points s <+: KeyKind.byteString.points y := by
      rw [byteString_separator hx hy hsep hs]
      exact (List.take_prefix _ _).map _
    refine ⟨fun _ => hshort, hprefix, fun t ht hxt => ?_⟩
    refine List.prefix_of_prefix_length_le hprefix ht ?_
    rw [byteString_length_points, byteString_length_points]
    exact hshort t hxt <| le_of_points_prefix ht
  refine ⟨fun h => (hbytes h).elim, ?_⟩
  by_cases htext : k = .text
  · subst htext
    have hs' := text_separator hx hy hsep hs
    refine ⟨(Text.prefix_of_wholeCharacters hs').map _, fun t ht hxt => ?_⟩
    have ht' := text_points_prefix.1 ht
    exact (text_shortest hs' ht' hxt).map _
  · -- an integer is the upper one itself, of whose one number nothing less is a beginning
    obtain rfl : h = c := Except.ok.inj ((separate_eq_high hbytes htext l h).symm.trans hsep)
    obtain rfl : s = y := by
      have hy' := Codec.Lawful.decode_append hy []
      exact Except.ok.inj ((Codec.Lawful.decode_append hs []).symm.trans hy')
    have hone (z : k.Item) := length_points hbytes htext z
    refine ⟨List.prefix_rfl, fun t ht _ => ?_⟩
    have hsame := ht.eq_of_length ((hone t).trans (hone s).symm)
    exact hsame ▸ List.prefix_rfl

/-- Two texts that differ within their second character are separated by two characters. -/
theorem separate_encode_within :
    ∃ s c, text.codec.separate [0, 0, 0, 3, 0x61, 0xC3, 0xA9] [0, 0, 0, 4, 0x61, 0xC3, 0xAA, 0x62] =
        .ok c ∧ text.codec.encode s = .ok c ∧ text.codec.compare "aé" s = .lt ∧
      (text.codec.compare s "aêb").isLE ∧ text.points s <+: text.points "aêb" ∧
      text.points s <+: text.points "aê" := by
  obtain ⟨s, c, hsep, hs, hlow, hhigh, -, -, hprefix, hshort⟩ :=
    separate_encode (k := text) (x := "aé") (y := "aêb")
      (l := [0, 0, 0, 3, 0x61, 0xC3, 0xA9]) (h := [0, 0, 0, 4, 0x61, 0xC3, 0xAA, 0x62])
      rfl rfl (show text.codec.compare "aé" "aêb" = .lt by decide +kernel)
  refine ⟨s, c, hsep, hs, hlow, hhigh, hprefix, hshort "aê" (by decide +kernel) ?_⟩
  exact show text.codec.compare "aé" "aê" = .lt by decide +kernel

end KeyKind

end PagedMap
