/-
# Byte strings, texts and accounts are read back

A counted encoding shows its length in front, so it is read back whatever
follows (`Counted.payload_append`). A beginning of the upper key that is one
byte longer than what two keys have in common separates them
(`Counted.separates_take`).

Key theorems: `byteString_lawful`, `text_lawful`, `account_lawful`.
-/
import PagedMap.Codec.Account
import PagedMap.Proofs.Codec.Digits
import PagedMap.Proofs.Codec.Lawful
import PagedMap.Proofs.Codec.Utf8

namespace PagedMap

namespace Counted

theorem encode_of_lt {body : Bytes} (h : body.length < UInt32.size) :
    encode body = .ok (Bytes.ofNat countSize body.length ++ body) := if_pos h

theorem encode_eq_ok {body bs : Bytes} (h : encode body = .ok bs) :
    body.length < UInt32.size ∧ bs = Bytes.ofNat countSize body.length ++ body := by
  by_cases hlt : body.length < UInt32.size
  · rw [encode_of_lt hlt] at h
    cases h
    exact ⟨hlt, rfl⟩
  · rw [encode, if_neg hlt] at h
    cases h

/-- The bytes are found again behind their number. -/
theorem payload_append {body bs : Bytes} (h : encode body = .ok bs) (rest : Bytes) :
    payload (bs ++ rest) = .ok body := by
  obtain ⟨hlt, rfl⟩ := encode_eq_ok h
  have hcount : (Bytes.ofNat countSize body.length).toNat = body.length :=
    Bytes.toNat_ofNat_of_lt hlt
  rw [payload, List.append_assoc, Bytes.window?_append (Bytes.length_ofNat _ _)]
  simp only [hcount, List.drop_left' (Bytes.length_ofNat countSize body.length),
    Bytes.window?_append rfl]

theorem payload_of_encode {body bs : Bytes} (h : encode body = .ok bs) : payload bs = .ok body := by
  simpa using payload_append h []

theorem sizeAt_append {body bs : Bytes} (h : encode body = .ok bs) (rest : Bytes) :
    sizeAt (bs ++ rest) = .ok bs.length := by
  rw [sizeAt, payload_append h]
  obtain ⟨-, rfl⟩ := encode_eq_ok h
  simp [Except.map]

theorem compareBytes?_append {x y a b : Bytes} (hx : encode x = .ok a) (hy : encode y = .ok b)
    (t u : Bytes) : compareBytes? (a ++ t) (b ++ u) = some (Ord.compare x y) := by
  rw [compareBytes?, payload_append hx, payload_append hy]

theorem length_of_encode {body bs : Bytes} (h : encode body = .ok bs) :
    bs.length = countSize + body.length := by
  obtain ⟨-, rfl⟩ := encode_eq_ok h
  simp

/-! ### Separators -/

/-- A beginning is not above the whole. -/
theorem compare_take_ne_gt {α : Type} [Ord α] [Std.ReflOrd α] : ∀ (n : Nat) (bs : List α),
    (Ord.compare (bs.take n) bs).isLE
  | 0, [] => rfl
  | 0, _ :: _ => rfl
  | _ + 1, [] => rfl
  | n + 1, b :: bs => by
    rw [List.take_succ_cons, List.compare_cons_cons, Std.ReflOrd.compare_self, Ordering.eq_then]
    exact compare_take_ne_gt n bs

/-- A beginning of the upper string that goes beyond what the two have in common
is above the lower one. -/
theorem separates_take : ∀ {low high : Bytes} {n : Nat}, Ord.compare low high = .lt →
    Bytes.common low high < n → Ord.compare low (high.take n) = .lt
  | [], [], _, h, _ => by cases h
  | [], _ :: _, n + 1, _, _ => rfl
  | _ :: _, [], _, h, _ => by cases h
  | a :: low, b :: high, n + 1, h, hn => by
    rw [List.take_succ_cons]
    by_cases hab : a = b
    · subst hab
      rw [Text.compare_same_cons] at h ⊢
      rw [Bytes.common, if_pos rfl] at hn
      exact separates_take h (Nat.lt_of_succ_lt_succ hn)
    · rw [List.compare_cons_cons] at h ⊢
      cases hc : Ord.compare a b with
      | lt => rfl
      | eq => exact absurd (Std.LawfulEqOrd.eq_of_compare hc) hab
      | gt => rw [hc] at h; cases h

theorem take_separatorLength (low high : Bytes) :
    high.take (separatorLength low high) = high.take (Bytes.common low high + 1) := by
  rw [separatorLength, List.take_eq_take_iff]
  omega

theorem wholeCharacters_eq_take (n : Nat) (bs : Bytes) :
    ∃ m, n ≤ m ∧ wholeCharacters n bs = bs.take m := by
  refine ⟨n + ((bs.drop n).takeWhile isInner).length, Nat.le_add_right _ _, ?_⟩
  rw [wholeCharacters, List.take_add]
  congr 1
  exact (List.prefix_iff_eq_take.1 (List.takeWhile_prefix _))

/-- A codec that writes items as counted byte strings, in whose order they are,
is lawful. It separates with a beginning of the upper item's bytes. -/
theorem lawful {α : Type} [LinearOrder α] {K : OrderedCodec α} (body : α → Bytes)
    (hsize : K.sizeAt = sizeAt) (hfixed : K.fixedSize? = none)
    (hencode : ∀ x, K.encode x = encode (body x))
    (hdecode : ∀ {bs x}, payload bs = .ok (body x) → K.decode bs = .ok x)
    (hcompare : ∀ x y, K.compare x y = Ord.compare x y)
    (hbody : ∀ x y, Ord.compare x y = Ord.compare (body x) (body y))
    (hbytes : K.compareBytes? = compareBytes?)
    (hseparate : ∀ {x y a b}, payload a = .ok (body x) → payload b = .ok (body y) →
      ∃ z n, Bytes.common (body x) (body y) < n ∧ body z = (body y).take n ∧
        K.separate a b = encode (body z)) :
    K.Lawful where
  sizeAt_append h rest := by
    rw [hencode] at h
    rw [hsize, sizeAt_append h]
  decode_append h rest := by
    rw [hencode] at h
    exact hdecode (payload_append h rest)
  length_pos h := by
    rw [hencode] at h
    rw [length_of_encode h, countSize]
    omega
  length_of_fixed h := by
    rw [hfixed] at h
    cases h
  compare_eq := hcompare
  compareBytes?_append := by
    intro x y a b o hx hy t u h
    rw [hencode] at hx hy
    rw [hbytes, compareBytes?_append hx hy] at h
    rw [← Option.some.inj h, hbody]
  separate_of_lt := by
    intro x y a b hx hy hxy
    rw [hencode] at hx hy
    obtain ⟨z, n, hn, hz, hsep⟩ := hseparate (payload_of_encode hx) (payload_of_encode hy)
    have hle : (body z).length ≤ (body y).length := by rw [hz]; exact List.length_take_le' n _
    have hlt : (body z).length < UInt32.size := Nat.lt_of_le_of_lt hle (encode_eq_ok hy).1
    refine ⟨z, _, hsep.trans (encode_of_lt hlt), (hencode z).trans (encode_of_lt hlt), ?_, ?_, ?_⟩
    · rw [← compare_lt_iff_lt, hbody] at hxy ⊢
      rw [hz]
      exact separates_take hxy hn
    · rw [← compare_le_iff_le, hbody, hz]
      exact Ordering.isLE_iff_ne_gt.1 (compare_take_ne_gt n (body y))
    · rw [length_of_encode hy, List.length_append, Bytes.length_ofNat]
      omega

end Counted

/-! ### Byte strings and texts -/

instance byteString_transCmp : Std.TransCmp byteString.compare :=
  inferInstanceAs (Std.TransOrd Bytes)

instance byteString_lawfulEqCmp : Std.LawfulEqCmp byteString.compare :=
  inferInstanceAs (Std.LawfulEqOrd Bytes)

theorem byteString_separate {x y a b : Bytes} (ha : Counted.payload a = .ok x)
    (hb : Counted.payload b = .ok y) :
    byteString.separate a b = Counted.encode (y.take (Bytes.common x y + 1)) := by
  simp only [byteString, ha, hb, bind, Except.bind, Counted.take_separatorLength]

theorem byteString_lawful :
    letI := linearOrderOf byteString.compare
    byteString.Lawful :=
  letI := linearOrderOf byteString.compare
  Counted.lawful (K := byteString) id rfl rfl (fun _ => rfl) (fun h => h) (fun _ _ => rfl)
    (fun _ _ => rfl) rfl fun {x y _ _} ha hb =>
      ⟨y.take (Bytes.common x y + 1), Bytes.common x y + 1, Nat.lt_succ_self _, rfl,
        byteString_separate ha hb⟩

instance text_transCmp : Std.TransCmp text.compare :=
  inferInstanceAs (Std.TransCmp (compareOn fun x : String => x.toList.map Char.toNat))

instance text_lawfulEqCmp : Std.LawfulEqCmp text.compare where
  compare_self := Std.ReflOrd.compare_self
  eq_of_compare {x y} h := by
    have h' : x.toList.map Char.toNat = y.toList.map Char.toNat := Std.LawfulEqOrd.eq_of_compare h
    exact String.toList_inj.1 ((List.map_inj_right fun _ _ h => Char.toNat_inj.1 h).1 h')

theorem text_separate {x y : String} {a b : Bytes} (ha : Counted.payload a = .ok (Text.toUtf8 x))
    (hb : Counted.payload b = .ok (Text.toUtf8 y)) :
    text.separate a b = Counted.encode (Counted.wholeCharacters
      (Counted.separatorLength (Text.toUtf8 x) (Text.toUtf8 y)) (Text.toUtf8 y)) := by
  simp only [text, ha, hb, bind, Except.bind, Counted.readText, Text.ofUtf8_toUtf8]

theorem text_lawful :
    letI := linearOrderOf text.compare
    text.Lawful :=
  letI := linearOrderOf text.compare
  Counted.lawful (K := text) Text.toUtf8 rfl rfl (fun _ => rfl)
    (fun {bs x} h => by
      simp only [text, h, bind, Except.bind, Counted.readText, Text.ofUtf8_toUtf8])
    (fun _ _ => rfl) (fun x y => (Text.compare_toUtf8 x y).symm) rfl fun {x y a b} ha hb => by
      obtain ⟨n, hn, htake⟩ := Counted.wholeCharacters_eq_take
        (Counted.separatorLength (Text.toUtf8 x) (Text.toUtf8 y)) (Text.toUtf8 y)
      obtain ⟨z, hz⟩ := Text.wholeCharacters_toUtf8
        (Counted.separatorLength (Text.toUtf8 x) (Text.toUtf8 y)) y
      -- where the separator is the whole of the upper key it is longer by less
      refine ⟨z, max n (Bytes.common (Text.toUtf8 x) (Text.toUtf8 y) + 1), by omega, ?_, ?_⟩
      · rw [← hz, htake, List.take_eq_take_iff]
        rw [Counted.separatorLength] at hn
        omega
      · rw [text_separate ha hb, hz]

/-! ### Accounts -/

namespace Account

/-- A reader goes on with what the one before has left. -/
theorem bind_of_eq_some {α β : Type} {x : Reader α} {f : α → Reader β} {bs rest : Bytes} {a : α}
    (h : x bs = some (a, rest)) : (x >>= f) bs = f a rest := by
  change (x bs).bind _ = _
  rw [h]
  rfl

theorem readBytes_append {n : Nat} {bs : Bytes} (h : bs.length = n) (rest : Bytes) :
    readBytes n (bs ++ rest) = some (bs, rest) := by
  simp only [readBytes, Bytes.window?_append h, List.drop_left' h]
  rfl

theorem readNumber_append {n : Nat} (h : n < UInt64.size) (rest : Bytes) :
    readNumber (Bytes.ofNatLE 8 n ++ rest) = some (n, rest) := by
  rw [readNumber, bind_of_eq_some (readBytes_append (Bytes.length_ofNatLE 8 n) rest),
    Bytes.toNatLE_ofNatLE, Nat.mod_eq_of_lt (show n < 256 ^ 8 from h)]
  rfl

theorem length_textBytes (s : String) : (textBytes s).length = 8 + s.utf8ByteSize := by
  rw [textBytes, lengthBytes, List.length_append, Bytes.length_ofNatLE, Text.length_toUtf8]

theorem readText_append {s : String} (h : s.utf8ByteSize < UInt64.size) (rest : Bytes) :
    readText (textBytes s ++ rest) = some (s, rest) := by
  rw [readText, textBytes, List.append_assoc, lengthBytes,
    bind_of_eq_some (readNumber_append h _),
    bind_of_eq_some (readBytes_append (Text.length_toUtf8 s) rest), Text.ofUtf8_toUtf8]
  rfl

theorem readTexts_append : ∀ {tags : List String}, (∀ s ∈ tags, s.utf8ByteSize < UInt64.size) →
    ∀ rest, readTexts tags.length (tags.flatMap textBytes ++ rest) = some (tags, rest)
  | [], _, rest => rfl
  | s :: tags, h, rest => by
    rw [List.flatMap_cons, List.append_assoc, List.length_cons, readTexts,
      bind_of_eq_some (readText_append (h s (List.mem_cons_self ..)) _),
      bind_of_eq_some (readTexts_append (fun t ht => h t (List.mem_cons_of_mem s ht)) rest)]
    rfl

theorem length_flatMap_textBytes_ge : ∀ tags : List String,
    tags.length ≤ (tags.flatMap textBytes).length ∧
      ∀ s ∈ tags, s.utf8ByteSize ≤ (tags.flatMap textBytes).length
  | [] => by simp
  | s :: tags => by
    obtain ⟨h, hall⟩ := length_flatMap_textBytes_ge tags
    rw [List.flatMap_cons, List.length_append, length_textBytes, List.length_cons]
    refine ⟨by omega, fun t ht => ?_⟩
    rcases List.mem_cons.1 ht with rfl | ht
    · omega
    · have := hall t ht
      omega

/-- The fields are read back, if their lengths fit into eight bytes. -/
theorem ofBody_body {a : Account} (h : a.body.length < UInt64.size) : ofBody a.body = .ok a := by
  obtain ⟨hcount, htag⟩ := length_flatMap_textBytes_ge a.tags
  have hbalance : (a.balance.toInt % UInt64.size).toNat < UInt64.size := by
    have hlt := Int.emod_lt_of_pos a.balance.toInt (show (0 : Int) < UInt64.size by decide)
    omega
  have hback : Int64.ofInt ((a.balance.toInt % UInt64.size).toNat : Int) = a.balance := by
    rw [Int.toNat_of_nonneg (Int.emod_nonneg _ (by decide)), Int64.ofInt_eq_iff_bmod_eq_toInt]
    exact (Int.emod_bmod _ UInt64.size).trans a.balance.toInt_bmod
  have hlen : a.body.length = 8 + a.owner.utf8ByteSize + 8 + 8 +
      (a.tags.flatMap textBytes).length := by
    simp only [body, List.length_append, length_textBytes, Bytes.length_ofNatLE, lengthBytes]
  have hread : read a.body = some (a, []) := by
    have htags := readTexts_append (fun s hs => Nat.lt_of_le_of_lt (htag s hs) (by omega)) []
    rw [List.append_nil] at htags
    rw [body, List.append_assoc, List.append_assoc, read, lengthBytes,
      bind_of_eq_some (readText_append (by omega) _),
      bind_of_eq_some (readNumber_append hbalance _),
      bind_of_eq_some (readNumber_append (by omega) _), bind_of_eq_some htags]
    change some ((⟨a.owner, Int64.ofInt ((a.balance.toInt % UInt64.size).toNat : Int),
      a.tags⟩ : Account), ([] : Bytes)) = _
    rw [hback]
  rw [ofBody, hread]

end Account

theorem account_encode_eq_ok {a : Account} {bs : Bytes} (h : account.encode a = .ok bs) :
    Counted.encode a.body = .ok bs := by
  simp only [account] at h
  split at h
  · cases h
  · exact h

theorem Account.payload_append {body bs : Bytes} (h : Counted.encode body = .ok bs)
    (rest : Bytes) : Account.payload (bs ++ rest) = .ok body := by
  rw [Account.payload, Counted.payload_append h]

theorem account_lawful : account.Lawful where
  sizeAt_append h rest := by
    have h' := account_encode_eq_ok h
    simp only [account, Account.payload_append h', Counted.length_of_encode h']
    rfl
  decode_append h rest := by
    have h' := account_encode_eq_ok h
    simp only [account, Account.payload_append h', bind, Except.bind]
    exact Account.ofBody_body (Nat.lt_trans (Counted.encode_eq_ok h').1 (by decide))
  length_of_fixed h := by cases h

end PagedMap
