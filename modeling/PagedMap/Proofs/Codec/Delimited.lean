/-
# Encodings end by themselves

All codecs but `littleWord` look at a buffer through a frame (`Frame`): it cuts the bytes of one
item out of the front of the buffer, is not led by anything behind them, and calls a buffer
without them corrupt. So a buffer that ends within an encoding is corrupt: if a frame found an
item in it, it would find the same one in the whole encoding, whose end is further on
(`Codec.Delimited.corrupt_take`).

Key definitions: `Frame`, `Codec.Delimited`, `ValueKind.body`.
Key theorems: `Frame.delimited`, `ValueKind.codec_delimited`, `ValueKind.encode_delimits`.
-/
import PagedMap.Proofs.Codec.Faithful
import PagedMap.Proofs.Codec.Faultless

namespace PagedMap

variable {α : Type}

/-- A codec that finds an item by the bytes of its encoding alone. -/
class Codec.Delimited (C : Codec α) : Prop where
  length_le : ∀ {bs : Bytes} {n : Nat}, C.sizeAt bs = .ok n → n ≤ bs.length
  sizeAt_of_take : ∀ {bs cs : Bytes} {n : Nat}, C.sizeAt bs = .ok n → cs.take n = bs.take n →
    C.sizeAt cs = .ok n
  decode_of_take : ∀ {bs cs : Bytes} {n : Nat}, C.sizeAt bs = .ok n → cs.take n = bs.take n →
    C.decode cs = C.decode bs
  corrupt_of_error : ∀ {bs : Bytes} {e : Error}, C.sizeAt bs = .error e →
    (∃ c, e = .corruption c) ∧ C.decode bs = .error e

/-- A buffer that ends before the encoding it begins with is corrupt. -/
theorem Codec.Delimited.corrupt_take {C : Codec α} [C.Delimited] {bs : Bytes} {k n : Nat}
    (h : C.sizeAt bs = .ok n) (hk : k < n) :
    ∃ c, C.sizeAt (bs.take k) = .error (.corruption c) ∧
      C.decode (bs.take k) = .error (.corruption c) := by
  cases hcut : C.sizeAt (bs.take k) with
  | error e =>
    obtain ⟨⟨c, rfl⟩, hdecode⟩ := corrupt_of_error hcut
    exact ⟨c, rfl, hdecode⟩
  | ok m =>
    have hm : m ≤ k := Nat.le_trans (length_le hcut) (List.length_take_le k bs)
    have hwhole : C.sizeAt bs = .ok m := by
      refine sizeAt_of_take hcut ?_
      rw [List.take_take, Nat.min_eq_left hm]
    obtain rfl : m = n := Except.ok.inj (hwhole.symm.trans h)
    omega

/-! ### Frames -/

/-- What cuts the bytes of an item, which stand behind `front` others, out of a buffer. -/
structure Frame (r : Bytes → Except Error Bytes) (front : Nat) : Prop where
  length_le : ∀ {bs body}, r bs = .ok body → front + body.length ≤ bs.length
  of_take : ∀ {bs cs body}, r bs = .ok body →
    cs.take (front + body.length) = bs.take (front + body.length) → r cs = .ok body
  corrupt : ∀ {bs e}, r bs = .error e → ∃ c, e = .corruption c

/-- A codec that reads what a frame cuts out finds items by their encodings alone. -/
theorem Frame.delimited {C : Codec α} {r : Bytes → Except Error Bytes} {front : Nat}
    (hr : Frame r front) (parse : Bytes → Except Error α)
    (hsizeAt : ∀ bs, C.sizeAt bs = (r bs).map fun body => front + body.length)
    (hdecode : ∀ bs, C.decode bs = r bs >>= parse) : C.Delimited := by
  have of_sizeAt {bs n} (h : C.sizeAt bs = .ok n) :
      ∃ body, r bs = .ok body ∧ front + body.length = n := by
    rw [hsizeAt] at h
    cases hbs : r bs with
    | error e => rw [hbs] at h; cases h
    | ok body => rw [hbs] at h; exact ⟨body, rfl, Except.ok.inj h⟩
  refine ⟨fun h => ?_, fun h htake => ?_, fun h htake => ?_, fun {bs e} h => ?_⟩
  · obtain ⟨body, hbody, rfl⟩ := of_sizeAt h
    exact hr.length_le hbody
  · obtain ⟨body, hbody, rfl⟩ := of_sizeAt h
    rw [hsizeAt, hr.of_take hbody htake]
    rfl
  · obtain ⟨body, hbody, rfl⟩ := of_sizeAt h
    rw [hdecode, hdecode, hr.of_take hbody htake, hbody]
  · rw [hsizeAt] at h
    cases hbs : r bs with
    | error e' =>
      rw [hbs] at h
      obtain rfl : e' = e := Except.error.inj h
      exact ⟨hr.corrupt hbs, by rw [hdecode, hbs]; rfl⟩
    | ok body => rw [hbs] at h; cases h

/-- The digits of an integer are a frame. -/
theorem WordType.digits_frame (T : WordType α) : Frame T.digits 0 := by
  have window {bs ds} (h : T.digits bs = .ok ds) :
      ds.length = T.width ∧ ds = bs.take ds.length ∧ ds.length ≤ bs.length := by
    rw [digits] at h
    split at h
    · next ds' hds =>
      obtain rfl : ds' = ds := Except.ok.inj h
      obtain ⟨hlen, htake⟩ := Bytes.window?_eq_some hds
      have hle := congrArg List.length htake
      rw [List.length_take] at hle
      exact ⟨hlen, hlen.symm ▸ htake, by omega⟩
    · cases h
  refine ⟨fun h => ?_, fun {bs cs ds} h htake => ?_, fun {bs e} h => ?_⟩
  · rw [Nat.zero_add]
    exact (window h).2.2
  · obtain ⟨hlen, hds, -⟩ := window h
    rw [Nat.zero_add, ← hds] at htake
    rw [digits, ← List.take_append_drop ds.length cs, htake, Bytes.window?_append hlen]
  · rw [digits] at h
    split at h
    · cases h
    · exact ⟨_, (Except.error.inj h).symm⟩

/-- The bytes behind their number are a frame. -/
theorem Counted.payload_frame : Frame payload countSize := by
  refine ⟨fun {bs body} h => ?_, fun {bs cs body} h htake => ?_, fun {bs e} h => ?_⟩
  · have hle : Answers (payload bs) fun body => countSize + body.length ≤ bs.length :=
      payload_answers
    rw [h] at hle
    exact hle
  · rw [← List.take_append_drop (countSize + body.length) cs, htake]
    exact payload_append (payload_eq_ok h) _
  · rw [payload] at h
    split at h
    · exact ⟨_, (Except.error.inj h).symm⟩
    · dsimp only at h
      split at h
      · cases h
      · exact ⟨_, (Except.error.inj h).symm⟩

/-- A frame of records differs in what it says of a body that is cut off. -/
theorem Account.payload_eq_ok {bs body : Bytes} :
    payload bs = .ok body ↔ Counted.payload bs = .ok body := by
  rw [payload]
  split
  · next hcut =>
    rw [hcut]
    constructor
    · intro h
      cases h
    · intro h
      cases h
  · rfl

theorem Account.payload_frame : Frame payload Counted.countSize where
  length_le h := Counted.payload_frame.length_le (payload_eq_ok.1 h)
  of_take h htake := payload_eq_ok.2 (Counted.payload_frame.of_take (payload_eq_ok.1 h) htake)
  corrupt {bs e} h := by
    rw [payload] at h
    split at h
    · exact ⟨_, (Except.error.inj h).symm⟩
    · exact Counted.payload_frame.corrupt h

/-! ### The codecs there are -/

theorem WordType.codec_delimited (T : WordType α) : T.codec.Delimited := by
  refine T.digits_frame.delimited (fun ds => .ok (T.ofRank ds.toNat)) (fun bs => ?_) fun bs => ?_
  · change (T.digits bs).map List.length = _
    simp only [Nat.zero_add]
  · change (T.digits bs).map _ = _
    cases T.digits bs <;> rfl

theorem byteString_delimited : byteString.Delimited :=
  Counted.payload_frame.delimited .ok (fun _ => rfl) fun bs => by
    change Counted.payload bs = _
    cases Counted.payload bs <;> rfl

theorem text_delimited : text.Delimited :=
  Counted.payload_frame.delimited Counted.readText (fun _ => rfl) fun _ => rfl

theorem account_delimited : account.Delimited :=
  Account.payload_frame.delimited Account.ofBody (fun _ => rfl) fun _ => rfl

theorem account_exists_encode {a : Account} (h : a.body.length < UInt32.size) :
    ∃ bs, account.encode a = .ok bs ∧ account.size a = bs.length := by
  have hbody := Counted.encode_of_lt h
  refine ⟨Bytes.ofNat Counted.countSize a.body.length ++ a.body, ?_, ?_⟩
  · simp only [account, hbody]
  · simp only [account, Counted.length_of_encode hbody]

namespace KeyKind

/-- The bytes of a key that stand behind their number. Integers have none. -/
def body : (k : KeyKind) → k.Item → Bytes
  | byteString, x => x
  | text, x => Text.toUtf8 x
  | word32, _ | word64, _ | int32, _ | int64, _ | littleWord, _ => []

/-- A key whose bytes can be counted in front has an encoding of the size that is foretold. -/
theorem exists_encode : ∀ {k : KeyKind} {x : k.Item}, (k.body x).length < UInt32.size →
    ∃ bs, k.codec.encode x = .ok bs ∧ k.codec.size x = bs.length
  | word32, _, _ | word64, _, _ | int32, _, _ | int64, _, _ =>
    ⟨_, rfl, (Bytes.length_ofNat _ _).symm⟩
  | littleWord, _, _ => ⟨_, rfl, (Bytes.length_ofNatLE _ _).symm⟩
  | byteString, _, h =>
    ⟨_, Counted.encode_of_lt h, (Counted.length_of_encode (Counted.encode_of_lt h)).symm⟩
  | text, x, h => by
    have hencode := Counted.encode_of_lt h
    refine ⟨_, hencode, ?_⟩
    rw [Counted.length_of_encode hencode]
    exact congrArg (Counted.countSize + ·) (Text.length_toUtf8 x).symm

theorem codec_delimited : ∀ {k : KeyKind}, k ≠ .littleWord → k.codec.Delimited
  | word32, _ | word64, _ | int32, _ | int64, _ => WordType.codec_delimited _
  | byteString, _ => byteString_delimited
  | text, _ => text_delimited
  | littleWord, h => (h rfl).elim

end KeyKind

namespace ValueKind

/-- The bytes of a value that stand behind their number. -/
def body : (v : ValueKind) → v.Item → Bytes
  | key kind, x => kind.body x
  | account, x => Account.body x

/-- A value whose bytes can be counted in front has an encoding of the size that is foretold. -/
theorem exists_encode {v : ValueKind} {x : v.Item} (h : (v.body x).length < UInt32.size) :
    ∃ bs, v.codec.encode x = .ok bs ∧ v.codec.size x = bs.length := by
  cases v with
  | key kind => exact KeyKind.exists_encode h
  | account =>
    simp only [codec]
    exact account_exists_encode h

theorem codec_delimited : ∀ {v : ValueKind}, v ≠ .key .littleWord → v.codec.Delimited
  | key _, h => KeyKind.codec_delimited fun hkind => h (congrArg _ hkind)
  | account, _ => account_delimited

/-- **Encodings end by themselves.** An item whose bytes can be counted has an encoding of the
size that is foretold, which is found and read back whatever follows it, and a buffer that ends
within it is corrupt. In any buffer, the length that is found is that of a beginning of it, and
every buffer that begins so has the same length found in it and is decoded to the same. -/
theorem encode_delimits {v : ValueKind} (hv : v ≠ .key .littleWord) :
    (∀ x : v.Item, (v.body x).length < UInt32.size →
      ∃ bs, v.codec.encode x = .ok bs ∧ v.codec.size x = bs.length ∧
        (∀ rest, v.codec.sizeAt (bs ++ rest) = .ok bs.length ∧
          v.codec.decode (bs ++ rest) = .ok x) ∧
        ∀ n < bs.length, ∃ c, v.codec.sizeAt (bs.take n) = .error (.corruption c) ∧
          v.codec.decode (bs.take n) = .error (.corruption c)) ∧
    ∀ bs n, v.codec.sizeAt bs = .ok n → n ≤ bs.length ∧
      ∀ cs, cs.take n = bs.take n →
        v.codec.sizeAt cs = .ok n ∧ v.codec.decode cs = v.codec.decode bs := by
  have := codec_delimited hv
  refine ⟨fun x hx => ?_, fun bs n hn => ⟨Codec.Delimited.length_le hn, fun cs hcs => ?_⟩⟩
  · obtain ⟨bs, hbs, hsize⟩ := exists_encode hx
    have hfound rest := Codec.Lawful.sizeAt_append hbs rest
    have hself : v.codec.sizeAt bs = .ok bs.length := by simpa using hfound []
    exact ⟨bs, hbs, hsize, fun rest => ⟨hfound rest, Codec.Lawful.decode_append hbs rest⟩,
      fun n hn => Codec.Delimited.corrupt_take hself hn⟩
  · exact ⟨Codec.Delimited.sizeAt_of_take hn hcs, Codec.Delimited.decode_of_take hn hcs⟩

/-- An account with tags, one of them empty, cut off at each place. -/
theorem encode_delimits_tagged :
    ∃ bs, PagedMap.account.encode ⟨"ada", -7, ["é", ""]⟩ = .ok bs ∧ bs.length = 49 ∧
      PagedMap.account.decode (bs ++ [0, 1]) = .ok ⟨"ada", -7, ["é", ""]⟩ ∧
      (∃ c, PagedMap.account.decode (bs.take 48) = .error (.corruption c)) ∧
      PagedMap.account.decode (bs ++ [0, 1]) = PagedMap.account.decode (bs ++ [2]) := by
  obtain ⟨hitems, hbuffers⟩ := encode_delimits (v := .account) (by decide)
  obtain ⟨bs, hbs, hsize, hfound, hcut⟩ := hitems ⟨"ada", -7, ["é", ""]⟩ (by decide +kernel)
  have hlen : bs.length = 49 := hsize.symm.trans (by decide +kernel)
  obtain ⟨c, -, hc⟩ := hcut 48 (by omega)
  refine ⟨bs, hbs, hlen, (hfound [0, 1]).2, ⟨c, hc⟩, ?_⟩
  exact ((hbuffers _ _ (hfound [2]).1).2 (bs ++ [0, 1]) (by simp)).2

end ValueKind

end PagedMap
