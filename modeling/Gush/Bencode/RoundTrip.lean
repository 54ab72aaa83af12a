import Gush.Bencode.Parse

/-!
# Parsing inverts encoding

`parses_encode_at`: wherever the encoding of a valid value stands in the data, the parser returns
that value and the position just behind it. `encode_append_inj`: encodings can be cut off a byte
string in one way only, so `encode` is injective and no encoding is a proper prefix of another.
-/

namespace Gush.Bencode

open Cxx

/-! ### The first byte of an encoding -/

theorem encodeString_cons (s : Bytes) :
    ∃ c t, encodeString s = c :: t ∧ isdigit c = true := by
  cases h : Decimal.numeral s.length with
  | nil => exact absurd h (Decimal.numeral_ne_nil _)
  | cons c t =>
    refine ⟨c, t ++ ':'.toUInt8 :: s, by simp [encodeString, h], ?_⟩
    exact Decimal.isDigit_of_mem_numeral (n := s.length) (by simp [h])

/-- An encoding is not empty and does not start with the `e` that ends a loop. -/
theorem encode_cons (v : BencodeValue) : ∃ c t, encode v = c :: t ∧ c ≠ 'e'.toUInt8 := by
  cases v with
  | int i => exact ⟨_, _, by rw [encode], by decide⟩
  | str s =>
    obtain ⟨c, t, h, hc⟩ := encodeString_cons s
    exact ⟨c, t, by rw [encode, h], ne_of_isdigit hc (by decide)⟩
  | list l => exact ⟨_, _, by rw [encode], by decide⟩
  | dict d => exact ⟨_, _, by rw [encode], by decide⟩

/-! ### Reading back -/

section ReadBack

variable {data : Bytes}

theorem parseInt_encode {i : ℤ} {pos : ℕ} {suf : Bytes} (lo : -2 ^ 63 ≤ i) (hi : i < 2 ^ 63)
    (h : data.drop pos = encode (.int i) ++ suf) :
    parseInt data pos = .ok (.int i, pos + (encode (.int i)).length) := by
  have hdrop : data.drop (pos + 1) = showInt i ++ 'e'.toUInt8 :: suf := by
    rw [← List.drop_drop, h]
    simp [encode]
  have hfind := find_of_drop hdrop (not_mem_showInt (by decide) (by decide))
  have hsub : substr data (pos + 1) (pos + 1 + (showInt i).length - (pos + 1)) = showInt i := by
    rw [Nat.add_sub_cancel_left]
    exact substr_of_drop hdrop
  simp only [parseInt, hfind, hsub, stoll_showInt lo hi, encode, List.length_cons,
    List.length_append, List.length_nil]
  congr 2
  omega

/-- The bound check passes because the whole string is there; below `2 ^ 63` the sum is exact. -/
theorem parseString_encode (hd : data.length < 2 ^ 63) {s suf : Bytes} {pos : ℕ}
    (h : data.drop pos = encodeString s ++ suf) :
    parseString data pos = .ok (.str s, pos + (encodeString s).length) := by
  have hcolon : data.drop pos = Decimal.numeral s.length ++ ':'.toUInt8 :: (s ++ suf) := by
    rw [h]
    simp [encodeString]
  have hnot : ':'.toUInt8 ∉ Decimal.numeral s.length := fun hm =>
    ne_of_isdigit (Decimal.isDigit_of_mem_numeral hm) (by decide) rfl
  have hfind := find_of_drop hcolon hnot
  set k := (Decimal.numeral s.length).length with hk
  have hbody : data.drop (pos + k + 1) = s ++ suf := by
    have hcut : data.drop pos = (Decimal.numeral s.length ++ [':'.toUInt8]) ++ (s ++ suf) := by
      rw [hcolon]
      simp
    simpa [← hk, ← Nat.add_assoc] using drop_of_drop hcut
  have hlen : pos + k + 1 + s.length ≤ data.length := by
    have := congrArg List.length hcolon
    simp only [List.length_drop, List.length_append, List.length_cons, ← hk] at this
    omega
  have hsub : substr data pos (pos + k - pos) = Decimal.numeral s.length := by
    rw [Nat.add_sub_cancel_left]
    exact substr_of_drop hcolon
  have hadd : sizeAdd (pos + k + 1) s.length = pos + k + 1 + s.length :=
    sizeAdd_of_lt (by omega)
  have hlt : s.length < 2 ^ 64 := by omega
  simp only [parseString, hfind, hsub, stoull_numeral hlt, hadd, substr_of_drop hbody]
  rw [if_neg (by omega)]
  congr 2
  simp only [encodeString, List.length_append, List.length_cons, ← hk]
  omega

theorem parses_encodeString (hd : data.length < 2 ^ 63) {s suf : Bytes} {pos : ℕ}
    (h : data.drop pos = encodeString s ++ suf) :
    Parses data pos (.ok (.str s, pos + (encodeString s).length)) := by
  obtain ⟨c, t, hs, hc⟩ := encodeString_cons s
  have hlead : data.drop pos = c :: (t ++ suf) := by
    rw [h, hs]
    rfl
  rw [parses_string (getElem?_of_drop hlead) hc, parseString_encode hd h]

/-- The list loop reads the items that follow, then the closing `e`. -/
theorem listLoops_encodeItems {l : List BencodeValue}
    (ih : ∀ v ∈ l, ∀ pos suf, data.drop pos = encode v ++ suf →
      Parses data pos (.ok (v, pos + (encode v).length)))
    (acc : List BencodeValue) {pos : ℕ} {suf : Bytes}
    (h : data.drop pos = encodeItems l ++ 'e'.toUInt8 :: suf) :
    ListLoops data pos acc (.ok (.list (acc ++ l), pos + (encodeItems l).length + 1)) := by
  induction l generalizing acc pos with
  | nil =>
    rw [listLoops_end (getElem?_of_drop h)]
    simp [encodeItems]
  | cons v l ihl =>
    obtain ⟨c, t, hv, hc⟩ := encode_cons v
    have hdrop : data.drop pos = encode v ++ (encodeItems l ++ 'e'.toUInt8 :: suf) := by
      rw [h, encodeItems, List.append_assoc]
    have hrest := ihl (fun w hw => ih w (List.mem_cons_of_mem v hw)) (acc ++ [v])
      (drop_of_drop hdrop)
    rw [listLoops_item (getElem?_of_drop (by rw [hdrop, hv]; rfl)) hc]
    refine .inr ⟨v, _, ih v List.mem_cons_self pos _ hdrop, ?_⟩
    have hpos : pos + (encodeItems (v :: l)).length + 1 =
        pos + (encode v).length + (encodeItems l).length + 1 := by
      rw [encodeItems, List.length_append]
      omega
    rw [hpos]
    simpa using hrest

/-- The dictionary loop reads the entries that follow; their keys ascend, so each assignment
appends to the map. -/
theorem dictLoops_encodeEntries (hd : data.length < 2 ^ 63) {d : BencodeDict}
    (ih : ∀ e ∈ d, ∀ pos suf, data.drop pos = encode e.2 ++ suf →
      Parses data pos (.ok (e.2, pos + (encode e.2).length)))
    (acc : BencodeDict) (hacc : Ascending (acc ++ d)) {pos : ℕ} {suf : Bytes}
    (h : data.drop pos = encodeEntries d ++ 'e'.toUInt8 :: suf) :
    DictLoops data pos acc (.ok (.dict (acc ++ d), pos + (encodeEntries d).length + 1)) := by
  induction d generalizing acc pos with
  | nil =>
    rw [dictLoops_end (getElem?_of_drop h)]
    simp [encodeEntries]
  | cons e d ihd =>
    obtain ⟨k, v⟩ := e
    obtain ⟨c, t, hk, hc⟩ := encodeString_cons k
    have hkey : data.drop pos =
        encodeString k ++ (encode v ++ (encodeEntries d ++ 'e'.toUInt8 :: suf)) := by
      rw [h, encodeEntries, List.append_assoc, List.append_assoc]
    have hval := drop_of_drop hkey
    -- the key is greater than all keys so far, so it goes to the end
    have hinsert : dictInsert k v acc = acc ++ [(k, v)] :=
      dictInsert_last v fun x hx => (List.pairwise_append.1 hacc).2.2 x hx _ List.mem_cons_self
    have hrest := ihd (fun x hx => ih x (List.mem_cons_of_mem _ hx)) (acc ++ [(k, v)])
      (by simpa using hacc) (drop_of_drop hval)
    rw [dictLoops_entry (getElem?_of_drop (by rw [hkey, hk]; rfl)) (ne_of_isdigit hc (by decide))]
    refine .inr (.inr ⟨k, _, parses_encodeString hd hkey, .inr ⟨v,
      pos + (encodeString k).length + (encode v).length, ?_, ?_⟩⟩)
    · exact ih (k, v) List.mem_cons_self _ _ hval
    · rw [hinsert]
      have hpos : pos + (encodeEntries ((k, v) :: d)).length + 1 =
          pos + (encodeString k).length + (encode v).length + (encodeEntries d).length + 1 := by
        rw [encodeEntries, List.length_append, List.length_append]
        omega
      rw [hpos]
      simpa using hrest

/-- The parser reads an encoding back, wherever it stands. -/
theorem parses_encode_at (hd : data.length < 2 ^ 63) {v : BencodeValue} (hv : v.Valid) :
    ∀ {pos : ℕ} {suf : Bytes}, data.drop pos = encode v ++ suf →
      Parses data pos (.ok (v, pos + (encode v).length)) := by
  induction hv with
  | @int i lo hi =>
    intro pos suf h
    rw [parses_int (getElem?_of_drop (by rw [h, encode]; rfl)), parseInt_encode lo hi h]
  | str s =>
    intro pos suf h
    rw [encode] at h ⊢
    exact parses_encodeString hd h
  | @list l items ih =>
    intro pos suf h
    have hl : data[pos]? = some 'l'.toUInt8 := getElem?_of_drop (by rw [h, encode]; rfl)
    have hitems : data.drop (pos + 1) = encodeItems l ++ 'e'.toUInt8 :: suf := by
      rw [← List.drop_drop, h]
      simp [encode]
    have hpos : pos + (encode (.list l)).length = pos + 1 + (encodeItems l).length + 1 := by
      simp only [encode, List.length_cons, List.length_append, List.length_nil]
      omega
    rw [parses_list hl, hpos]
    exact listLoops_encodeItems (fun v hv pos suf h => ih v hv h) [] hitems
  | @dict d items ascending ih =>
    intro pos suf h
    have hdc : data[pos]? = some 'd'.toUInt8 := getElem?_of_drop (by rw [h, encode]; rfl)
    have hentries : data.drop (pos + 1) = encodeEntries d ++ 'e'.toUInt8 :: suf := by
      rw [← List.drop_drop, h]
      simp [encode]
    have hpos : pos + (encode (.dict d)).length = pos + 1 + (encodeEntries d).length + 1 := by
      simp only [encode, List.length_cons, List.length_append, List.length_nil]
      omega
    rw [parses_dict hdc, hpos]
    exact dictLoops_encodeEntries hd (fun e he pos suf h => ih e he h) [] ascending hentries

end ReadBack

/-! ### Unique decodability -/

/-- A run of digits in front of a byte that is no digit is determined. -/
theorem digits_append_inj {ds ds' s s' : Bytes} {c : UInt8} (hc : isdigit c = false)
    (hds : ∀ b ∈ ds, isdigit b = true) (hds' : ∀ b ∈ ds', isdigit b = true)
    (h : ds ++ c :: s = ds' ++ c :: s') : ds = ds' ∧ s = s' := by
  induction ds generalizing ds' with
  | nil =>
    cases ds' with
    | nil => simpa using h
    | cons b ds' =>
      have hb : c = b := (List.cons.inj h).1
      exact absurd hb.symm (ne_of_isdigit (hds' b List.mem_cons_self) hc)
  | cons b ds ih =>
    cases ds' with
    | nil =>
      have hb : b = c := (List.cons.inj h).1
      exact absurd hb (ne_of_isdigit (hds b List.mem_cons_self) hc)
    | cons b' ds' =>
      obtain ⟨hb, ht⟩ := List.cons.inj h
      obtain ⟨hds'', hs⟩ := ih (fun x hx => hds x (List.mem_cons_of_mem b hx))
        (fun x hx => hds' x (List.mem_cons_of_mem b' hx)) ht
      exact ⟨by rw [hb, hds''], hs⟩

theorem numeral_append_inj {m n : ℕ} {c : UInt8} {s s' : Bytes} (hc : isdigit c = false)
    (h : Decimal.numeral m ++ c :: s = Decimal.numeral n ++ c :: s') : m = n ∧ s = s' := by
  obtain ⟨hd, hs⟩ := digits_append_inj hc (fun b hb => Decimal.isDigit_of_mem_numeral hb)
    (fun b hb => Decimal.isDigit_of_mem_numeral hb) h
  exact ⟨Decimal.numeral_injective hd, hs⟩

theorem encodeString_append_inj {k k' s s' : Bytes}
    (h : encodeString k ++ s = encodeString k' ++ s') : k = k' ∧ s = s' := by
  simp only [encodeString, List.append_assoc, List.cons_append] at h
  obtain ⟨hlen, hrest⟩ := numeral_append_inj (by decide) h
  exact List.append_inj hrest hlen

theorem showInt_append_inj {i j : ℤ} {s s' : Bytes}
    (h : showInt i ++ 'e'.toUInt8 :: s = showInt j ++ 'e'.toUInt8 :: s') : i = j ∧ s = s' := by
  have hminus : ∀ {n : ℕ} {t t' : Bytes},
      Decimal.numeral n ++ t ≠ '-'.toUInt8 :: t' := by
    intro n t t' he
    cases hn : Decimal.numeral n with
    | nil => exact Decimal.numeral_ne_nil n hn
    | cons b ds =>
      rw [hn] at he
      have hb : isdigit b = true := Decimal.isDigit_of_mem_numeral (n := n) (by simp [hn])
      exact ne_of_isdigit hb (by decide) (List.cons.inj he).1
  cases i with
  | ofNat m =>
    cases j with
    | ofNat n =>
      obtain ⟨rfl, hs⟩ := numeral_append_inj (by decide) h
      exact ⟨rfl, hs⟩
    | negSucc n => exact absurd h hminus
  | negSucc m =>
    cases j with
    | ofNat n => exact absurd h.symm hminus
    | negSucc n =>
      obtain ⟨hmn, hs⟩ := numeral_append_inj (by decide) (List.cons.inj h).2
      exact ⟨by rw [Nat.succ.inj hmn], hs⟩

/-- The kinds of encodings differ in their first byte. -/
theorem isdigit_lead {v : BencodeValue} {c : UInt8} {t s : Bytes}
    (h : encode v ++ s = c :: t) (hc : isdigit c = true) : ∃ k, v = .str k := by
  cases v with
  | str k => exact ⟨k, rfl⟩
  | int i => rw [encode] at h; exact absurd (List.cons.inj h).1.symm (ne_of_isdigit hc (by decide))
  | list l => rw [encode] at h; exact absurd (List.cons.inj h).1.symm (ne_of_isdigit hc (by decide))
  | dict d => rw [encode] at h; exact absurd (List.cons.inj h).1.symm (ne_of_isdigit hc (by decide))

theorem encode_ne_end {v : BencodeValue} {s t : Bytes} : encode v ++ s ≠ 'e'.toUInt8 :: t := by
  obtain ⟨c, u, hv, hc⟩ := encode_cons v
  rw [hv]
  exact fun h => hc (List.cons.inj h).1

theorem encodeString_ne_end {k s t : Bytes} : encodeString k ++ s ≠ 'e'.toUInt8 :: t := by
  obtain ⟨c, u, hk, hc⟩ := encodeString_cons k
  rw [hk]
  exact fun h => ne_of_isdigit hc (by decide) (List.cons.inj h).1

mutual

/-- An encoding in front of a byte string can be cut off in one way only. -/
theorem encode_append_inj : ∀ (v w : BencodeValue) (s s' : Bytes),
    encode v ++ s = encode w ++ s' → v = w ∧ s = s'
  | .str k, w, s, s', h => by
    obtain ⟨c, t, hk, hc⟩ := encodeString_cons k
    have hlead : encode w ++ s' = c :: (t ++ s) := by rw [← h, encode, hk]; rfl
    obtain ⟨k', rfl⟩ := isdigit_lead hlead hc
    rw [encode, encode] at h
    obtain ⟨rfl, hs⟩ := encodeString_append_inj h
    exact ⟨rfl, hs⟩
  -- the first byte tells the kind of the value
  | .int i, w, s, s', h => by
    cases w with
    | int j =>
      simp only [encode, List.cons_append, List.append_assoc, List.nil_append] at h
      obtain ⟨rfl, hs⟩ := showInt_append_inj (List.cons.inj h).2
      exact ⟨rfl, hs⟩
    | str k =>
      obtain ⟨c, t, hk, hc⟩ := encodeString_cons k
      rw [encode.eq_2, hk] at h
      obtain ⟨_, hv⟩ := isdigit_lead (v := .int i) h hc
      cases hv
    | list l => rw [encode, encode] at h; exact absurd (List.cons.inj h).1 (by decide)
    | dict d => rw [encode, encode] at h; exact absurd (List.cons.inj h).1 (by decide)
  | .list l, w, s, s', h => by
    cases w with
    | list l' =>
      simp only [encode, List.cons_append, List.append_assoc, List.nil_append] at h
      obtain ⟨rfl, hs⟩ := encodeItems_append_inj l l' s s' (List.cons.inj h).2
      exact ⟨rfl, hs⟩
    | str k =>
      obtain ⟨c, t, hk, hc⟩ := encodeString_cons k
      rw [encode.eq_2, hk] at h
      obtain ⟨_, hv⟩ := isdigit_lead (v := .list l) h hc
      cases hv
    | int i => rw [encode, encode] at h; exact absurd (List.cons.inj h).1 (by decide)
    | dict d => rw [encode, encode] at h; exact absurd (List.cons.inj h).1 (by decide)
  | .dict d, w, s, s', h => by
    cases w with
    | dict d' =>
      simp only [encode, List.cons_append, List.append_assoc, List.nil_append] at h
      obtain ⟨rfl, hs⟩ := encodeEntries_append_inj d d' s s' (List.cons.inj h).2
      exact ⟨rfl, hs⟩
    | str k =>
      obtain ⟨c, t, hk, hc⟩ := encodeString_cons k
      rw [encode.eq_2, hk] at h
      obtain ⟨_, hv⟩ := isdigit_lead (v := .dict d) h hc
      cases hv
    | int i => rw [encode, encode] at h; exact absurd (List.cons.inj h).1 (by decide)
    | list l => rw [encode, encode] at h; exact absurd (List.cons.inj h).1 (by decide)

theorem encodeItems_append_inj : ∀ (l l' : List BencodeValue) (s s' : Bytes),
    encodeItems l ++ 'e'.toUInt8 :: s = encodeItems l' ++ 'e'.toUInt8 :: s' → l = l' ∧ s = s'
  | [], [], s, s', h => ⟨rfl, (List.cons.inj h).2⟩
  | [], w :: l', s, s', h => by
    rw [encodeItems, encodeItems, List.append_assoc] at h
    exact absurd h.symm encode_ne_end
  | v :: l, [], s, s', h => by
    rw [encodeItems, encodeItems, List.append_assoc] at h
    exact absurd h encode_ne_end
  | v :: l, w :: l', s, s', h => by
    rw [encodeItems, encodeItems, List.append_assoc, List.append_assoc] at h
    obtain ⟨rfl, ht⟩ := encode_append_inj v w _ _ h
    obtain ⟨rfl, hs⟩ := encodeItems_append_inj l l' s s' ht
    exact ⟨rfl, hs⟩

theorem encodeEntries_append_inj : ∀ (d d' : List (Bytes × BencodeValue)) (s s' : Bytes),
    encodeEntries d ++ 'e'.toUInt8 :: s = encodeEntries d' ++ 'e'.toUInt8 :: s' → d = d' ∧ s = s'
  | [], [], s, s', h => ⟨rfl, (List.cons.inj h).2⟩
  | [], (k, w) :: d', s, s', h => by
    rw [encodeEntries, encodeEntries, List.append_assoc] at h
    exact absurd h.symm encodeString_ne_end
  | (k, v) :: d, [], s, s', h => by
    rw [encodeEntries, encodeEntries, List.append_assoc] at h
    exact absurd h encodeString_ne_end
  | (k, v) :: d, (k', w) :: d', s, s', h => by
    simp only [encodeEntries, List.append_assoc] at h
    obtain ⟨rfl, hv⟩ := encodeString_append_inj h
    obtain ⟨rfl, ht⟩ := encode_append_inj v w _ _ hv
    obtain ⟨rfl, hs⟩ := encodeEntries_append_inj d d' s s' ht
    exact ⟨rfl, hs⟩

end

theorem encode_injective : Function.Injective encode := by
  intro v w h
  exact (encode_append_inj v w [] [] (by rw [h])).1

/-- Values are compared by their encodings. -/
instance : DecidableEq BencodeValue := fun _ _ =>
  decidable_of_iff _ ⟨fun h => encode_injective h, congrArg encode⟩

/-- **Parsing inverts encoding**: the parser reads the encoding of a value back wherever it
stands, `encode` is injective, and no encoding is a proper prefix of another. -/
theorem parse_encode_round_trip :
    (∀ (v : ValidValue) (pre suf : Bytes), (pre ++ encode v.val ++ suf).length < 2 ^ 63 →
      Parses (pre ++ encode v.val ++ suf) pre.length
        (.ok (v.val, pre.length + (encode v.val).length))) ∧
    (∀ v w : ValidValue, encode v.val = encode w.val → v = w) ∧
    (∀ v w : ValidValue, encode v.val <+: encode w.val → encode v.val = encode w.val) := by
  refine ⟨fun v pre suf h => ?_, fun v w h => ?_, fun v w h => ?_⟩
  · have hdrop : (pre ++ encode v.val ++ suf).drop pre.length = encode v.val ++ suf := by
      rw [List.append_assoc, List.drop_left]
    exact parses_encode_at h v.valid hdrop
  · exact ValidValue.ext (encode_injective h)
  · obtain ⟨t, ht⟩ := h
    have hvw := encode_append_inj v.val w.val t [] (by rw [ht, List.append_nil])
    rw [hvw.1]

/-- A dictionary with a list in it, between two other byte strings. -/
theorem parse_encode_round_trip_list :
    Parses (ascii "0:" ++ encode (.dict [(ascii "a", .list [.int (-7), .str (ascii "e:")])]) ++
        ascii "e") 2
      (.ok (.dict [(ascii "a", .list [.int (-7), .str (ascii "e:")])], 17)) := by
  have hlen : (ascii "0:" ++ encode (.dict [(ascii "a", .list [.int (-7), .str (ascii "e:")])]) ++
      ascii "e").length < 2 ^ 63 := by decide
  have hvalid : BencodeValue.Valid
      (.dict [(ascii "a", .list [.int (-7), .str (ascii "e:")])]) := by
    refine .dict (fun e he => ?_) (List.pairwise_singleton _ _)
    rw [List.mem_singleton.1 he]
    refine .list fun v hv => ?_
    rcases List.mem_pair.1 hv with rfl | rfl
    · exact .int (by norm_num) (by norm_num)
    · exact .str _
  exact parse_encode_round_trip.1 ⟨_, hvalid⟩ (ascii "0:") (ascii "e") hlen

end Gush.Bencode
