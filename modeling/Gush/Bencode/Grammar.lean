import Gush.Bencode.Advance

/-!
# The grammar of bencode

`Spells` is the grammar of the format with the value that each text denotes. The parser accepts
every text of the grammar (`parses_of_startsWith`), and more: `stoll` and `stoull` skip blanks, take
a plus sign, and leave what stands behind the digits of a token, and the length of a string is only
compared modulo `2 ^ 64`. A token that the code takes and the grammar does not is `Lax`.

`exact_iff` says that the parser is exact at a position if and only if no such token stands where
the values of the grammar lead to, or what follows makes the parser throw after all.
-/

namespace Gush.Bencode

open Cxx

/-! ### Texts and what they denote -/

/-- What a text denotes: a value, the rest of a list, the rest of a dictionary. -/
inductive Meaning
  | value (v : BencodeValue)
  | items (l : List BencodeValue)
  | entries (l : List (Bytes × BencodeValue))

/-- The kind of reading that a meaning is the result of. -/
def Meaning.mode : Meaning → Mode
  | .value _ => .value
  | .items _ => .items
  | .entries _ => .entries

/-- An optional minus sign. -/
def sign (minus : Bool) : Bytes := if minus then ['-'.toUInt8] else []

/-- The number behind a sign. -/
def signed (minus : Bool) (n : ℕ) : ℤ := if minus then -(n : ℤ) else n

/-- The map of some entries: the last of equal keys wins. -/
def assign (dict : BencodeDict) (l : List (Bytes × BencodeValue)) : BencodeDict :=
  l.foldl (fun d e => dictInsert e.1 e.2 d) dict

/-- The grammar: `i`, an integer and `e`; a length, `:` and that many bytes; `l`, values and `e`;
`d`, strings with values and `e`. -/
inductive Spells : Meaning → Bytes → Prop
  | int {minus : Bool} {ds : Bytes} (hds : Digits ds)
      (lo : -2 ^ 63 ≤ signed minus (Decimal.value ds))
      (hi : signed minus (Decimal.value ds) < 2 ^ 63) :
      Spells (.value (.int (signed minus (Decimal.value ds))))
        ('i'.toUInt8 :: (sign minus ++ ds ++ ['e'.toUInt8]))
  | str {ds s : Bytes} (hds : Digits ds) (hlen : Decimal.value ds = s.length) :
      Spells (.value (.str s)) (ds ++ ':'.toUInt8 :: s)
  | list {l : List BencodeValue} {text : Bytes} (h : Spells (.items l) text) :
      Spells (.value (.list l)) ('l'.toUInt8 :: text)
  | dict {l : List (Bytes × BencodeValue)} {text : Bytes} (h : Spells (.entries l) text) :
      Spells (.value (.dict (assign [] l))) ('d'.toUInt8 :: text)
  | itemsEnd : Spells (.items []) ['e'.toUInt8]
  | item {v : BencodeValue} {l : List BencodeValue} {text text' : Bytes}
      (hv : Spells (.value v) text) (hl : Spells (.items l) text') :
      Spells (.items (v :: l)) (text ++ text')
  | entriesEnd : Spells (.entries []) ['e'.toUInt8]
  | entry {key : Bytes} {v : BencodeValue} {l : List (Bytes × BencodeValue)}
      {text text' text'' : Bytes} (hk : Spells (.value (.str key)) text)
      (hv : Spells (.value v) text') (hl : Spells (.entries l) text'') :
      Spells (.entries ((key, v) :: l)) (text ++ (text' ++ text''))

/-- From `p` on the data start with a text of the given meaning, which ends at `q`. -/
def StartsWith (data : Bytes) (m : Meaning) (p q : ℕ) : Prop :=
  ∃ text rest, Spells m text ∧ data.drop p = text ++ rest ∧ q = p + text.length

/-- Where the values of the grammar end. -/
def ValueText (data : Bytes) (p q : ℕ) : Prop := ∃ v, StartsWith data (.value v) p q

/-! ### The first byte of a text -/

/-- A value does not start with the `e` that ends a loop; a string starts with a digit. -/
theorem Spells.lead {v : BencodeValue} {text : Bytes} (h : Spells (.value v) text) :
    ∃ c t, text = c :: t ∧ c ≠ 'e'.toUInt8 ∧ ((∃ s, v = .str s) → isdigit c = true) := by
  cases h with
  | int => exact ⟨_, _, rfl, by decide, fun ⟨s, hs⟩ => by cases hs⟩
  | str hds =>
    obtain ⟨c, t, rfl⟩ := List.exists_cons_of_ne_nil hds.1
    have hc : isdigit c = true := hds.2 c List.mem_cons_self
    exact ⟨c, _, rfl, ne_of_isdigit hc (by decide), fun _ => hc⟩
  | list => exact ⟨_, _, rfl, by decide, fun ⟨s, hs⟩ => by cases hs⟩
  | dict => exact ⟨_, _, rfl, by decide, fun ⟨s, hs⟩ => by cases hs⟩

/-- The first byte tells what kind of value it is, and what stands behind it. -/
theorem Spells.kind {v : BencodeValue} {c : UInt8} {t : Bytes} (h : Spells (.value v) (c :: t)) :
    c = 'i'.toUInt8 ∨ isdigit c = true ∨ (c = 'l'.toUInt8 ∧ ∃ l, Spells (.items l) t) ∨
      (c = 'd'.toUInt8 ∧ ∃ l, Spells (.entries l) t) := by
  obtain ⟨c', t', htext, -, hstr⟩ := h.lead
  obtain ⟨rfl, rfl⟩ := List.cons.inj htext
  cases v with
  | int i =>
    cases h with
    | int => exact .inl rfl
  | str s => exact .inr (.inl (hstr ⟨s, rfl⟩))
  | list l =>
    cases h with
    | list hl => exact .inr (.inr (.inl ⟨rfl, l, hl⟩))
  | dict d =>
    cases h with
    | dict hl => exact .inr (.inr (.inr ⟨rfl, _, hl⟩))

section

variable {data : Bytes}

theorem StartsWith.le_length {m : Meaning} {p q : ℕ} (h : StartsWith data m p q)
    (hp : p ≤ data.length) : q ≤ data.length := by
  obtain ⟨text, rest, -, hdrop, rfl⟩ := h
  have hlen := congrArg List.length hdrop
  rw [List.length_drop, List.length_append] at hlen
  omega

/-! ### Every text of the grammar is accepted -/

/-- What `stoll` makes of an integer of the grammar. -/
theorem stoll_sign_append {minus : Bool} {ds : Bytes} (hds : Digits ds) {i : ℤ} :
    stoll (sign minus ++ ds) = .ok i ↔
      i = signed minus (Decimal.value ds) ∧ -2 ^ 63 ≤ i ∧ i < 2 ^ 63 := by
  have hscan : scanNumber (sign minus ++ ds) = some (minus, Decimal.value ds) := by
    cases minus with
    | false => exact scanNumber_digits hds
    | true => exact scanNumber_minus_digits hds
  have hstoll : stoll (sign minus ++ ds) =
      if -2 ^ 63 ≤ signed minus (Decimal.value ds) ∧ signed minus (Decimal.value ds) < 2 ^ 63 then
        .ok (signed minus (Decimal.value ds))
      else .error (.outOfRange (ascii "stoll")) := by
    unfold stoll
    rw [hscan]
    rfl
  rw [hstoll]
  constructor
  · intro hi
    by_cases hrange : -2 ^ 63 ≤ signed minus (Decimal.value ds) ∧
        signed minus (Decimal.value ds) < 2 ^ 63
    · rw [if_pos hrange] at hi
      cases hi
      exact ⟨rfl, hrange⟩
    · rw [if_neg hrange] at hi
      cases hi
  · rintro ⟨rfl, hrange⟩
    exact if_pos hrange

theorem not_mem_sign_append {minus : Bool} {ds : Bytes} {c : UInt8} (hds : Digits ds)
    (hc : isdigit c = false) (hm : c ≠ '-'.toUInt8) : c ∉ sign minus ++ ds := by
  intro h
  rcases List.mem_append.1 h with h | h
  · cases minus with
    | false => exact List.not_mem_nil h
    | true => exact hm (List.mem_singleton.1 h)
  · exact ne_of_isdigit (hds.2 c h) hc rfl

theorem parses_intText {p : ℕ} {minus : Bool} {ds rest : Bytes} (hds : Digits ds)
    (lo : -2 ^ 63 ≤ signed minus (Decimal.value ds))
    (hi : signed minus (Decimal.value ds) < 2 ^ 63)
    (h : data.drop p = 'i'.toUInt8 :: (sign minus ++ ds ++ ['e'.toUInt8]) ++ rest) :
    Parses data p (.ok (.int (signed minus (Decimal.value ds)),
      p + ('i'.toUInt8 :: (sign minus ++ ds ++ ['e'.toUInt8])).length)) := by
  have hdrop : data.drop (p + 1) = (sign minus ++ ds) ++ 'e'.toUInt8 :: rest := by
    rw [← List.drop_drop, h]
    simp
  have hfind := find_of_drop hdrop (not_mem_sign_append hds (by decide) (by decide))
  have hsub : substr data (p + 1) (p + 1 + (sign minus ++ ds).length - (p + 1)) =
      sign minus ++ ds := by
    rw [Nat.add_sub_cancel_left]
    exact substr_of_drop hdrop
  have hpos : p + ('i'.toUInt8 :: (sign minus ++ ds ++ ['e'.toUInt8])).length =
      p + 1 + (sign minus ++ ds).length + 1 := by
    rw [List.length_cons, @List.length_append _ _ ['e'.toUInt8], List.length_singleton]
    omega
  rw [parses_int (getElem?_of_drop h), hpos]
  simp only [parseInt, hfind, hsub, (stoll_sign_append hds).2 ⟨rfl, lo, hi⟩]

theorem parses_strText (hd : data.length < 2 ^ 64) {p : ℕ} {ds s rest : Bytes} (hds : Digits ds)
    (hlen : Decimal.value ds = s.length) (h : data.drop p = ds ++ ':'.toUInt8 :: s ++ rest) :
    Parses data p (.ok (.str s, p + (ds ++ ':'.toUInt8 :: s).length)) := by
  have hcolon : data.drop p = ds ++ ':'.toUInt8 :: (s ++ rest) := by
    rw [h]
    simp
  have hfind := find_of_drop hcolon fun hm => ne_of_isdigit (hds.2 _ hm) (by decide) rfl
  have hbody : data.drop (p + ds.length + 1) = s ++ rest := by
    have hcut : data.drop p = (ds ++ [':'.toUInt8]) ++ (s ++ rest) := by
      rw [hcolon]
      simp
    simpa [← Nat.add_assoc] using drop_of_drop hcut
  have hfits : p + ds.length + 1 + s.length ≤ data.length := by
    have := congrArg List.length hcolon
    simp only [List.length_drop, List.length_append, List.length_cons] at this
    omega
  have hsub : substr data p (p + ds.length - p) = ds := by
    rw [Nat.add_sub_cancel_left]
    exact substr_of_drop hcolon
  have hstoull : stoull ds = .ok s.length := (stoull_digits hds).2 ⟨hlen.symm, by omega⟩
  have hadd : sizeAdd (p + ds.length + 1) s.length = p + ds.length + 1 + s.length :=
    sizeAdd_of_lt (by omega)
  obtain ⟨c, t, rfl⟩ := List.exists_cons_of_ne_nil hds.1
  rw [parses_string (getElem?_of_drop h) (hds.2 c List.mem_cons_self)]
  simp only [parseString, hfind, hsub, hstoull, hadd, substr_of_drop hbody]
  rw [if_neg (by omega)]
  congr 2
  simp only [List.length_append, List.length_cons]
  omega

/-- What the code does at a text: it returns the value, or goes on with what it has read so far. -/
def Accepts (data : Bytes) (m : Meaning) (p q : ℕ) : Prop :=
  match m with
  | .value v => Parses data p (.ok (v, q))
  | .items l => ∀ list, ListLoops data p list (.ok (.list (list ++ l), q))
  | .entries l => ∀ dict, DictLoops data p dict (.ok (.dict (assign dict l), q))

/-- **Completeness**: the parser reads every text of the grammar, wherever it stands. -/
theorem accepts_of_spells (hd : data.length < 2 ^ 64) {m : Meaning} {text : Bytes}
    (h : Spells m text) :
    ∀ {p : ℕ} {rest : Bytes}, data.drop p = text ++ rest → Accepts data m p (p + text.length) := by
  induction h with
  | int hds lo hi => exact fun hdrop => parses_intText hds lo hi hdrop
  | str hds hlen => exact fun hdrop => parses_strText hd hds hlen hdrop
  | @list l text _ ih =>
    intro p rest hdrop
    have hitems : data.drop (p + 1) = text ++ rest := by
      rw [← List.drop_drop, hdrop]
      rfl
    have hpos : p + ('l'.toUInt8 :: text).length = p + 1 + text.length := by
      rw [List.length_cons]
      omega
    show Parses data p _
    rw [parses_list (getElem?_of_drop hdrop), hpos]
    exact ih hitems []
  | @dict l text _ ih =>
    intro p rest hdrop
    have hentries : data.drop (p + 1) = text ++ rest := by
      rw [← List.drop_drop, hdrop]
      rfl
    have hpos : p + ('d'.toUInt8 :: text).length = p + 1 + text.length := by
      rw [List.length_cons]
      omega
    show Parses data p _
    rw [parses_dict (getElem?_of_drop hdrop), hpos]
    exact ih hentries []
  | itemsEnd =>
    intro p rest hdrop list
    rw [listLoops_end (getElem?_of_drop hdrop), List.append_nil]
    rfl
  | @item v l text text' hv _ ihv ihl =>
    intro p rest hdrop list
    rw [List.append_assoc] at hdrop
    obtain ⟨c, t, htext, hc, -⟩ := hv.lead
    have hlead : data[p]? = some c := getElem?_of_drop (by rw [hdrop, htext]; rfl)
    rw [listLoops_item hlead hc]
    refine .inr ⟨v, p + text.length, ihv hdrop, ?_⟩
    have hloop := ihl (drop_of_drop hdrop) (list ++ [v])
    rw [List.append_assoc, List.singleton_append] at hloop
    rwa [List.length_append, ← Nat.add_assoc]
  | entriesEnd =>
    intro p rest hdrop dict
    rw [dictLoops_end (getElem?_of_drop hdrop)]
    rfl
  | @entry key v l text text' text'' hk hv _ ihk ihv ihl =>
    intro p rest hdrop dict
    rw [List.append_assoc, List.append_assoc] at hdrop
    obtain ⟨c, t, htext, hc, -⟩ := hk.lead
    have hlead : data[p]? = some c := getElem?_of_drop (by rw [hdrop, htext]; rfl)
    have hval := drop_of_drop hdrop
    rw [dictLoops_entry hlead hc]
    refine .inr (.inr ⟨key, p + text.length, ihk hdrop, .inr ⟨v, _, ihv hval, ?_⟩⟩)
    have hloop := ihl (drop_of_drop hval) (dictInsert key v dict)
    rw [List.length_append, List.length_append, ← Nat.add_assoc, ← Nat.add_assoc]
    exact hloop

theorem accepts_of_startsWith (hd : data.length < 2 ^ 64) {m : Meaning} {p q : ℕ}
    (h : StartsWith data m p q) : Accepts data m p q := by
  obtain ⟨text, rest, hspells, hdrop, rfl⟩ := h
  exact accepts_of_spells hd hspells hdrop

theorem parses_of_startsWith (hd : data.length < 2 ^ 64) {v : BencodeValue} {p q : ℕ}
    (h : StartsWith data (.value v) p q) : Parses data p (.ok (v, q)) :=
  accepts_of_startsWith hd h

/-! ### Building and taking apart -/

theorem startsWith_list {l : List BencodeValue} {p q : ℕ} (h : data[p]? = some 'l'.toUInt8)
    (hl : StartsWith data (.items l) (p + 1) q) : StartsWith data (.value (.list l)) p q := by
  obtain ⟨text, rest, hspells, hdrop, rfl⟩ := hl
  refine ⟨_, rest, .list hspells, ?_, by rw [List.length_cons]; omega⟩
  rw [drop_of_getElem? h, hdrop]
  rfl

theorem startsWith_dict {l : List (Bytes × BencodeValue)} {p q : ℕ}
    (h : data[p]? = some 'd'.toUInt8) (hl : StartsWith data (.entries l) (p + 1) q) :
    StartsWith data (.value (.dict (assign [] l))) p q := by
  obtain ⟨text, rest, hspells, hdrop, rfl⟩ := hl
  refine ⟨_, rest, .dict hspells, ?_, by rw [List.length_cons]; omega⟩
  rw [drop_of_getElem? h, hdrop]
  rfl

theorem startsWith_itemsEnd {p : ℕ} (h : data[p]? = some 'e'.toUInt8) :
    StartsWith data (.items []) p (p + 1) :=
  ⟨_, _, .itemsEnd, drop_of_getElem? h, rfl⟩

theorem startsWith_entriesEnd {p : ℕ} (h : data[p]? = some 'e'.toUInt8) :
    StartsWith data (.entries []) p (p + 1) :=
  ⟨_, _, .entriesEnd, drop_of_getElem? h, rfl⟩

/-- Two texts one behind the other. -/
theorem drop_append {p : ℕ} {text text' rest rest' : Bytes} (h : data.drop p = text ++ rest)
    (h' : data.drop (p + text.length) = text' ++ rest') :
    data.drop p = (text ++ text') ++ rest' := by
  rw [drop_of_drop h] at h'
  rw [h, h', List.append_assoc]

theorem startsWith_item {v : BencodeValue} {l : List BencodeValue} {p p' q : ℕ}
    (hv : StartsWith data (.value v) p p') (hl : StartsWith data (.items l) p' q) :
    StartsWith data (.items (v :: l)) p q := by
  obtain ⟨text, rest, hspells, hdrop, rfl⟩ := hv
  obtain ⟨text', rest', hspells', hdrop', rfl⟩ := hl
  refine ⟨_, rest', .item hspells hspells', drop_append hdrop hdrop', ?_⟩
  rw [List.length_append, Nat.add_assoc]

theorem startsWith_entry {key : Bytes} {v : BencodeValue} {l : List (Bytes × BencodeValue)}
    {p p' p'' q : ℕ} (hk : StartsWith data (.value (.str key)) p p')
    (hv : StartsWith data (.value v) p' p'') (hl : StartsWith data (.entries l) p'' q) :
    StartsWith data (.entries ((key, v) :: l)) p q := by
  obtain ⟨text, rest, hspells, hdrop, rfl⟩ := hk
  obtain ⟨text', rest', hspells', hdrop', rfl⟩ := hv
  obtain ⟨text'', rest'', hspells'', hdrop'', rfl⟩ := hl
  have hvl : data.drop (p + text.length) = (text' ++ text'') ++ rest'' := drop_append hdrop' hdrop''
  refine ⟨_, rest'', .entry hspells hspells' hspells'', drop_append hdrop hvl, ?_⟩
  rw [List.length_append, List.length_append]
  omega

theorem exists_items {v : BencodeValue} {p q : ℕ} (h : data[p]? = some 'l'.toUInt8)
    (hv : StartsWith data (.value v) p q) : ∃ l, StartsWith data (.items l) (p + 1) q := by
  obtain ⟨text, rest, hspells, hdrop, rfl⟩ := hv
  obtain ⟨c, t, rfl, -⟩ := hspells.lead
  obtain rfl : c = 'l'.toUInt8 := Option.some.inj ((getElem?_of_drop hdrop).symm.trans h)
  rcases hspells.kind with hint | hdigit | ⟨-, l, hl⟩ | ⟨hdict, -⟩
  · exact absurd hint (by decide)
  · exact absurd hdigit (by decide)
  · refine ⟨l, t, rest, hl, ?_, by rw [List.length_cons]; omega⟩
    rw [← List.drop_drop, hdrop]
    rfl
  · exact absurd hdict (by decide)

theorem exists_entries {v : BencodeValue} {p q : ℕ} (h : data[p]? = some 'd'.toUInt8)
    (hv : StartsWith data (.value v) p q) : ∃ l, StartsWith data (.entries l) (p + 1) q := by
  obtain ⟨text, rest, hspells, hdrop, rfl⟩ := hv
  obtain ⟨c, t, rfl, -⟩ := hspells.lead
  obtain rfl : c = 'd'.toUInt8 := Option.some.inj ((getElem?_of_drop hdrop).symm.trans h)
  rcases hspells.kind with hint | hdigit | ⟨hlist, -⟩ | ⟨-, l, hl⟩
  · exact absurd hint (by decide)
  · exact absurd hdigit (by decide)
  · exact absurd hlist (by decide)
  · refine ⟨l, t, rest, hl, ?_, by rw [List.length_cons]; omega⟩
    rw [← List.drop_drop, hdrop]
    rfl

theorem exists_item {l : List BencodeValue} {p q : ℕ} (h : More data p)
    (hl : StartsWith data (.items l) p q) :
    ∃ v l' p', StartsWith data (.value v) p p' ∧ StartsWith data (.items l') p' q := by
  obtain ⟨text, rest, hspells, hdrop, rfl⟩ := hl
  cases hspells with
  | itemsEnd =>
    obtain ⟨c, hc, hce⟩ := h
    rw [getElem?_of_drop hdrop] at hc
    exact absurd (Option.some.inj hc).symm hce
  | @item v l' text text' hv hl' =>
    rw [List.append_assoc] at hdrop
    refine ⟨v, l', p + text.length, ⟨text, _, hv, hdrop, rfl⟩,
      text', rest, hl', drop_of_drop hdrop, ?_⟩
    rw [List.length_append, Nat.add_assoc]

theorem exists_entry {l : List (Bytes × BencodeValue)} {p q : ℕ} (h : More data p)
    (hl : StartsWith data (.entries l) p q) :
    ∃ key v l' p' p'', StartsWith data (.value (.str key)) p p' ∧
      StartsWith data (.value v) p' p'' ∧ StartsWith data (.entries l') p'' q := by
  obtain ⟨text, rest, hspells, hdrop, rfl⟩ := hl
  cases hspells with
  | entriesEnd =>
    obtain ⟨c, hc, hce⟩ := h
    rw [getElem?_of_drop hdrop] at hc
    exact absurd (Option.some.inj hc).symm hce
  | @entry key v l' text text' text'' hk hv hl' =>
    rw [List.append_assoc, List.append_assoc] at hdrop
    have hdrop' := drop_of_drop hdrop
    refine ⟨key, v, l', p + text.length, p + text.length + text'.length,
      ⟨text, _, hk, hdrop, rfl⟩, ⟨text', _, hv, hdrop', rfl⟩,
      text'', rest, hl', drop_of_drop hdrop', ?_⟩
    rw [List.length_append, List.length_append]
    omega

/-- The end of a value is determined. -/
theorem StartsWith.unique (hd : data.length < 2 ^ 64) {v w : BencodeValue} {p q q' : ℕ}
    (h : StartsWith data (.value v) p q) (h' : StartsWith data (.value w) p q') :
    v = w ∧ q = q' := by
  have heq := (parses_of_startsWith hd h).unique (parses_of_startsWith hd h')
  exact Prod.mk.inj (Except.ok.inj heq)

/-! ### Tokens that only the code takes -/

/-- An integer that the code reads although its text is not a sign and digits, or a string that it
reads although its length is not digits or does not fit the data. -/
inductive Lax (data : Bytes) (q : ℕ) : Prop
  | int {stop : ℕ} {i : ℤ} (h : data[q]? = some 'i'.toUInt8)
      (hstop : find data 'e'.toUInt8 (q + 1) = some stop)
      (hi : stoll (substr data (q + 1) (stop - (q + 1))) = .ok i)
      (hlax : ¬ ∃ minus ds, Digits ds ∧ substr data (q + 1) (stop - (q + 1)) = sign minus ++ ds)
  | str {colon length : ℕ} (h : Digit data q) (hcolon : find data ':'.toUInt8 q = some colon)
      (hl : stoull (substr data q (colon - q)) = .ok length)
      (hle : sizeAdd (colon + 1) length ≤ data.length)
      (hlax : ¬ (Digits (substr data q (colon - q)) ∧ colon + 1 + length ≤ data.length))

/-- An integer that is not lax is one of the grammar. -/
theorem startsWith_int {q stop : ℕ} {i : ℤ} (h : data[q]? = some 'i'.toUInt8)
    (hstop : find data 'e'.toUInt8 (q + 1) = some stop)
    (hi : stoll (substr data (q + 1) (stop - (q + 1))) = .ok i) (hlax : ¬ Lax data q) :
    StartsWith data (.value (.int i)) q (stop + 1) := by
  by_contra hnot
  refine hlax (.int h hstop hi ?_)
  rintro ⟨minus, ds, hds, htoken⟩
  have hdrop := drop_of_find hstop
  have hbounds := find_bounds hstop
  have hlen : (substr data (q + 1) (stop - (q + 1))).length = stop - (q + 1) := by
    rw [substr, List.length_take, List.length_drop]
    omega
  rw [htoken] at hi hdrop hlen
  obtain ⟨rfl, lo, hi⟩ := (stoll_sign_append hds).1 hi
  refine hnot ⟨_, data.drop (stop + 1), .int hds lo hi, ?_, ?_⟩
  · rw [drop_of_getElem? h, hdrop]
    simp
  · rw [List.length_cons, @List.length_append _ _ ['e'.toUInt8], List.length_singleton, hlen]
    omega

/-- A string that is not lax is one of the grammar. -/
theorem startsWith_str {q colon length : ℕ} (h : Digit data q)
    (hcolon : find data ':'.toUInt8 q = some colon)
    (hl : stoull (substr data q (colon - q)) = .ok length)
    (hle : sizeAdd (colon + 1) length ≤ data.length) (hlax : ¬ Lax data q) :
    StartsWith data (.value (.str (substr data (colon + 1) length))) q (colon + 1 + length) := by
  by_contra hnot
  refine hlax (.str h hcolon hl hle ?_)
  rintro ⟨hds, hfits⟩
  have hdrop := drop_of_find hcolon
  have hbounds := find_bounds hcolon
  have hlen : (substr data q (colon - q)).length = colon - q := by
    rw [substr, List.length_take, List.length_drop]
    omega
  have hvalue := ((stoull_digits hds).1 hl).1
  have hbody : (substr data (colon + 1) length).length = length := by
    rw [substr, List.length_take, List.length_drop]
    omega
  refine hnot ⟨_, data.drop (colon + 1 + length), .str hds (hvalue.symm.trans hbody.symm), ?_, ?_⟩
  · have htail := (List.take_append_drop length (data.drop (colon + 1))).symm
    rw [List.drop_drop] at htail
    rw [hdrop, List.append_assoc, List.cons_append, substr, substr, ← htail]
  · rw [List.length_append, List.length_cons, hlen, hbody]
    omega

/-- Only integers and strings are lax. -/
theorem not_lax_of_lead {p : ℕ} {c : UInt8} (h : data[p]? = some c) (hi : c ≠ 'i'.toUInt8)
    (hs : isdigit c = false) : ¬ Lax data p := by
  intro hlax
  cases hlax with
  | int hint _ _ _ => exact hi (Option.some.inj (h.symm.trans hint))
  | str hdigit _ _ _ _ =>
    obtain ⟨c', hc', hdigit⟩ := hdigit
    obtain rfl : c = c' := Option.some.inj (h.symm.trans hc')
    rw [hs] at hdigit
    cases hdigit

/-- A text of the grammar is not lax. -/
theorem not_lax_of_startsWith {v : BencodeValue} {p q : ℕ}
    (hv : StartsWith data (.value v) p q) : ¬ Lax data p := by
  obtain ⟨text, rest, hspells, hdrop, rfl⟩ := hv
  intro hlax
  cases hspells with
  | @int minus ds hds lo hi =>
    have hlead : data[p]? = some 'i'.toUInt8 := getElem?_of_drop hdrop
    cases hlax with
    | int h hstop _ hlax =>
      have htoken : data.drop (p + 1) = (sign minus ++ ds) ++ 'e'.toUInt8 :: rest := by
        rw [← List.drop_drop, hdrop]
        simp
      rw [find_of_drop htoken (not_mem_sign_append hds (by decide) (by decide))] at hstop
      cases hstop
      refine hlax ⟨minus, ds, hds, ?_⟩
      rw [Nat.add_sub_cancel_left]
      exact substr_of_drop htoken
    | str h _ _ _ _ =>
      obtain ⟨c, hc, hdigit⟩ := h
      rw [hlead] at hc
      cases hc
      exact absurd hdigit (by decide)
  | @str ds s hds hlen =>
    obtain ⟨c, t, rfl⟩ := List.exists_cons_of_ne_nil hds.1
    have hc : isdigit c = true := hds.2 c List.mem_cons_self
    have hlead : data[p]? = some c := getElem?_of_drop hdrop
    cases hlax with
    | int h _ _ _ =>
      rw [hlead] at h
      exact absurd (Option.some.inj h) (ne_of_isdigit hc (by decide))
    | str h hcolon hl _ hlax =>
      have htoken : data.drop p = (c :: t) ++ ':'.toUInt8 :: (s ++ rest) := by
        rw [hdrop]
        simp
      rw [find_of_drop htoken fun hm => ne_of_isdigit (hds.2 _ hm) (by decide) rfl] at hcolon
      cases hcolon
      have hsub : substr data p (p + (c :: t).length - p) = c :: t := by
        rw [Nat.add_sub_cancel_left]
        exact substr_of_drop htoken
      rw [hsub] at hl hlax
      have hfits := congrArg List.length htoken
      simp only [List.length_drop, List.length_append, List.length_cons] at hfits
      obtain ⟨rfl, -⟩ := (stoull_digits hds).1 hl
      refine hlax ⟨hds, ?_⟩
      rw [List.length_cons]
      omega
  | list _ => exact not_lax_of_lead (getElem?_of_drop hdrop) (by decide) (by decide) hlax
  | dict _ => exact not_lax_of_lead (getElem?_of_drop hdrop) (by decide) (by decide) hlax

/-! ### Where no token is lax -/

/-- No position that the values of the grammar lead to holds a lax token. -/
def NoLax (data : Bytes) (m : Mode) (p : ℕ) : Prop :=
  ∀ q, Visits data (ValueText data) m p q → ¬ Lax data q

/-- At a digit the grammar has a string. -/
theorem str_of_startsWith (hd : data.length < 2 ^ 64) {v : BencodeValue} {p q : ℕ}
    (hdigit : Digit data p) (h : StartsWith data (.value v) p q) : ∃ key, v = .str key :=
  str_of_digit hdigit (parses_of_startsWith hd h)

/-- Without lax tokens, a span is a text of the grammar. -/
theorem startsWith_of_span (hd : data.length < 2 ^ 64) {m : Mode} {p q : ℕ}
    (h : Span data m p q) (hlax : NoLax data m p) :
    match m with
    | .value => ValueText data p q
    | .items => ∃ l, StartsWith data (.items l) p q
    | .entries => ∃ l, StartsWith data (.entries l) p q := by
  induction h with
  | int h hstop hi => exact ⟨_, startsWith_int h hstop hi (hlax _ (.self _))⟩
  | @str p colon length h hcolon hl hlt hle =>
    have hfits := startsWith_str h hcolon hl hle (hlax _ (.self _))
    have hp := (find_bounds hcolon).1
    have hbound := hfits.le_length (by have := (find_bounds hcolon).2; omega)
    show ValueText data p (sizeAdd (colon + 1) length)
    rw [sizeAdd_of_lt (by omega)]
    exact ⟨_, hfits⟩
  | list h _ ih =>
    obtain ⟨l, hl⟩ := ih fun q hq => hlax q (.list h hq)
    exact ⟨_, startsWith_list h hl⟩
  | dict h _ ih =>
    obtain ⟨l, hl⟩ := ih fun q hq => hlax q (.dict h hq)
    exact ⟨_, startsWith_dict h hl⟩
  | itemsEnd h => exact ⟨[], startsWith_itemsEnd h⟩
  | item h _ _ ihp ihq =>
    obtain ⟨v, hv⟩ := ihp fun q hq => hlax q (.item h hq)
    obtain ⟨l, hl⟩ := ihq fun q hq => hlax q (.items h ⟨v, hv⟩ hq)
    exact ⟨v :: l, startsWith_item hv hl⟩
  | entriesEnd h => exact ⟨[], startsWith_entriesEnd h⟩
  | entry h _ _ _ ihp ihp' ihq =>
    obtain ⟨k, hk⟩ := ihp fun q hq => hlax q (.key (more_of_digit h) hq)
    obtain ⟨key, rfl⟩ := str_of_startsWith hd h hk
    obtain ⟨v, hv⟩ := ihp' fun q hq => hlax q (.val h ⟨_, hk⟩ hq)
    obtain ⟨l, hl⟩ := ihq fun q hq => hlax q (.entries h ⟨_, hk⟩ ⟨v, hv⟩ hq)
    exact ⟨(key, v) :: l, startsWith_entry hk hv hl⟩

/-- Without lax tokens, the spans lead to the same positions as the grammar. -/
theorem visits_of_span (hd : data.length < 2 ^ 64) {m : Mode} {p q : ℕ}
    (h : Visits data (Span data .value) m p q) (hlax : NoLax data m p) :
    Visits data (ValueText data) m p q := by
  induction h with
  | self p => exact .self p
  | list h _ ih => exact .list h (ih fun q hq => hlax q (.list h hq))
  | dict h _ ih => exact .dict h (ih fun q hq => hlax q (.dict h hq))
  | item h _ ih => exact .item h (ih fun q hq => hlax q (.item h hq))
  | items h hs _ ih =>
    have hp := startsWith_of_span hd hs fun q hq => hlax q (.item h hq)
    exact .items h hp (ih fun q hq => hlax q (.items h hp hq))
  | key h _ ih => exact .key h (ih fun q hq => hlax q (.key h hq))
  | val h hs _ ih =>
    have hp := startsWith_of_span hd hs fun q hq => hlax q (.key (more_of_digit h) hq)
    exact .val h hp (ih fun q hq => hlax q (.val h hp hq))
  | entries h hs hs' _ ih =>
    have hp := startsWith_of_span hd hs fun q hq => hlax q (.key (more_of_digit h) hq)
    have hp' := startsWith_of_span hd hs' fun q hq => hlax q (.val h hp hq)
    exact .entries h hp hp' (ih fun q hq => hlax q (.entries h hp hp' hq))

/-- A string that wraps back is lax. -/
theorem lax_of_wrapsBack {q : ℕ} (hd : data.length < 2 ^ 64) (h : WrapsBack data q) :
    Lax data q := by
  obtain ⟨hdigit, colon, length, hcolon, hl, hlo, hhi⟩ := h
  have hbounds := find_bounds hcolon
  have hlen := stoull_lt hl
  refine .str hdigit hcolon hl ?_ fun hfits => by omega
  unfold sizeAdd
  omega

/-- **Soundness** away from lax tokens: the parse ends, and what it returns is denoted by the text
it has read. -/
theorem sound_of_noLax (hd : data.length < 2 ^ 64) {p : ℕ} (h : NoLax data .value p) :
    (∃ r, Parses data p r) ∧
      ∀ v q, Parses data p (.ok (v, q)) → StartsWith data (.value v) p q := by
  have hwrap : NoWrap data .value p := fun q hq hback =>
    h q (visits_of_span hd hq h) (lax_of_wrapsBack hd hback)
  obtain ⟨hends, hspan⟩ := valueEnds_of_noWrap hd hwrap
  refine ⟨hends, fun v q hv => ?_⟩
  obtain ⟨w, hw⟩ := startsWith_of_span hd (hspan v q hv) h
  have heq := hv.unique (parses_of_startsWith hd hw)
  cases heq
  exact hw

/-- A position that the values of a text lead to holds no lax token. -/
theorem not_lax_of_visits (hd : data.length < 2 ^ 64) {m : Mode} {p q : ℕ}
    (h : Visits data (ValueText data) m p q) :
    ∀ {μ : Meaning} {stop : ℕ}, μ.mode = m → StartsWith data μ p stop → ¬ Lax data q := by
  induction h with
  | self p =>
    rintro (v | l | l) stop hμ htext
    · exact not_lax_of_startsWith htext
    · cases hμ
    · cases hμ
  | list h _ ih =>
    rintro (v | l | l) stop hμ htext
    · obtain ⟨l, hl⟩ := exists_items h htext
      exact ih rfl hl
    · cases hμ
    · cases hμ
  | dict h _ ih =>
    rintro (v | l | l) stop hμ htext
    · obtain ⟨l, hl⟩ := exists_entries h htext
      exact ih rfl hl
    · cases hμ
    · cases hμ
  | item h _ ih =>
    rintro (v | l | l) stop hμ htext
    · cases hμ
    · obtain ⟨v, l', p', hv, -⟩ := exists_item h htext
      exact ih rfl hv
    · cases hμ
  | items h hp _ ih =>
    rintro (v | l | l) stop hμ htext
    · cases hμ
    · obtain ⟨v, l', p', hv, hl⟩ := exists_item h htext
      obtain ⟨w, hw⟩ := hp
      obtain ⟨rfl, rfl⟩ := hv.unique hd hw
      exact ih rfl hl
    · cases hμ
  | key h _ ih =>
    rintro (v | l | l) stop hμ htext
    · cases hμ
    · cases hμ
    · obtain ⟨key, v, l', p', p'', hk, -⟩ := exists_entry h htext
      exact ih rfl hk
  | val h hp _ ih =>
    rintro (v | l | l) stop hμ htext
    · cases hμ
    · cases hμ
    · obtain ⟨key, v, l', p', p'', hk, hv, -⟩ := exists_entry (more_of_digit h) htext
      obtain ⟨w, hw⟩ := hp
      obtain ⟨rfl, rfl⟩ := hk.unique hd hw
      exact ih rfl hv
  | entries h hp hp' _ ih =>
    rintro (v | l | l) stop hμ htext
    · cases hμ
    · cases hμ
    · obtain ⟨key, v, l', p', p'', hk, hv, hl⟩ := exists_entry (more_of_digit h) htext
      obtain ⟨w, hw⟩ := hp
      obtain ⟨rfl, rfl⟩ := hk.unique hd hw
      obtain ⟨w', hw'⟩ := hp'
      obtain ⟨rfl, rfl⟩ := hv.unique hd hw'
      exact ih rfl hl

/-! ### What the code makes of any data -/

/-- `Reads data m p q`: with the tokens as the code takes them, what is read from `p` in mode `m`
ends at `q`. -/
inductive Reads (data : Bytes) : Mode → ℕ → ℕ → Prop
  | int {p stop : ℕ} {i : ℤ} (h : data[p]? = some 'i'.toUInt8)
      (hstop : find data 'e'.toUInt8 (p + 1) = some stop)
      (hi : stoll (substr data (p + 1) (stop - (p + 1))) = .ok i) : Reads data .value p (stop + 1)
  | str {p colon length : ℕ} (h : Digit data p) (hcolon : find data ':'.toUInt8 p = some colon)
      (hl : stoull (substr data p (colon - p)) = .ok length)
      (hle : sizeAdd (colon + 1) length ≤ data.length) :
      Reads data .value p (sizeAdd (colon + 1) length)
  | list {p q : ℕ} (h : data[p]? = some 'l'.toUInt8) (hq : Reads data .items (p + 1) q) :
      Reads data .value p q
  | dict {p q : ℕ} (h : data[p]? = some 'd'.toUInt8) (hq : Reads data .entries (p + 1) q) :
      Reads data .value p q
  | itemsEnd {p : ℕ} (h : data[p]? = some 'e'.toUInt8) : Reads data .items p (p + 1)
  | item {p p' q : ℕ} (h : More data p) (hp : Reads data .value p p')
      (hq : Reads data .items p' q) : Reads data .items p q
  | entriesEnd {p : ℕ} (h : data[p]? = some 'e'.toUInt8) : Reads data .entries p (p + 1)
  | entry {p p' p'' q : ℕ} (h : Digit data p) (hp : Reads data .value p p')
      (hp' : Reads data .value p' p'') (hq : Reads data .entries p'' q) : Reads data .entries p q

/-- `Breaks data m p`: with the tokens as the code takes them, reading from `p` in mode `m` comes
to an error: the end of the data, a token without its end or its number, a string that does not
fit, a byte that starts no value, or a key that is no string. -/
inductive Breaks (data : Bytes) : Mode → ℕ → Prop
  | ended {m : Mode} {p : ℕ} (h : data[p]? = none) : Breaks data m p
  | int {p : ℕ} (h : data[p]? = some 'i'.toUInt8)
      (hbad : ∀ stop, find data 'e'.toUInt8 (p + 1) = some stop →
        ∀ i, stoll (substr data (p + 1) (stop - (p + 1))) ≠ .ok i) : Breaks data .value p
  | str {p : ℕ} (h : Digit data p)
      (hbad : ∀ colon, find data ':'.toUInt8 p = some colon →
        ∀ length, stoull (substr data p (colon - p)) = .ok length →
          data.length < sizeAdd (colon + 1) length) : Breaks data .value p
  | other {p : ℕ} {c : UInt8} (h : data[p]? = some c) (hi : c ≠ 'i'.toUInt8)
      (hs : isdigit c = false) (hl : c ≠ 'l'.toUInt8) (hd : c ≠ 'd'.toUInt8) : Breaks data .value p
  | list {p : ℕ} (h : data[p]? = some 'l'.toUInt8) (hq : Breaks data .items (p + 1)) :
      Breaks data .value p
  | dict {p : ℕ} (h : data[p]? = some 'd'.toUInt8) (hq : Breaks data .entries (p + 1)) :
      Breaks data .value p
  | item {p : ℕ} (h : More data p) (hp : Breaks data .value p) : Breaks data .items p
  | items {p p' : ℕ} (h : More data p) (hp : Reads data .value p p') (hq : Breaks data .items p') :
      Breaks data .items p
  | key {p : ℕ} (h : More data p) (hp : Breaks data .value p) : Breaks data .entries p
  | notKey {p p' : ℕ} (h : More data p) (hs : ¬ Digit data p) (hp : Reads data .value p p') :
      Breaks data .entries p
  | val {p p' : ℕ} (h : Digit data p) (hp : Reads data .value p p') (hq : Breaks data .value p') :
      Breaks data .entries p
  | entries {p p' p'' : ℕ} (h : Digit data p) (hp : Reads data .value p p')
      (hp' : Reads data .value p' p'') (hq : Breaks data .entries p'') : Breaks data .entries p

/-- Where a reading in mode `m` from `p` with the outcome `r` has led to. -/
def LeadsTo (data : Bytes) (m : Mode) (p : ℕ) : Outcome → Prop
  | .ok (_, q) => Reads data m p q
  | .error _ => Breaks data m p

theorem leadsTo_int {p : ℕ} (h : data[p]? = some 'i'.toUInt8) :
    LeadsTo data .value p (parseInt data p) := by
  unfold parseInt
  cases hstop : find data 'e'.toUInt8 (p + 1) with
  | none => exact .int h fun stop hs => by rw [hstop] at hs; cases hs
  | some stop =>
    dsimp only
    cases hi : stoll (substr data (p + 1) (stop - (p + 1))) with
    | error e =>
      refine Breaks.int h fun stop' hs i hok => ?_
      rw [hstop] at hs
      cases hs
      rw [hi] at hok
      cases hok
    | ok i => exact Reads.int h hstop hi

theorem leadsTo_string {p : ℕ} (h : Digit data p) :
    LeadsTo data .value p (parseString data p) := by
  unfold parseString
  cases hcolon : find data ':'.toUInt8 p with
  | none => exact .str h fun colon hc => by rw [hcolon] at hc; cases hc
  | some colon =>
    dsimp only
    cases hl : stoull (substr data p (colon - p)) with
    | error e =>
      refine Breaks.str h fun colon' hc length hok => ?_
      rw [hcolon] at hc
      cases hc
      rw [hl] at hok
      cases hok
    | ok length =>
      dsimp only
      by_cases hgt : sizeAdd (colon + 1) length > data.length
      · rw [if_pos hgt]
        refine Breaks.str h fun colon' hc length' hok => ?_
        rw [hcolon] at hc
        cases hc
        rw [hl] at hok
        cases hok
        exact hgt
      · rw [if_neg hgt]
        exact Reads.str h hcolon hl (not_lt.1 hgt)

section

variable {fuel : ℕ}
  (ihp : ∀ p r, parseImpl fuel data p = some r → LeadsTo data .value p r)
  (ihl : ∀ p list r, listLoop fuel data p list = some r → LeadsTo data .items p r)
  (ihd : ∀ p dict r, dictLoop fuel data p dict = some r → LeadsTo data .entries p r)

include ihl ihd in
theorem leadsTo_parseImpl {p : ℕ} {r : Outcome} (h : parseImpl (fuel + 1) data p = some r) :
    LeadsTo data .value p r := by
  rw [parseImpl] at h
  split at h
  · rename_i hc
    cases h
    exact .ended hc
  · rename_i c hc
    split_ifs at h with hi hs hl hd
    · cases h
      exact leadsTo_int (hi ▸ hc)
    · cases h
      exact leadsTo_string ⟨c, hc, hs⟩
    · have hitems := ihl _ _ _ h
      rcases r with e | ⟨v, q⟩
      · exact Breaks.list (hl ▸ hc) hitems
      · exact Reads.list (hl ▸ hc) hitems
    · have hentries := ihd _ _ _ h
      rcases r with e | ⟨v, q⟩
      · exact Breaks.dict (hd ▸ hc) hentries
      · exact Reads.dict (hd ▸ hc) hentries
    · cases h
      exact Breaks.other hc hi (by simpa using hs) hl hd

include ihp ihl in
theorem leadsTo_listLoop {p : ℕ} {list : List BencodeValue} {r : Outcome}
    (h : listLoop (fuel + 1) data p list = some r) : LeadsTo data .items p r := by
  rw [listLoop] at h
  split at h
  · rename_i hc
    cases h
    exact .ended hc
  · rename_i c hc
    split_ifs at h with he
    · cases h
      exact Reads.itemsEnd (he ▸ hc)
    · split at h
      · cases h
      · rename_i e hv
        cases h
        exact Breaks.item ⟨c, hc, he⟩ (ihp _ _ hv)
      · rename_i v p' hv
        have hitems := ihl _ _ _ h
        rcases r with e | ⟨w, q⟩
        · exact Breaks.items ⟨c, hc, he⟩ (ihp _ _ hv) hitems
        · exact Reads.item ⟨c, hc, he⟩ (ihp _ _ hv) hitems

include ihp ihd in
theorem leadsTo_dictLoop {p : ℕ} {dict : BencodeDict} {r : Outcome}
    (h : dictLoop (fuel + 1) data p dict = some r) : LeadsTo data .entries p r := by
  rw [dictLoop] at h
  split at h
  · rename_i hc
    cases h
    exact .ended hc
  · rename_i c hc
    split_ifs at h with he
    · cases h
      exact Reads.entriesEnd (he ▸ hc)
    · split at h
      · cases h
      · rename_i e hk
        cases h
        exact Breaks.key ⟨c, hc, he⟩ (ihp _ _ hk)
      · rename_i key p' hk
        have hdigit := digit_of_parses_str ⟨fuel, hk⟩
        split at h
        · cases h
        · rename_i e hv
          cases h
          exact Breaks.val hdigit (ihp _ _ hk) (ihp _ _ hv)
        · rename_i v p'' hv
          have hentries := ihd _ _ _ h
          rcases r with e | ⟨w, q⟩
          · exact Breaks.entries hdigit (ihp _ _ hk) (ihp _ _ hv) hentries
          · exact Reads.entry hdigit (ihp _ _ hk) (ihp _ _ hv) hentries
      -- a key that is no string does not start with a digit
      · rename_i x hns hx
        cases h
        obtain ⟨v, p'⟩ := x
        refine Breaks.notKey ⟨c, hc, he⟩ (fun hdigit => ?_) (ihp _ _ hx)
        obtain ⟨key, rfl⟩ := str_of_digit hdigit ⟨fuel, hx⟩
        exact hns key p' rfl

end

/-- Every outcome of the code is explained by the bytes. -/
theorem leadsTo_of_fuel (data : Bytes) (fuel : ℕ) :
    (∀ p r, parseImpl fuel data p = some r → LeadsTo data .value p r) ∧
    (∀ p list r, listLoop fuel data p list = some r → LeadsTo data .items p r) ∧
    (∀ p dict r, dictLoop fuel data p dict = some r → LeadsTo data .entries p r) := by
  induction fuel with
  | zero =>
    refine ⟨fun p r h => ?_, fun p list r h => ?_, fun p dict r h => ?_⟩
    · simp [parseImpl] at h
    · simp [listLoop] at h
    · simp [dictLoop] at h
  | succ fuel ih =>
    obtain ⟨ihp, ihl, ihd⟩ := ih
    exact ⟨fun p r h => leadsTo_parseImpl ihl ihd h, fun p list r h => leadsTo_listLoop ihp ihl h,
      fun p dict r h => leadsTo_dictLoop ihp ihd h⟩

/-- The code returns at the end of every reading. -/
theorem returns_of_reads {m : Mode} {p q : ℕ} (h : Reads data m p q) :
    match m with
    | .value => Returns data p q
    | .items => ∀ list, ∃ v, ListLoops data p list (.ok (v, q))
    | .entries => ∀ dict, ∃ v, DictLoops data p dict (.ok (v, q)) := by
  induction h with
  | int h hstop hi => exact returns_int h hstop hi
  | str h hcolon hl hle => exact returns_str h hcolon hl hle
  | list h _ ih => exact returns_list h ih
  | dict h _ ih => exact returns_dict h ih
  | itemsEnd h => exact fun list => ⟨_, (listLoops_end h).2 rfl⟩
  | item h _ _ ihp ihq => exact listLoops_more h ihp ihq
  | entriesEnd h => exact fun dict => ⟨_, (dictLoops_end h).2 rfl⟩
  | entry h _ _ _ ihp ihp' ihq => exact dictLoops_more h ihp ihp' ihq

/-- An integer without an end or without a number. -/
theorem parseInt_error {p : ℕ} (hbad : ∀ stop, find data 'e'.toUInt8 (p + 1) = some stop →
    ∀ i, stoll (substr data (p + 1) (stop - (p + 1))) ≠ .ok i) :
    ∃ e, parseInt data p = .error e := by
  cases hr : parseInt data p with
  | error e => exact ⟨e, rfl⟩
  | ok x =>
    unfold parseInt at hr
    split at hr
    · cases hr
    · rename_i stop hstop
      split at hr
      · cases hr
      · rename_i i hi
        exact absurd hi (hbad stop hstop i)

/-- A string without a colon or a length, or one that does not fit. -/
theorem parseString_error {p : ℕ} (hbad : ∀ colon, find data ':'.toUInt8 p = some colon →
    ∀ length, stoull (substr data p (colon - p)) = .ok length →
      data.length < sizeAdd (colon + 1) length) :
    ∃ e, parseString data p = .error e := by
  cases hr : parseString data p with
  | error e => exact ⟨e, rfl⟩
  | ok x =>
    obtain ⟨v, q⟩ := x
    obtain ⟨-, colon, length, hcolon, hl, rfl, hle⟩ := parseString_ok hr
    exact absurd hle (not_le.2 (hbad colon hcolon length hl))

/-- The code throws where a reading comes to an error. -/
theorem throws_of_breaks {m : Mode} {p : ℕ} (h : Breaks data m p) :
    match m with
    | .value => ∃ e, Parses data p (.error e)
    | .items => ∀ list, ∃ e, ListLoops data p list (.error e)
    | .entries => ∀ dict, ∃ e, DictLoops data p dict (.error e) := by
  induction h with
  | @ended m p h =>
    cases m with
    | value => exact ⟨_, (parses_end h).2 rfl⟩
    | items => exact fun list => ⟨_, (listLoops_unterminated h).2 rfl⟩
    | entries => exact fun dict => ⟨_, (dictLoops_unterminated h).2 rfl⟩
  | int h hbad =>
    obtain ⟨e, he⟩ := parseInt_error hbad
    exact ⟨e, (parses_int h).2 he.symm⟩
  | str h hbad =>
    obtain ⟨c, hc, hs⟩ := h
    obtain ⟨e, he⟩ := parseString_error hbad
    exact ⟨e, (parses_string hc hs).2 he.symm⟩
  | other h hi hs hl hd => exact ⟨_, (parses_invalid h hi hs hl hd).2 rfl⟩
  | list h _ ih =>
    obtain ⟨e, he⟩ := ih []
    exact ⟨e, (parses_list h).2 he⟩
  | dict h _ ih =>
    obtain ⟨e, he⟩ := ih []
    exact ⟨e, (parses_dict h).2 he⟩
  | item h _ ih =>
    intro list
    obtain ⟨c, hc, hce⟩ := h
    obtain ⟨e, he⟩ := ih
    exact ⟨e, (listLoops_item hc hce).2 (.inl ⟨e, he, rfl⟩)⟩
  | items h hp _ ih =>
    intro list
    obtain ⟨c, hc, hce⟩ := h
    obtain ⟨v, hv⟩ := returns_of_reads hp
    obtain ⟨e, he⟩ := ih (list ++ [v])
    exact ⟨e, (listLoops_item hc hce).2 (.inr ⟨v, _, hv, he⟩)⟩
  | key h _ ih =>
    intro dict
    obtain ⟨c, hc, hce⟩ := h
    obtain ⟨e, he⟩ := ih
    exact ⟨e, (dictLoops_entry hc hce).2 (.inl ⟨e, he, rfl⟩)⟩
  | notKey h hs hp =>
    intro dict
    obtain ⟨c, hc, hce⟩ := h
    obtain ⟨v, hv⟩ := returns_of_reads hp
    refine ⟨_, (dictLoops_entry hc hce).2 (.inr (.inl ⟨v, _, hv, fun key hkey => ?_, rfl⟩))⟩
    subst hkey
    exact hs (digit_of_parses_str hv)
  | val h hp _ ih =>
    intro dict
    obtain ⟨c, hc, hce⟩ := more_of_digit h
    obtain ⟨k, hk⟩ := returns_of_reads hp
    obtain ⟨key, rfl⟩ := str_of_digit h hk
    obtain ⟨e, he⟩ := ih
    exact ⟨e, (dictLoops_entry hc hce).2 (.inr (.inr ⟨key, _, hk, .inl ⟨e, he, rfl⟩⟩))⟩
  | entries h hp hp' _ ih =>
    intro dict
    obtain ⟨c, hc, hce⟩ := more_of_digit h
    obtain ⟨k, hk⟩ := returns_of_reads hp
    obtain ⟨key, rfl⟩ := str_of_digit h hk
    obtain ⟨v, hv⟩ := returns_of_reads hp'
    obtain ⟨e, he⟩ := ih (dictInsert key v dict)
    exact ⟨e, (dictLoops_entry hc hce).2 (.inr (.inr ⟨key, _, hk, .inr ⟨v, _, hv, he⟩⟩))⟩

/-- The code throws exactly where a reading comes to an error. -/
theorem throws_iff_breaks {p : ℕ} : (∃ e, Parses data p (.error e)) ↔ Breaks data .value p := by
  constructor
  · rintro ⟨e, fuel, he⟩
    exact (leadsTo_of_fuel data fuel).1 p _ he
  · exact fun h => throws_of_breaks h

/-! ### Exactness -/

/-- The parser accepts exactly the grammar at a position: it returns just the values and ends of
the texts there, and throws if there is none. -/
structure Exact (data : Bytes) (pos : ℕ) : Prop where
  returns : ∀ v q, Parses data pos (.ok (v, q)) ↔ StartsWith data (.value v) pos q
  throws : (¬ ∃ v q, StartsWith data (.value v) pos q) → ∃ e, Parses data pos (.error e)

/-- **The accepted language, exactly**: at a position the parser accepts exactly the grammar if and
only if none of the positions that the values of the grammar lead to holds a lax token, or the data
with such tokens bring the reading to an error all the same. -/
theorem exact_iff {pos : ℕ} (hd : data.length < 2 ^ 64) :
    Exact data pos ↔
      (∀ q, Visits data (ValueText data) .value pos q → ¬ Lax data q) ∨
        Breaks data .value pos := by
  constructor
  · intro h
    by_cases hlax : ∀ q, Visits data (ValueText data) .value pos q → ¬ Lax data q
    · exact .inl hlax
    · refine .inr (throws_iff_breaks.1 (h.throws ?_))
      rintro ⟨v, q, htext⟩
      exact hlax fun q' hq' => not_lax_of_visits hd hq' rfl htext
  · rintro (hlax | hbreaks)
    · obtain ⟨⟨r, hr⟩, hsound⟩ := sound_of_noLax hd hlax
      refine ⟨fun v q => ⟨hsound v q, parses_of_startsWith hd⟩, fun hnone => ?_⟩
      rcases r with e | ⟨v, q⟩
      · exact ⟨e, hr⟩
      · exact absurd ⟨v, q, hsound v q hr⟩ hnone
    · obtain ⟨e, he⟩ := throws_iff_breaks.2 hbreaks
      refine ⟨fun v q => ⟨fun hv => ?_, parses_of_startsWith hd⟩, fun _ => ⟨e, he⟩⟩
      cases he.unique hv

/-- `exact_iff` on a string. -/
theorem exact_iff_spam :
    Exact (ascii "4:spam") 0 ↔
      (∀ q, Visits (ascii "4:spam") (ValueText (ascii "4:spam")) .value 0 q →
        ¬ Lax (ascii "4:spam") q) ∨ Breaks (ascii "4:spam") .value 0 :=
  exact_iff (by decide)

end

/-! ### An integer with a letter in it -/

/-- An integer whose text is `4x`. -/
def letterInt : Bytes := ascii "i4xe"

theorem parses_letterInt : Parses letterInt 0 (.ok (.int 4, 4)) := ⟨1, rfl⟩

theorem lax_letterInt : Lax letterInt 0 := by
  refine Lax.int (show letterInt[0]? = some 'i'.toUInt8 from rfl)
    (show find letterInt 'e'.toUInt8 1 = some 3 from rfl)
    (show stoll (substr letterInt 1 (3 - 1)) = .ok 4 from rfl) ?_
  rintro ⟨minus, ds, hds, htoken⟩
  have hx : 'x'.toUInt8 ∈ sign minus ++ ds := by
    rw [← htoken]
    decide
  exact not_mem_sign_append hds (by decide) (by decide) hx

/-- The parser does not accept exactly the grammar. -/
theorem not_forall_exact :
    ¬ ∀ (data : Bytes) (pos : ℕ), data.length < 2 ^ 64 → Exact data pos := by
  intro h
  have hexact := h letterInt 0 (by decide)
  exact not_lax_of_startsWith ((hexact.returns _ _).1 parses_letterInt) lax_letterInt

end Gush.Bencode
