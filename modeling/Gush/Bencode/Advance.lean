import Gush.Bencode.Parse

/-!
# Termination and strict advance

The bound check of the string case, `pos + length > data.size()`, is a `size_t` sum: a length
close to `2 ^ 64` wraps around, passes the check and moves the position backwards. Then the loop
of a list or a dictionary can come back to where it was.

`Visits` are the positions at which the code starts to read a value, given where values end;
`Span` says, on the bytes alone, where the values of the format end. `WrapsBack` is a string whose
length prefix takes the position back to the start of the string or before it.
`strictAdvance_iff`: a parse terminates and advances in every value it reads exactly if none of
the positions it comes to holds such a string.
-/

namespace Gush.Bencode

open Cxx

/-- What is read from a position on: a value, the rest of a list, the rest of a dictionary. -/
inductive Mode
  | value
  | items
  | entries

/-- The condition of both loops: the data go on with something other than `e`. -/
def More (data : Bytes) (pos : ℕ) : Prop := ∃ c, data[pos]? = some c ∧ c ≠ 'e'.toUInt8

/-- A digit, the first byte of a string. -/
def Digit (data : Bytes) (pos : ℕ) : Prop := ∃ c, data[pos]? = some c ∧ isdigit c = true

/-- `Visits data ends m p q`: reading from `p` in mode `m`, the code starts to read a value at
`q`, when `ends` says where the values it reads end. -/
inductive Visits (data : Bytes) (ends : ℕ → ℕ → Prop) : Mode → ℕ → ℕ → Prop
  | self (p : ℕ) : Visits data ends .value p p
  | list {p q : ℕ} (h : data[p]? = some 'l'.toUInt8) (hq : Visits data ends .items (p + 1) q) :
      Visits data ends .value p q
  | dict {p q : ℕ} (h : data[p]? = some 'd'.toUInt8) (hq : Visits data ends .entries (p + 1) q) :
      Visits data ends .value p q
  | item {p q : ℕ} (h : More data p) (hq : Visits data ends .value p q) :
      Visits data ends .items p q
  | items {p p' q : ℕ} (h : More data p) (hp : ends p p') (hq : Visits data ends .items p' q) :
      Visits data ends .items p q
  | key {p q : ℕ} (h : More data p) (hq : Visits data ends .value p q) :
      Visits data ends .entries p q
  | val {p p' q : ℕ} (h : Digit data p) (hp : ends p p') (hq : Visits data ends .value p' q) :
      Visits data ends .entries p q
  | entries {p p' p'' q : ℕ} (h : Digit data p) (hp : ends p p') (hp' : ends p' p'')
      (hq : Visits data ends .entries p'' q) : Visits data ends .entries p q

/-- `Span data m p q`: what is read from `p` in mode `m` ends at `q`, for values that end behind
their start. -/
inductive Span (data : Bytes) : Mode → ℕ → ℕ → Prop
  | int {p stop : ℕ} {i : ℤ} (h : data[p]? = some 'i'.toUInt8)
      (hstop : find data 'e'.toUInt8 (p + 1) = some stop)
      (hi : stoll (substr data (p + 1) (stop - (p + 1))) = .ok i) : Span data .value p (stop + 1)
  | str {p colon length : ℕ} (h : Digit data p) (hcolon : find data ':'.toUInt8 p = some colon)
      (hl : stoull (substr data p (colon - p)) = .ok length)
      (hlt : p < sizeAdd (colon + 1) length) (hle : sizeAdd (colon + 1) length ≤ data.length) :
      Span data .value p (sizeAdd (colon + 1) length)
  | list {p q : ℕ} (h : data[p]? = some 'l'.toUInt8) (hq : Span data .items (p + 1) q) :
      Span data .value p q
  | dict {p q : ℕ} (h : data[p]? = some 'd'.toUInt8) (hq : Span data .entries (p + 1) q) :
      Span data .value p q
  | itemsEnd {p : ℕ} (h : data[p]? = some 'e'.toUInt8) : Span data .items p (p + 1)
  | item {p p' q : ℕ} (h : More data p) (hp : Span data .value p p')
      (hq : Span data .items p' q) : Span data .items p q
  | entriesEnd {p : ℕ} (h : data[p]? = some 'e'.toUInt8) : Span data .entries p (p + 1)
  | entry {p p' p'' q : ℕ} (h : Digit data p) (hp : Span data .value p p')
      (hp' : Span data .value p' p'') (hq : Span data .entries p'' q) : Span data .entries p q

/-- A string at `q` whose length, added to the position behind the colon, passes `2 ^ 64` and
lands at `q` or before it. -/
def WrapsBack (data : Bytes) (q : ℕ) : Prop :=
  Digit data q ∧ ∃ colon length, find data ':'.toUInt8 q = some colon ∧
    stoull (substr data q (colon - q)) = .ok length ∧
    2 ^ 64 ≤ colon + 1 + length ∧ colon + 1 + length ≤ 2 ^ 64 + q

/-- The code returns a value from `q` and leaves the position at `p`. -/
def Returns (data : Bytes) (q p : ℕ) : Prop := ∃ v, Parses data q (.ok (v, p))

/-- The parse at `pos` ends, and every value it reads, itself included, ends behind its start and
within the data. -/
structure StrictAdvance (data : Bytes) (pos : ℕ) : Prop where
  terminates : ∃ r, Parses data pos r
  advances : ∀ q, Visits data (Returns data) .value pos q →
    ∀ p, Returns data q p → q < p ∧ p ≤ data.length

/-! ### Spans -/

theorem lt_length_of_getElem? {data : Bytes} {p : ℕ} {c : UInt8} (h : data[p]? = some c) :
    p < data.length :=
  (List.getElem?_eq_some_iff.1 h).1

theorem Span.advances {data : Bytes} {m : Mode} {p q : ℕ} (h : Span data m p q) :
    p < q ∧ q ≤ data.length := by
  induction h with
  | int h hstop hi =>
    have := find_bounds hstop
    omega
  | str h hcolon hl hlt hle => exact ⟨hlt, hle⟩
  | list h hq ih => omega
  | dict h hq ih => omega
  | itemsEnd h => have := lt_length_of_getElem? h; omega
  | item h hp hq ihp ihq => omega
  | entriesEnd h => have := lt_length_of_getElem? h; omega
  | entry h hp hp' hq ihp ihp' ihq => omega

theorem Visits.mono {data : Bytes} {ends ends' : ℕ → ℕ → Prop}
    (hends : ∀ p q, ends p q → ends' p q) {m : Mode} {p q : ℕ} (h : Visits data ends m p q) :
    Visits data ends' m p q := by
  induction h with
  | self p => exact .self p
  | list h _ ih => exact .list h ih
  | dict h _ ih => exact .dict h ih
  | item h _ ih => exact .item h ih
  | items h hp _ ih => exact .items h (hends _ _ hp) ih
  | key h _ ih => exact .key h ih
  | val h hp _ ih => exact .val h (hends _ _ hp) ih
  | entries h hp hp' _ ih => exact .entries h (hends _ _ hp) (hends _ _ hp') ih

/-! ### Where the parser agrees with the spans -/

section Agree

variable {data : Bytes}

theorem parseString_ok {pos p : ℕ} {v : BencodeValue} (h : parseString data pos = .ok (v, p)) :
    (∃ s, v = .str s) ∧ ∃ colon length, find data ':'.toUInt8 pos = some colon ∧
      stoull (substr data pos (colon - pos)) = .ok length ∧
      p = sizeAdd (colon + 1) length ∧ p ≤ data.length := by
  unfold parseString at h
  split at h
  · cases h
  · rename_i colon hcolon
    split at h
    · cases h
    · rename_i length hlength
      split_ifs at h with hgt
      · cases h
      · cases h
        exact ⟨⟨_, rfl⟩, colon, length, hcolon, hlength, rfl, by omega⟩

theorem digit_of_parses_str {pos p : ℕ} {key : Bytes} (h : Parses data pos (.ok (.str key, p))) :
    Digit data pos := by
  rcases lead_cases data pos with hc | hc | ⟨c, hc, hs⟩ | hc | hc | ⟨c, hc, hi, hs, hl, hd⟩
  · cases (parses_end hc).1 h
  · have := (parses_int hc).1 h
    unfold parseInt at this
    split at this
    · cases this
    · split at this <;> cases this
  · exact ⟨c, hc, hs⟩
  · obtain ⟨fuel, hf⟩ := (parses_list hc).1 h
    obtain ⟨l, hl⟩ := listLoop_ok fuel hf
    cases hl
  · obtain ⟨fuel, hf⟩ := (parses_dict hc).1 h
    obtain ⟨d, hd⟩ := dictLoop_ok fuel hf
    cases hd
  · cases (parses_invalid hc hi hs hl hd).1 h

theorem str_of_digit {pos p : ℕ} {v : BencodeValue} (hd : Digit data pos)
    (h : Parses data pos (.ok (v, p))) : ∃ key, v = .str key := by
  obtain ⟨c, hc, hs⟩ := hd
  exact (parseString_ok ((parses_string hc hs).1 h).symm).1

theorem more_of_digit {pos : ℕ} (h : Digit data pos) : More data pos := by
  obtain ⟨c, hc, hs⟩ := h
  exact ⟨c, hc, ne_of_isdigit hs (by decide)⟩

section Returns

variable {p p' p'' q : ℕ}

theorem returns_int {stop : ℕ} {i : ℤ} (h : data[p]? = some 'i'.toUInt8)
    (hstop : find data 'e'.toUInt8 (p + 1) = some stop)
    (hi : stoll (substr data (p + 1) (stop - (p + 1))) = .ok i) : Returns data p (stop + 1) := by
  refine ⟨.int i, (parses_int h).2 ?_⟩
  simp only [parseInt, hstop, hi]

theorem returns_str {colon length : ℕ} (h : Digit data p)
    (hcolon : find data ':'.toUInt8 p = some colon)
    (hl : stoull (substr data p (colon - p)) = .ok length)
    (hle : sizeAdd (colon + 1) length ≤ data.length) :
    Returns data p (sizeAdd (colon + 1) length) := by
  obtain ⟨c, hc, hs⟩ := h
  refine ⟨.str (substr data (colon + 1) length), (parses_string hc hs).2 ?_⟩
  simp only [parseString, hcolon, hl]
  rw [if_neg (not_lt.2 hle)]

theorem returns_list (h : data[p]? = some 'l'.toUInt8)
    (hitems : ∀ list, ∃ v, ListLoops data (p + 1) list (.ok (v, q))) : Returns data p q := by
  obtain ⟨v, hv⟩ := hitems []
  exact ⟨v, (parses_list h).2 hv⟩

theorem returns_dict (h : data[p]? = some 'd'.toUInt8)
    (hentries : ∀ dict, ∃ v, DictLoops data (p + 1) dict (.ok (v, q))) : Returns data p q := by
  obtain ⟨v, hv⟩ := hentries []
  exact ⟨v, (parses_dict h).2 hv⟩

/-- One item of a list, and the others. -/
theorem listLoops_more (h : More data p) (hp : Returns data p p')
    (hitems : ∀ list, ∃ v, ListLoops data p' list (.ok (v, q))) (list : List BencodeValue) :
    ∃ v, ListLoops data p list (.ok (v, q)) := by
  obtain ⟨c, hc, hce⟩ := h
  obtain ⟨v, hv⟩ := hp
  obtain ⟨w, hw⟩ := hitems (list ++ [v])
  exact ⟨w, (listLoops_item hc hce).2 (.inr ⟨v, _, hv, hw⟩)⟩

/-- One entry of a dictionary, and the others. -/
theorem dictLoops_more (h : Digit data p) (hk : Returns data p p') (hv : Returns data p' p'')
    (hentries : ∀ dict, ∃ v, DictLoops data p'' dict (.ok (v, q))) (dict : BencodeDict) :
    ∃ v, DictLoops data p dict (.ok (v, q)) := by
  obtain ⟨c, hc, hce⟩ := more_of_digit h
  obtain ⟨k, hk⟩ := hk
  -- at a digit the parser can only have read a string
  obtain ⟨key, rfl⟩ := str_of_digit h hk
  obtain ⟨v, hv⟩ := hv
  obtain ⟨w, hw⟩ := hentries (dictInsert key v dict)
  exact ⟨w, (dictLoops_entry hc hce).2 (.inr (.inr ⟨key, _, hk, .inr ⟨v, _, hv, hw⟩⟩))⟩

end Returns

/-- The parser returns at the end of every span. -/
theorem returns_of_span {m : Mode} {p q : ℕ} (h : Span data m p q) :
    match m with
    | .value => Returns data p q
    | .items => ∀ list, ∃ v, ListLoops data p list (.ok (v, q))
    | .entries => ∀ dict, ∃ v, DictLoops data p dict (.ok (v, q)) := by
  induction h with
  | int h hstop hi => exact returns_int h hstop hi
  | str h hcolon hl _ hle => exact returns_str h hcolon hl hle
  | list h _ ih => exact returns_list h ih
  | dict h _ ih => exact returns_dict h ih
  | itemsEnd h => exact fun list => ⟨_, (listLoops_end h).2 rfl⟩
  | item h _ _ ihp ihq => exact listLoops_more h ihp ihq
  | entriesEnd h => exact fun dict => ⟨_, (dictLoops_end h).2 rfl⟩
  | entry h _ _ _ ihp ihp' ihq => exact dictLoops_more h ihp ihp' ihq

/-- A string that wraps back returns at its start or before it. -/
theorem returns_of_wrapsBack (hd : data.length < 2 ^ 64) {q : ℕ} (h : WrapsBack data q) :
    ∃ p, Returns data q p ∧ p ≤ q := by
  obtain ⟨hdigit, colon, length, hcolon, hl, hlo, hhi⟩ := h
  have hq : q < data.length := by
    obtain ⟨c, hc, -⟩ := hdigit
    exact lt_length_of_getElem? hc
  have hlen := stoull_lt hl
  have hadd : sizeAdd (colon + 1) length = colon + 1 + length - 2 ^ 64 := by
    have := (find_bounds hcolon).2
    unfold sizeAdd
    omega
  exact ⟨sizeAdd (colon + 1) length, returns_str hdigit hcolon hl (by omega), by omega⟩

end Agree

/-! ### Termination -/

section Terminates

variable {data : Bytes}

/-- No position read from `p` in mode `m` holds a string that wraps back. -/
def NoWrap (data : Bytes) (m : Mode) (p : ℕ) : Prop :=
  ∀ q, Visits data (Span data .value) m p q → ¬ WrapsBack data q

/-- The parse at `p` ends, and where it returns is the end of a span. -/
def ValueEnds (data : Bytes) (p : ℕ) : Prop :=
  (∃ r, Parses data p r) ∧ ∀ v q, Parses data p (.ok (v, q)) → Span data .value p q

/-- The same for the list loop, from every list of items read so far. -/
def ItemsEnd (data : Bytes) (p : ℕ) : Prop :=
  ∀ list, (∃ r, ListLoops data p list r) ∧
    ∀ v q, ListLoops data p list (.ok (v, q)) → Span data .items p q

/-- The same for the dictionary loop. -/
def EntriesEnd (data : Bytes) (p : ℕ) : Prop :=
  ∀ dict, (∃ r, DictLoops data p dict r) ∧
    ∀ v q, DictLoops data p dict (.ok (v, q)) → Span data .entries p q

theorem valueEnds_string (hd : data.length < 2 ^ 64) {p : ℕ} (hp : Digit data p) (h : ¬ WrapsBack data p) :
    ValueEnds data p := by
  obtain ⟨c, hc, hs⟩ := hp
  refine ⟨⟨_, (parses_string hc hs).2 rfl⟩, fun v q hq => ?_⟩
  obtain ⟨-, colon, length, hcolon, hl, rfl, hle⟩ := parseString_ok ((parses_string hc hs).1 hq).symm
  refine .str ⟨c, hc, hs⟩ hcolon hl ?_ hle
  by_contra hback
  -- the position did not advance, so the sum has passed 2 ^ 64
  have hbounds := find_bounds hcolon
  have hlen := stoull_lt hl
  refine h ⟨⟨c, hc, hs⟩, colon, length, hcolon, hl, ?_, ?_⟩
  · by_contra hlt
    rw [sizeAdd_of_lt (by omega)] at hback
    omega
  · unfold sizeAdd at hback
    omega

theorem valueEnds_of (hd : data.length < 2 ^ 64) {p : ℕ} (h : NoWrap data .value p)
    (hitems : data[p]? = some 'l'.toUInt8 → ItemsEnd data (p + 1))
    (hentries : data[p]? = some 'd'.toUInt8 → EntriesEnd data (p + 1)) : ValueEnds data p := by
  rcases lead_cases data p with hc | hc | ⟨c, hc, hs⟩ | hc | hc | ⟨c, hc, hi, hs, hl, hn⟩
  · exact ⟨⟨_, (parses_end hc).2 rfl⟩, fun v q hq => by cases (parses_end hc).1 hq⟩
  · refine ⟨⟨_, (parses_int hc).2 rfl⟩, fun v q hq => ?_⟩
    have hr := (parses_int hc).1 hq
    unfold parseInt at hr
    split at hr
    · cases hr
    · rename_i stop hstop
      split at hr
      · cases hr
      · rename_i i hi
        cases hr
        exact .int hc hstop hi
  · exact valueEnds_string hd ⟨c, hc, hs⟩ (h p (.self p))
  · obtain ⟨⟨r, hr⟩, hspan⟩ := hitems hc []
    exact ⟨⟨r, (parses_list hc).2 hr⟩, fun v q hq => .list hc (hspan v q ((parses_list hc).1 hq))⟩
  · obtain ⟨⟨r, hr⟩, hspan⟩ := hentries hc []
    exact ⟨⟨r, (parses_dict hc).2 hr⟩, fun v q hq => .dict hc (hspan v q ((parses_dict hc).1 hq))⟩
  · exact ⟨⟨_, (parses_invalid hc hi hs hl hn).2 rfl⟩,
      fun v q hq => by cases (parses_invalid hc hi hs hl hn).1 hq⟩

theorem itemsEnd_of {p : ℕ} (hv : More data p → ValueEnds data p)
    (hrest : ∀ p', More data p → Span data .value p p' → ItemsEnd data p') : ItemsEnd data p := by
  intro list
  cases hc : data[p]? with
  | none =>
    exact ⟨⟨_, (listLoops_unterminated hc).2 rfl⟩,
      fun v q hq => by cases (listLoops_unterminated hc).1 hq⟩
  | some c =>
    by_cases hce : c = 'e'.toUInt8
    · subst hce
      refine ⟨⟨_, (listLoops_end hc).2 rfl⟩, fun v q hq => ?_⟩
      cases (listLoops_end hc).1 hq
      exact .itemsEnd hc
    · have hmore : More data p := ⟨c, hc, hce⟩
      obtain ⟨⟨r, hr⟩, hspan⟩ := hv hmore
      constructor
      · cases r with
        | error e => exact ⟨_, (listLoops_item hc hce).2 (.inl ⟨e, hr, rfl⟩)⟩
        | ok x =>
          obtain ⟨⟨r', hr'⟩, -⟩ := hrest x.2 hmore (hspan x.1 x.2 hr) (list ++ [x.1])
          exact ⟨r', (listLoops_item hc hce).2 (.inr ⟨x.1, x.2, hr, hr'⟩)⟩
      · intro v q hq
        rcases (listLoops_item hc hce).1 hq with ⟨e, -, he⟩ | ⟨w, p', hw, hloop⟩
        · cases he
        · have hp' := hspan w p' hw
          exact .item hmore hp' ((hrest p' hmore hp' _).2 v q hloop)

theorem entriesEnd_of {p : ℕ} (hk : More data p → ValueEnds data p)
    (hv : ∀ p', Digit data p → Span data .value p p' → ValueEnds data p')
    (hrest : ∀ p' p'', Digit data p → Span data .value p p' → Span data .value p' p'' →
      EntriesEnd data p'') : EntriesEnd data p := by
  intro dict
  cases hc : data[p]? with
  | none =>
    exact ⟨⟨_, (dictLoops_unterminated hc).2 rfl⟩,
      fun v q hq => by cases (dictLoops_unterminated hc).1 hq⟩
  | some c =>
    by_cases hce : c = 'e'.toUInt8
    · subst hce
      refine ⟨⟨_, (dictLoops_end hc).2 rfl⟩, fun v q hq => ?_⟩
      cases (dictLoops_end hc).1 hq
      exact .entriesEnd hc
    · obtain ⟨⟨r, hr⟩, hspan⟩ := hk ⟨c, hc, hce⟩
      have hrule := fun r : Outcome => @dictLoops_entry data p r c dict hc hce
      constructor
      · rcases r with e | ⟨k, p'⟩
        · exact ⟨_, (hrule _).2 (.inl ⟨e, hr, rfl⟩)⟩
        · by_cases hkey : ∃ key, k = .str key
          · obtain ⟨key, rfl⟩ := hkey
            have hdig := digit_of_parses_str hr
            have hp' := hspan _ p' hr
            obtain ⟨⟨r', hr'⟩, hspan'⟩ := hv p' hdig hp'
            rcases r' with e | ⟨v, p''⟩
            · exact ⟨_, (hrule _).2 (.inr (.inr ⟨key, p', hr, .inl ⟨e, hr', rfl⟩⟩))⟩
            · obtain ⟨⟨r'', hr''⟩, -⟩ :=
                hrest p' p'' hdig hp' (hspan' v p'' hr') (dictInsert key v dict)
              exact ⟨r'', (hrule _).2 (.inr (.inr ⟨key, p', hr, .inr ⟨v, p'', hr', hr''⟩⟩))⟩
          -- a key that is not a string ends the loop with an error
          · exact ⟨_, (hrule _).2 (.inr (.inl ⟨k, p', hr, fun key h => hkey ⟨key, h⟩, rfl⟩))⟩
      · intro v q hq
        rcases (hrule _).1 hq with ⟨e, -, he⟩ | ⟨_, _, -, -, he⟩ | ⟨key, p', hkey, h⟩
        · cases he
        · cases he
        · have hdig := digit_of_parses_str hkey
          have hp' := hspan _ p' hkey
          rcases h with ⟨e, -, he⟩ | ⟨w, p'', hw, hloop⟩
          · cases he
          · have hp'' := (hv p' hdig hp').2 w p'' hw
            exact .entry hdig hp' hp'' ((hrest p' p'' hdig hp' hp'' _).2 v q hloop)

/-- Without a string that wraps back, everything read from a position on ends. The induction is
on the number of bytes left; a loop and the value it reads first share their position. -/
theorem ends_of_noWrap (hd : data.length < 2 ^ 64) (n : ℕ) : ∀ p, data.length - p ≤ n →
    (NoWrap data .value p → ValueEnds data p) ∧ (NoWrap data .items p → ItemsEnd data p) ∧
    (NoWrap data .entries p → EntriesEnd data p) := by
  induction n using Nat.strong_induction_on with
  | _ n ih =>
    intro p hp
    have hnext : ∀ p', p < p' → p < data.length →
        (NoWrap data .value p' → ValueEnds data p') ∧ (NoWrap data .items p' → ItemsEnd data p') ∧
        (NoWrap data .entries p' → EntriesEnd data p') :=
      fun p' hlt hlen => ih (data.length - p') (by omega) p' le_rfl
    have hvalue : NoWrap data .value p → ValueEnds data p := fun h =>
      valueEnds_of hd h
        (fun hc => (hnext (p + 1) (by omega) (lt_length_of_getElem? hc)).2.1
          fun q hq => h q (.list hc hq))
        (fun hc => (hnext (p + 1) (by omega) (lt_length_of_getElem? hc)).2.2
          fun q hq => h q (.dict hc hq))
    refine ⟨hvalue, fun h => ?_, fun h => ?_⟩
    · refine itemsEnd_of (fun hm => hvalue fun q hq => h q (.item hm hq)) fun p' hm hs => ?_
      have hadv := hs.advances
      exact (hnext p' hadv.1 (by omega)).2.1 fun q hq => h q (.items hm hs hq)
    · refine entriesEnd_of (fun hm => hvalue fun q hq => h q (.key hm hq)) (fun p' hk hs => ?_)
        fun p' p'' hk hs hs' => ?_
      · have hadv := hs.advances
        exact (hnext p' hadv.1 (by omega)).1 fun q hq => h q (.val hk hs hq)
      · have hadv := hs.advances
        have hadv' := hs'.advances
        exact (hnext p'' (by omega) (by omega)).2.2 fun q hq => h q (.entries hk hs hs' hq)

theorem valueEnds_of_noWrap (hd : data.length < 2 ^ 64) {p : ℕ} (h : NoWrap data .value p) :
    ValueEnds data p :=
  (ends_of_noWrap hd _ p le_rfl).1 h

/-- Without a string that wraps back, the positions the code comes to are those that the spans
give. -/
theorem visits_span (hd : data.length < 2 ^ 64) {m : Mode} {p q : ℕ} (h : NoWrap data m p)
    (hv : Visits data (Returns data) m p q) : Visits data (Span data .value) m p q := by
  have hspan : ∀ {p p'}, NoWrap data .value p → Returns data p p' → Span data .value p p' :=
    fun hp ⟨v, hr⟩ => (valueEnds_of_noWrap hd hp).2 v _ hr
  induction hv with
  | self p => exact .self p
  | list hc _ ih => exact .list hc (ih fun q hq => h q (.list hc hq))
  | dict hc _ ih => exact .dict hc (ih fun q hq => h q (.dict hc hq))
  | item hm _ ih => exact .item hm (ih fun q hq => h q (.item hm hq))
  | items hm hr _ ih =>
    have hs := hspan (fun q hq => h q (.item hm hq)) hr
    exact .items hm hs (ih fun q hq => h q (.items hm hs hq))
  | key hm _ ih => exact .key hm (ih fun q hq => h q (.key hm hq))
  | val hk hr _ ih =>
    have hs := hspan (fun q hq => h q (.key (more_of_digit hk) hq)) hr
    exact .val hk hs (ih fun q hq => h q (.val hk hs hq))
  | entries hk hr hr' _ ih =>
    have hs := hspan (fun q hq => h q (.key (more_of_digit hk) hq)) hr
    have hs' := hspan (fun q hq => h q (.val hk hs hq)) hr'
    exact .entries hk hs hs' (ih fun q hq => h q (.entries hk hs hs' hq))

/-- A value read after another one without wrapping back does not wrap back either. -/
theorem NoWrap.of_visits {p q : ℕ} {m : Mode} (h : NoWrap data m p)
    (hq : Visits data (Span data .value) m p q) : NoWrap data .value q := by
  intro q' hq'
  refine h q' ?_
  induction hq with
  | self p => exact hq'
  | list hc _ ih => exact .list hc (ih (fun q hq => h q (.list hc hq)) hq')
  | dict hc _ ih => exact .dict hc (ih (fun q hq => h q (.dict hc hq)) hq')
  | item hm _ ih => exact .item hm (ih (fun q hq => h q (.item hm hq)) hq')
  | items hm hs _ ih => exact .items hm hs (ih (fun q hq => h q (.items hm hs hq)) hq')
  | key hm _ ih => exact .key hm (ih (fun q hq => h q (.key hm hq)) hq')
  | val hd hs _ ih => exact .val hd hs (ih (fun q hq => h q (.val hd hs hq)) hq')
  | entries hd hs hs' _ ih =>
    exact .entries hd hs hs' (ih (fun q hq => h q (.entries hd hs hs' hq)) hq')

/-- **Termination and strict advance, exactly**: a parse ends and advances in every value it
reads if and only if no string that the values of the format lead to wraps back to its start. -/
theorem strictAdvance_iff {pos : ℕ} (hd : data.length < 2 ^ 64) :
    StrictAdvance data pos ↔
      ∀ q, Visits data (Span data .value) .value pos q → ¬ WrapsBack data q := by
  constructor
  · intro h q hq hback
    obtain ⟨p, hp, hle⟩ := returns_of_wrapsBack hd hback
    have hvisit : Visits data (Returns data) .value pos q :=
      hq.mono fun a b hs => returns_of_span hs
    have := (h.advances q hvisit p hp).1
    omega
  · intro h
    refine ⟨(valueEnds_of_noWrap hd h).1, fun q hq p hp => ?_⟩
    have hvisit := visits_span hd h hq
    obtain ⟨v, hv⟩ := hp
    exact ((valueEnds_of_noWrap hd (NoWrap.of_visits h hvisit)).2 v p hv).advances

end Terminates

/-- `strictAdvance_iff` on a string. -/
theorem strictAdvance_iff_spam :
    StrictAdvance (ascii "4:spam") 0 ↔
      ∀ q, Visits (ascii "4:spam") (Span (ascii "4:spam") .value) .value 0 q →
        ¬ WrapsBack (ascii "4:spam") q :=
  strictAdvance_iff (by decide)

/-! ### A list whose item wraps back to itself -/

/-- A list that starts with a string whose length prefix is `2 ^ 64 - 21`: behind the colon the
position is `22`, and `22 + (2 ^ 64 - 21)` is `1`, the start of the string. -/
def loopingList : Bytes := ascii "l18446744073709551595:"

theorem parseString_loopingList : parseString loopingList 1 = .ok (.str [], 1) := rfl

/-- The list loop reads an empty string from position `1` for ever. -/
theorem listLoop_loopingList (fuel : ℕ) (list : List BencodeValue) :
    listLoop fuel loopingList 1 list = none := by
  induction fuel generalizing list with
  | zero => rfl
  | succ fuel ih =>
    have hbyte : loopingList[1]? = some '1'.toUInt8 := rfl
    rw [listLoop, hbyte]
    cases fuel with
    | zero => rfl
    | succ fuel =>
      have hitem : parseImpl (fuel + 1) loopingList 1 = some (.ok (.str [], 1)) := by
        rw [parseImpl, hbyte]
        exact congrArg some parseString_loopingList
      simp only [hitem, ih]
      rfl

/-- Not every parse ends and advances. -/
theorem not_forall_strictAdvance :
    ¬ ∀ (data : Bytes) (pos : ℕ), data.length < 2 ^ 64 → pos < data.length →
      StrictAdvance data pos := by
  intro h
  obtain ⟨⟨r, hr⟩, -⟩ := h loopingList 0 (by decide) (by decide)
  have hlist : loopingList[0]? = some 'l'.toUInt8 := rfl
  obtain ⟨fuel, hf⟩ := (parses_list hlist).1 hr
  rw [listLoop_loopingList] at hf
  cases hf

end Gush.Bencode
