import Mathlib.Data.List.TakeWhile
import Gush.Lib.Decimal
import Gush.Lib.Split

/-!
# The C++ runtime under the client

Byte strings, exceptions, fixed-width conversions and the parts of the standard library that the
client's functions call. Strings are lists of bytes; an index or a size is a natural number, and
every `size_t` sum that the source leaves unguarded is taken modulo `2 ^ 64` (`sizeAdd`).

The conversions `int32`, `int64` and `uint32` wrap around. On signed types the language leaves
an overflow undefined, so where a theorem depends on it the absence of overflow is proved.
-/

namespace Gush

/-- `std::string` and `std::vector<uint8_t>`. -/
abbrev Bytes := List UInt8

/-- A string literal of the source. -/
def ascii (s : String) : Bytes := s.toList.map Char.toUInt8

/-- The standard exceptions the client's code throws, with their `what()`. -/
inductive Exn
  | runtimeError (what : Bytes)
  | invalidArgument (what : Bytes)
  | outOfRange (what : Bytes)
  deriving DecidableEq

/-- `throw std::runtime_error("...")`. -/
def throwRuntime {α : Type} (what : String) : Except Exn α := .error (.runtimeError (ascii what))

namespace Cxx

/-- `a + b` on `size_t`. -/
def sizeAdd (a b : ℕ) : ℕ := (a + b) % 2 ^ 64

/-- `a - b` on `size_t`. -/
def sizeSub (a b : ℕ) : ℕ := (a + (2 ^ 64 - b % 2 ^ 64)) % 2 ^ 64

/-- Conversion to `int64_t`. -/
def int64 (x : ℤ) : ℤ := Int.bmod x (2 ^ 64)

/-- Conversion to `int`. -/
def int32 (x : ℤ) : ℤ := Int.bmod x (2 ^ 32)

/-- Conversion to `uint32_t`. -/
def uint32 (x : ℤ) : ℕ := (x % 2 ^ 32).toNat

theorem sizeAdd_of_lt {a b : ℕ} (h : a + b < 2 ^ 64) : sizeAdd a b = a + b :=
  Nat.mod_eq_of_lt h

theorem int64_of_range {x : ℤ} (h : -2 ^ 63 ≤ x) (h' : x < 2 ^ 63) : int64 x = x := by
  unfold int64
  rw [Int.bmod_eq_of_le] <;> omega

theorem int32_of_range {x : ℤ} (h : -2 ^ 31 ≤ x) (h' : x < 2 ^ 31) : int32 x = x := by
  unfold int32
  rw [Int.bmod_eq_of_le] <;> omega

theorem uint32_of_lt {n : ℕ} (h : n < 2 ^ 32) : uint32 n = n := by
  unfold uint32
  omega

/-! ### Overflow -/

/-- A result of `int64_t` arithmetic; `none` is an overflow. -/
def checked64 (x : ℤ) : Option ℤ := if -2 ^ 63 ≤ x ∧ x < 2 ^ 63 then some x else none

/-- A conversion to `int` that keeps the value. -/
def checked32 (x : ℤ) : Option ℤ := if -2 ^ 31 ≤ x ∧ x < 2 ^ 31 then some x else none

/-- A conversion to `uint64_t`, or a result on it, that keeps the value. -/
def checkedU64 (x : ℤ) : Option ℤ := if 0 ≤ x ∧ x < 2 ^ 64 then some x else none

/-- A conversion to `uint32_t` that keeps the value. -/
def checkedU32 (x : ℤ) : Option ℕ := if 0 ≤ x ∧ x < 2 ^ 32 then some x.toNat else none

theorem checked64_eq_some {x y : ℤ} : checked64 x = some y ↔ x = y ∧ -2 ^ 63 ≤ x ∧ x < 2 ^ 63 := by
  unfold checked64
  split_ifs with h
  · rw [Option.some.injEq]
    omega
  · simp only [false_iff]
    omega

theorem checked32_eq_some {x y : ℤ} : checked32 x = some y ↔ x = y ∧ -2 ^ 31 ≤ x ∧ x < 2 ^ 31 := by
  unfold checked32
  split_ifs with h
  · rw [Option.some.injEq]
    omega
  · simp only [false_iff]
    omega

theorem checkedU32_eq_some {x : ℤ} {n : ℕ} : checkedU32 x = some n ↔ x = n ∧ n < 2 ^ 32 := by
  unfold checkedU32
  split_ifs with h
  · rw [Option.some.injEq]
    omega
  · simp only [false_iff]
    omega

theorem checked64_of_range {x : ℤ} (h : -2 ^ 63 ≤ x) (h' : x < 2 ^ 63) : checked64 x = some x :=
  checked64_eq_some.2 ⟨rfl, h, h'⟩

theorem checkedU64_of_range {x : ℤ} (h : 0 ≤ x) (h' : x < 2 ^ 64) : checkedU64 x = some x :=
  if_pos ⟨h, h'⟩

/-! ### Searching and cutting -/

/-- `data.find(c, pos)`; `none` is `npos`. -/
def find (data : Bytes) (c : UInt8) (pos : ℕ) : Option ℕ :=
  ((data.drop pos).findIdx? (· == c)).map (pos + ·)

/-- `data.substr(pos, n)` for a `pos` within the string: the count is clamped to the end. -/
def substr (data : Bytes) (pos n : ℕ) : Bytes := (data.drop pos).take n

theorem find_bounds {data : Bytes} {c : UInt8} {pos k : ℕ} (h : find data c pos = some k) :
    pos ≤ k ∧ k < data.length := by
  obtain ⟨i, hi, rfl⟩ := Option.map_eq_some_iff.1 h
  obtain ⟨hlt, -⟩ := List.findIdx?_eq_some_iff_getElem.1 hi
  rw [List.length_drop] at hlt
  omega

/-- The search stops at the first `c`, whatever stands behind it. -/
theorem find_of_drop {data token rest : Bytes} {c : UInt8} {pos : ℕ}
    (h : data.drop pos = token ++ c :: rest) (hc : c ∉ token) :
    find data c pos = some (pos + token.length) := by
  have hnone : token.findIdx? (· == c) = none := by
    rw [List.findIdx?_eq_none_iff]
    intro x hx
    simpa using fun he : x = c => hc (he ▸ hx)
  unfold find
  rw [h, List.findIdx?_append, hnone]
  simp [List.findIdx?_cons]

/-- The search fails where there is no `c`. -/
theorem find_eq_none {data : Bytes} {c : UInt8} {pos : ℕ} (h : c ∉ data.drop pos) :
    find data c pos = none := by
  rw [find, Option.map_eq_none_iff, List.findIdx?_eq_none_iff]
  intro x hx
  simpa using fun he : x = c => h (he ▸ hx)

/-- What the search finds: the text up to the first `c`, the `c`, and the rest. -/
theorem drop_of_find {data : Bytes} {c : UInt8} {pos k : ℕ} (h : find data c pos = some k) :
    data.drop pos = substr data pos (k - pos) ++ c :: data.drop (k + 1) := by
  obtain ⟨i, hi, rfl⟩ := Option.map_eq_some_iff.1 h
  obtain ⟨hlt, hc, -⟩ := List.findIdx?_eq_some_iff_getElem.1 hi
  have hbyte : (data.drop pos)[i] = c := by simpa using hc
  have hcut : data.drop pos = (data.drop pos).take i ++ (data.drop pos).drop i :=
    (List.take_append_drop i _).symm
  rw [List.drop_eq_getElem_cons hlt, hbyte, List.drop_drop] at hcut
  rw [substr, Nat.add_sub_cancel_left, Nat.add_assoc]
  exact hcut

theorem substr_of_drop {data token rest : Bytes} {pos : ℕ} (h : data.drop pos = token ++ rest) :
    substr data pos token.length = token := by
  unfold substr
  rw [h, List.take_left]

theorem getElem?_of_drop {data rest : Bytes} {c : UInt8} {pos : ℕ}
    (h : data.drop pos = c :: rest) : data[pos]? = some c := by
  rw [← List.head?_drop, h, List.head?_cons]

theorem drop_of_getElem? {data : Bytes} {c : UInt8} {pos : ℕ} (h : data[pos]? = some c) :
    data.drop pos = c :: data.drop (pos + 1) := by
  obtain ⟨hlt, rfl⟩ := List.getElem?_eq_some_iff.1 h
  exact List.drop_eq_getElem_cons hlt

theorem drop_of_drop {data token rest : Bytes} {pos : ℕ} (h : data.drop pos = token ++ rest) :
    data.drop (pos + token.length) = rest := by
  rw [← List.drop_drop, h, List.drop_left]

/-! ### Numbers in strings -/

/-- `isspace` in the C locale. -/
def isspace (b : UInt8) : Bool := b.toNat == 32 || (9 ≤ b.toNat && b.toNat ≤ 13)

/-- `isdigit`. -/
def isdigit (b : UInt8) : Bool := Decimal.isDigit b

/-- What the `strto..` functions read: blanks, an optional sign, then the longest run of digits;
`none` if there is no digit. The Boolean says that the sign is a minus. -/
def scanNumber (s : Bytes) : Option (Bool × ℕ) :=
  let s := s.dropWhile isspace
  let signed : Bool × Bytes :=
    match s with
    | [] => (false, [])
    | c :: t => if c = '-'.toUInt8 then (true, t) else if c = '+'.toUInt8 then (false, t)
        else (false, c :: t)
  let ds := signed.2.takeWhile isdigit
  if ds = [] then none else some (signed.1, Decimal.value ds)

/-- `std::stoll` in base ten. -/
def stoll (s : Bytes) : Except Exn ℤ :=
  match scanNumber s with
  | none => .error (.invalidArgument (ascii "stoll"))
  | some (minus, n) =>
    let v : ℤ := if minus then -n else n
    if -2 ^ 63 ≤ v ∧ v < 2 ^ 63 then .ok v else .error (.outOfRange (ascii "stoll"))

/-- `std::stoull` in base ten; a minus sign negates modulo `2 ^ 64`. -/
def stoull (s : Bytes) : Except Exn ℕ :=
  match scanNumber s with
  | none => .error (.invalidArgument (ascii "stoull"))
  | some (minus, n) =>
    if 2 ^ 64 ≤ n then .error (.outOfRange (ascii "stoull"))
    else .ok (if minus then (2 ^ 64 - n) % 2 ^ 64 else n)

/-- `std::stoi` in base ten. -/
def stoi (s : Bytes) : Except Exn ℤ :=
  match scanNumber s with
  | none => .error (.invalidArgument (ascii "stoi"))
  | some (minus, n) =>
    let v : ℤ := if minus then -n else n
    if -2 ^ 31 ≤ v ∧ v < 2 ^ 31 then .ok v else .error (.outOfRange (ascii "stoi"))

/-- A signed number written to an output stream. -/
def showInt : ℤ → Bytes
  | .ofNat n => Decimal.numeral n
  | .negSucc n => '-'.toUInt8 :: Decimal.numeral (n + 1)

theorem stoull_lt {s : Bytes} {n : ℕ} (h : stoull s = .ok n) : n < 2 ^ 64 := by
  unfold stoull at h
  split at h
  · cases h
  · split_ifs at h <;> cases h <;> omega

theorem not_isspace_of_isdigit {b : UInt8} (h : isdigit b = true) : isspace b = false := by
  simp only [isdigit, Decimal.isDigit, Bool.and_eq_true, decide_eq_true_eq] at h
  simp only [isspace, Bool.or_eq_false_iff, Bool.and_eq_false_iff, decide_eq_false_iff_not,
    beq_eq_false_iff_ne]
  omega

theorem ne_of_isdigit {b c : UInt8} (h : isdigit b = true) (hc : isdigit c = false) : b ≠ c := by
  rintro rfl
  rw [h] at hc
  cases hc

/-- One digit or more. -/
def Digits (ds : Bytes) : Prop := ds ≠ [] ∧ ∀ b ∈ ds, isdigit b = true

theorem digits_numeral (n : ℕ) : Digits (Decimal.numeral n) :=
  ⟨Decimal.numeral_ne_nil n, fun _ hb => Decimal.isDigit_of_mem_numeral hb⟩

/-- Reading digits scans all of them. -/
theorem scanNumber_digits {ds : Bytes} (h : Digits ds) :
    scanNumber ds = some (false, Decimal.value ds) := by
  obtain ⟨hne, hall⟩ := h
  have htake : ds.takeWhile isdigit = ds := List.takeWhile_eq_self_iff.2 hall
  obtain ⟨c, t, rfl⟩ := List.exists_cons_of_ne_nil hne
  have hc : isdigit c = true := hall c List.mem_cons_self
  have hspace : (c :: t).dropWhile isspace = c :: t := by
    simp [not_isspace_of_isdigit hc]
  have hminus : c ≠ '-'.toUInt8 := ne_of_isdigit hc (by decide)
  have hplus : c ≠ '+'.toUInt8 := ne_of_isdigit hc (by decide)
  simp only [scanNumber, hspace, hminus, hplus, if_false, htake, reduceCtorEq]

/-- Reading digits behind a minus sign. -/
theorem scanNumber_minus_digits {ds : Bytes} (h : Digits ds) :
    scanNumber ('-'.toUInt8 :: ds) = some (true, Decimal.value ds) := by
  obtain ⟨hne, hall⟩ := h
  have htake : ds.takeWhile isdigit = ds := List.takeWhile_eq_self_iff.2 hall
  have hspace : ('-'.toUInt8 :: ds).dropWhile isspace = '-'.toUInt8 :: ds := by
    rw [List.dropWhile_cons, if_neg (by decide)]
  simp only [scanNumber, hspace, if_true, htake, hne, if_false]

theorem scanNumber_numeral (n : ℕ) : scanNumber (Decimal.numeral n) = some (false, n) := by
  rw [scanNumber_digits (digits_numeral n), Decimal.value_numeral]

theorem scanNumber_minus_numeral (n : ℕ) :
    scanNumber ('-'.toUInt8 :: Decimal.numeral n) = some (true, n) := by
  rw [scanNumber_minus_digits (digits_numeral n), Decimal.value_numeral]

/-- What `stoull` makes of digits. -/
theorem stoull_digits {ds : Bytes} (h : Digits ds) {n : ℕ} :
    stoull ds = .ok n ↔ n = Decimal.value ds ∧ n < 2 ^ 64 := by
  unfold stoull
  rw [scanNumber_digits h]
  simp only [Bool.false_eq_true, if_false]
  constructor
  · intro hn
    split_ifs at hn with hbig
    cases hn
    exact ⟨rfl, by omega⟩
  · rintro ⟨rfl, hlt⟩
    rw [if_neg (by omega)]

theorem stoull_numeral {n : ℕ} (h : n < 2 ^ 64) : stoull (Decimal.numeral n) = .ok n :=
  (stoull_digits (digits_numeral n)).2 ⟨(Decimal.value_numeral n).symm, h⟩

/-- Reading a written `int64_t` gives it back. -/
theorem stoll_showInt {i : ℤ} (h : -2 ^ 63 ≤ i) (h' : i < 2 ^ 63) : stoll (showInt i) = .ok i := by
  cases i with
  | ofNat n =>
    unfold stoll showInt
    rw [scanNumber_numeral]
    simp only [Bool.false_eq_true, if_false]
    rw [if_pos ⟨by omega, by simpa using h'⟩]
    rfl
  | negSucc n =>
    unfold stoll showInt
    rw [scanNumber_minus_numeral]
    simp only [if_true]
    rw [if_pos (by push_cast; omega)]
    rfl

/-- A written number has no letter in it. -/
theorem not_mem_showInt {i : ℤ} {c : UInt8} (hc : isdigit c = false) (hm : c ≠ '-'.toUInt8) :
    c ∉ showInt i := by
  intro h
  cases i with
  | ofNat n => exact ne_of_isdigit (Decimal.isDigit_of_mem_numeral h) hc rfl
  | negSucc n =>
    rcases List.mem_cons.1 h with h | h
    · exact hm h
    · exact ne_of_isdigit (Decimal.isDigit_of_mem_numeral h) hc rfl

/-! ### What is read as a number -/

section Sign

variable {s t : Bytes} {c : UInt8}

theorem scanNumber_minus (h : s.dropWhile isspace = '-'.toUInt8 :: t) : scanNumber s =
    if t.takeWhile isdigit = [] then none else some (true, Decimal.value (t.takeWhile isdigit)) := by
  rw [scanNumber, h]
  rfl

theorem scanNumber_plus (h : s.dropWhile isspace = '+'.toUInt8 :: t) : scanNumber s =
    if t.takeWhile isdigit = [] then none else some (false, Decimal.value (t.takeWhile isdigit)) := by
  rw [scanNumber, h]
  rfl

theorem scanNumber_unsigned (h : s.dropWhile isspace = c :: t) (hminus : c ≠ '-'.toUInt8)
    (hplus : c ≠ '+'.toUInt8) : scanNumber s = if (c :: t).takeWhile isdigit = [] then none
      else some (false, Decimal.value ((c :: t).takeWhile isdigit)) := by
  rw [scanNumber, h]
  simp only [hminus, hplus, if_false]

end Sign

/-- A text that starts with a number: blanks, a sign or none, digits, and then anything else. -/
structure NumberText (text sign digits : Bytes) : Prop where
  isSign : sign = [] ∨ sign = ascii "+" ∨ sign = ascii "-"
  isDigits : Digits digits
  cut : ∃ blanks junk, (∀ b ∈ blanks, isspace b = true) ∧
    (∀ c, junk.head? = some c → isdigit c = false) ∧ text = blanks ++ (sign ++ (digits ++ junk))

/-- In a text of digits the number is the whole text. -/
theorem NumberText.eq_of_digits {text sign digits : Bytes} (h : NumberText text sign digits)
    (htext : ∀ c ∈ text, isdigit c = true) : sign = [] ∧ digits = text := by
  obtain ⟨blanks, junk, hblanks, hjunk, rfl⟩ := h.cut
  have hno : blanks = [] := by
    refine List.eq_nil_iff_forall_not_mem.2 fun b hb => ?_
    have hdigit := htext b (List.mem_append_left _ hb)
    exact absurd (hblanks b hb) (by simp [not_isspace_of_isdigit hdigit])
  have hsign : sign = [] := by
    rcases h.isSign with hsign | rfl | rfl
    · exact hsign
    · exact absurd (htext '+'.toUInt8 (by simp [ascii])) (by decide)
    · exact absurd (htext '-'.toUInt8 (by simp [ascii])) (by decide)
  have hend : junk = [] := by
    cases junk with
    | nil => rfl
    | cons c junk =>
      have hdigit := htext c (by simp)
      rw [hjunk c rfl] at hdigit
      cases hdigit
  exact ⟨hsign, by rw [hno, hsign, hend, List.append_nil]; rfl⟩

/-- Behind the blanks and the sign there are digits, and then something else. -/
theorem numberText_of_dropWhile {text sign t : Bytes}
    (hsign : sign = [] ∨ sign = ascii "+" ∨ sign = ascii "-")
    (htext : text.dropWhile isspace = sign ++ t) (ht : t.takeWhile isdigit ≠ []) :
    NumberText text sign (t.takeWhile isdigit) := by
  refine ⟨hsign, ⟨ht, fun b hb => List.mem_takeWhile_imp hb⟩, text.takeWhile isspace,
    t.dropWhile isdigit, fun b hb => List.mem_takeWhile_imp hb, fun c hc => ?_, ?_⟩
  · have hhead := List.head?_dropWhile_not isdigit t
    rw [hc] at hhead
    simpa using hhead
  · rw [List.takeWhile_append_dropWhile, ← htext, List.takeWhile_append_dropWhile]

theorem scanNumber_eq_some {text : Bytes} {minus : Bool} {n : ℕ} :
    scanNumber text = some (minus, n) ↔ ∃ sign digits, NumberText text sign digits ∧
      minus = decide (sign = ascii "-") ∧ n = Decimal.value digits := by
  constructor
  · intro h
    cases hs : text.dropWhile isspace with
    | nil =>
      rw [scanNumber, hs] at h
      cases h
    | cons c t =>
      by_cases hminus : c = '-'.toUInt8
      · subst hminus
        rw [scanNumber_minus hs] at h
        split_ifs at h with hnil
        cases h
        exact ⟨ascii "-", _, numberText_of_dropWhile (.inr (.inr rfl)) hs hnil, rfl, rfl⟩
      by_cases hplus : c = '+'.toUInt8
      · subst hplus
        rw [scanNumber_plus hs] at h
        split_ifs at h with hnil
        cases h
        exact ⟨ascii "+", _, numberText_of_dropWhile (.inr (.inl rfl)) hs hnil, rfl, rfl⟩
      · rw [scanNumber_unsigned hs hminus hplus] at h
        split_ifs at h with hnil
        cases h
        exact ⟨[], _, numberText_of_dropWhile (.inl rfl) hs hnil, rfl, rfl⟩
  · rintro ⟨sign, digits, ⟨hsign, hdigits, blanks, junk, hblanks, hjunk, rfl⟩, rfl, rfl⟩
    have htake := Split.takeWhile_append hdigits.2 hjunk
    have hdrop : ∀ {c : UInt8} {t : Bytes}, isspace c = false →
        (blanks ++ c :: t).dropWhile isspace = c :: t := by
      intro c t hc
      refine Split.dropWhile_append hblanks fun x hx => ?_
      cases hx
      exact hc
    rcases hsign with rfl | rfl | rfl
    · obtain ⟨d, ds, rfl⟩ := List.exists_cons_of_ne_nil hdigits.1
      have hd : isdigit d = true := hdigits.2 d List.mem_cons_self
      rw [List.nil_append, List.cons_append] at *
      rw [scanNumber_unsigned (hdrop (not_isspace_of_isdigit hd)) (ne_of_isdigit hd (by decide))
        (ne_of_isdigit hd (by decide)), htake, if_neg hdigits.1]
      rfl
    · have hplus := scanNumber_plus (@hdrop '+'.toUInt8 (digits ++ junk) (by decide))
      rw [htake, if_neg hdigits.1] at hplus
      exact hplus
    · have hminus := scanNumber_minus (@hdrop '-'.toUInt8 (digits ++ junk) (by decide))
      rw [htake, if_neg hdigits.1] at hminus
      exact hminus

/-- `std::stoi` accepts a text that starts with an `int`. -/
theorem stoi_eq_ok_iff {text : Bytes} {v : ℤ} : stoi text = .ok v ↔
    ∃ sign digits, NumberText text sign digits ∧
      v = (if sign = ascii "-" then -(Decimal.value digits : ℤ) else Decimal.value digits) ∧
      -2 ^ 31 ≤ v ∧ v < 2 ^ 31 := by
  rw [stoi]
  constructor
  · intro h
    cases hscan : scanNumber text with
    | none =>
      rw [hscan] at h
      cases h
    | some r =>
      obtain ⟨minus, n⟩ := r
      obtain ⟨sign, digits, htext, rfl, rfl⟩ := scanNumber_eq_some.1 hscan
      rw [hscan] at h
      dsimp only at h
      simp only [decide_eq_true_eq] at h
      split_ifs at h with hsign hrange hrange
      · cases h
        exact ⟨sign, digits, htext, (if_pos hsign).symm, hrange⟩
      · cases h
        exact ⟨sign, digits, htext, (if_neg hsign).symm, hrange⟩
  · rintro ⟨sign, digits, htext, hv, hrange⟩
    rw [scanNumber_eq_some.2 ⟨sign, digits, htext, rfl, rfl⟩]
    simp only [decide_eq_true_eq, ← hv, hrange, and_self, if_true]

/-- Digits are read as the number they denote. -/
theorem stoi_digits {digits : Bytes} (h : Digits digits) (hlt : Decimal.value digits < 2 ^ 31) :
    stoi digits = .ok (Decimal.value digits) := by
  refine stoi_eq_ok_iff.2 ⟨[], digits, ⟨.inl rfl, h, [], [], by simp, by simp, by simp⟩, ?_, ?_, ?_⟩
  · rw [if_neg (by decide)]
  · omega
  · omega

end Cxx

end Gush
