import Gush.Magnet.Link

/-!
# Percent-decoding

`urlDecode` reads the two bytes behind a percent sign from a stream, which takes less than two
digits, and it forgets the percent sign if there is no number. `urlDecode_eq_iff` says when this is
percent-decoding as it should be.
-/

namespace Gush.Magnet

open Cxx Utils

variable {c c₁ c₂ : UInt8} {s : Bytes}

/-- A byte that is not part of an escape. -/
def plainByte (c : UInt8) : UInt8 := if c = '+'.toUInt8 then ' '.toUInt8 else c

/-- The byte of two hexadecimal digits. -/
def escapedByte (c₁ c₂ : UInt8) : UInt8 :=
  UInt8.ofNat (16 * (hexValue c₁).getD 0 + (hexValue c₂).getD 0)

/-- A percent sign with two hexadecimal digits is their byte, a plus sign is a space, and every other
byte is itself. -/
def percentDecode : Bytes → Bytes
  | [] => []
  | [c] => [plainByte c]
  | [c, c'] => [plainByte c, plainByte c']
  | c :: c₁ :: c₂ :: rest =>
    if c = '%'.toUInt8 ∧ isxdigit c₁ = true ∧ isxdigit c₂ = true then
      escapedByte c₁ c₂ :: percentDecode rest
    else plainByte c :: percentDecode (c₁ :: c₂ :: rest)

/-- Induction over a text: bytes that start no escape, percent signs with two bytes behind them. -/
@[elab_as_elim]
theorem escape_induction {motive : Bytes → Prop} (nil : motive [])
    (plain : ∀ c s, c ≠ '%'.toUInt8 ∨ s.length < 2 → motive s → motive (c :: s))
    (percent : ∀ c₁ c₂ rest, motive rest → motive (c₁ :: c₂ :: rest) →
      motive ('%'.toUInt8 :: c₁ :: c₂ :: rest)) : ∀ s, motive s
  | [] => nil
  | [c] => plain c [] (.inr (by simp)) nil
  | [c, c'] => plain c [c'] (.inr (by simp)) (plain c' [] (.inr (by simp)) nil)
  | c :: c₁ :: c₂ :: rest => by
    have hrest := escape_induction nil plain percent rest
    have htail := escape_induction nil plain percent (c₁ :: c₂ :: rest)
    by_cases h : c = '%'.toUInt8
    · exact h ▸ percent c₁ c₂ rest hrest htail
    · exact plain c _ (.inl h) htail

theorem percentDecode_escape (h₁ : isxdigit c₁ = true) (h₂ : isxdigit c₂ = true) :
    percentDecode ('%'.toUInt8 :: c₁ :: c₂ :: s) = escapedByte c₁ c₂ :: percentDecode s := by
  rw [percentDecode, if_pos ⟨rfl, h₁, h₂⟩]

theorem percentDecode_percent (h : ¬ (isxdigit c₁ = true ∧ isxdigit c₂ = true)) :
    percentDecode ('%'.toUInt8 :: c₁ :: c₂ :: s) = '%'.toUInt8 :: percentDecode (c₁ :: c₂ :: s) := by
  rw [percentDecode, if_neg fun hc => h hc.2]
  rfl

theorem percentDecode_cons (h : c ≠ '%'.toUInt8 ∨ s.length < 2) :
    percentDecode (c :: s) = plainByte c :: percentDecode s := by
  match s with
  | [] => rfl
  | [_] => rfl
  | c₁ :: c₂ :: rest =>
    have hc : c ≠ '%'.toUInt8 := h.resolve_right (by simp)
    rw [percentDecode, if_neg fun hc' => hc hc'.1]

theorem ne_percent_of_isxdigit (h : isxdigit c = true) : c ≠ '%'.toUInt8 := by
  rintro rfl
  exact absurd h (by decide)

/-- Leaving out the first byte makes at most one byte of difference. -/
theorem length_percentDecode_le (c : UInt8) (s : Bytes) :
    (percentDecode s).length ≤ (percentDecode (c :: s)).length + 1 := by
  by_cases h : c ≠ '%'.toUInt8 ∨ s.length < 2
  · rw [percentDecode_cons h, List.length_cons]
    omega
  · obtain ⟨hc, hlen⟩ := not_or.1 h
    obtain rfl : c = '%'.toUInt8 := not_not.1 hc
    match s with
    | [] | [_] => simp at hlen
    | c₁ :: c₂ :: rest =>
      by_cases hdigits : isxdigit c₁ = true ∧ isxdigit c₂ = true
      · rw [percentDecode_escape hdigits.1 hdigits.2,
          percentDecode_cons (.inl (ne_percent_of_isxdigit hdigits.1)),
          percentDecode_cons (.inl (ne_percent_of_isxdigit hdigits.2))]
        simp
      · rw [percentDecode_percent hdigits, List.length_cons]
        omega

/-! ### Reading a number from two bytes -/

theorem hexValue_lt {n : ℕ} (h : hexValue c = some n) : n < 16 := by
  unfold hexValue at h
  split_ifs at h <;> cases h <;> omega

/-- The digits that stand behind the blanks and the sign. -/
def hexDigits (s : Bytes) : Bytes :=
  (if s.take 2 = ascii "0x" ∨ s.take 2 = ascii "0X" then s.drop 2 else s).takeWhile isxdigit

/-- The number of some digits. -/
def hexNumber (ds : Bytes) : ℕ := ds.foldl (fun n c => 16 * n + (hexValue c).getD 0) 0

theorem isInfix_hexDigits (s : Bytes) : hexDigits s <:+: s := by
  unfold hexDigits
  split_ifs
  · exact (List.takeWhile_prefix _).isInfix.trans (List.drop_suffix 2 s).isInfix
  · exact (List.takeWhile_prefix _).isInfix

section Sign

variable {t : Bytes}

theorem readHex_minus (h : s.dropWhile isspace = '-'.toUInt8 :: t) :
    readHex s = if hexDigits t = [] then none else some (-(hexNumber (hexDigits t) : ℤ)) := by
  rw [readHex, h]
  rfl

theorem readHex_plus (h : s.dropWhile isspace = '+'.toUInt8 :: t) :
    readHex s = if hexDigits t = [] then none else some (hexNumber (hexDigits t) : ℤ) := by
  rw [readHex, h]
  rfl

theorem readHex_unsigned (h : s.dropWhile isspace = c :: t) (hminus : c ≠ '-'.toUInt8)
    (hplus : c ≠ '+'.toUInt8) : readHex s =
      if hexDigits (c :: t) = [] then none else some (hexNumber (hexDigits (c :: t)) : ℤ) := by
  rw [readHex, h]
  simp only [hminus, hplus, if_false]
  rfl

end Sign

/-- The number is written in some of the bytes. -/
theorem readHex_eq_some {value : ℤ} (h : readHex s = some value) :
    ∃ ds, ds <:+: s ∧ ds ≠ [] ∧ (∀ d ∈ ds, isxdigit d = true) ∧
      (value = hexNumber ds ∨ value = -(hexNumber ds : ℤ)) := by
  have hall : ∀ t : Bytes, ∀ d ∈ hexDigits t, isxdigit d = true :=
    fun t d hd => List.mem_takeWhile_imp hd
  have hsuffix : s.dropWhile isspace <:+ s := List.dropWhile_suffix isspace
  cases hs : s.dropWhile isspace with
  | nil =>
    rw [readHex, hs] at h
    cases h
  | cons c t =>
    rw [hs] at hsuffix
    have ht : hexDigits t <:+: s := (isInfix_hexDigits t).trans
      (((List.suffix_cons c t).trans hsuffix).isInfix)
    have hct : hexDigits (c :: t) <:+: s := (isInfix_hexDigits (c :: t)).trans hsuffix.isInfix
    by_cases hminus : c = '-'.toUInt8
    · rw [readHex_minus (hminus ▸ hs)] at h
      split_ifs at h with hnil
      exact ⟨hexDigits t, ht, hnil, hall t, .inr (Option.some.inj h).symm⟩
    by_cases hplus : c = '+'.toUInt8
    · rw [readHex_plus (hplus ▸ hs)] at h
      split_ifs at h with hnil
      exact ⟨hexDigits t, ht, hnil, hall t, .inl (Option.some.inj h).symm⟩
    · rw [readHex_unsigned hs hminus hplus] at h
      split_ifs at h with hnil
      exact ⟨hexDigits (c :: t), hct, hnil, hall _, .inl (Option.some.inj h).symm⟩

theorem not_isspace_of_isxdigit (h : isxdigit c = true) : isspace c = false := by
  unfold isxdigit hexValue at h
  unfold isspace
  split_ifs at h <;> simp at h ⊢ <;> omega

/-- Two digits are a byte. -/
theorem readHex_digits (h₁ : isxdigit c₁ = true) (h₂ : isxdigit c₂ = true) :
    ∃ value, readHex [c₁, c₂] = some value ∧ UInt8.ofInt value = escapedByte c₁ c₂ := by
  have hspace : [c₁, c₂].dropWhile isspace = [c₁, c₂] := by
    rw [List.dropWhile_cons, if_neg (by simp [not_isspace_of_isxdigit h₁])]
  have hne : ∀ d : UInt8, isxdigit d = false → c₁ ≠ d ∧ c₂ ≠ d := by
    rintro d hd
    refine ⟨?_, ?_⟩ <;> rintro rfl <;> simp_all
  have hds : hexDigits [c₁, c₂] = [c₁, c₂] := by
    have hx := (hne 'x'.toUInt8 (by decide)).2
    have hX := (hne 'X'.toUInt8 (by decide)).2
    rw [hexDigits, if_neg]
    · simp [h₁, h₂]
    · rintro (h | h)
      · exact hx (List.cons.inj (List.cons.inj h).2).1
      · exact hX (List.cons.inj (List.cons.inj h).2).1
  have hread := readHex_unsigned hspace (hne _ (by decide)).1 (hne _ (by decide)).1
  rw [hds, if_neg (by simp)] at hread
  obtain ⟨high, hhigh⟩ := Option.isSome_iff_exists.1 h₁
  obtain ⟨low, hlow⟩ := Option.isSome_iff_exists.1 h₂
  have hhighlt := hexValue_lt hhigh
  have hlowlt := hexValue_lt hlow
  have hnumber : hexNumber [c₁, c₂] = 16 * high + low := by simp [hexNumber, hhigh, hlow]
  have hmod : (((16 * high + low : ℕ) : ℤ) % 2 ^ 8).toNat = 16 * high + low := by omega
  refine ⟨_, hread, ?_⟩
  rw [hnumber, UInt8.ofInt, hmod, escapedByte, hhigh, hlow]
  rfl

/-- A number of two bytes that are not both digits has one digit. -/
theorem readHex_short {value : ℤ} (h : readHex [c₁, c₂] = some value)
    (hdigits : ¬ (isxdigit c₁ = true ∧ isxdigit c₂ = true)) : -16 < value ∧ value < 16 := by
  obtain ⟨ds, ⟨front, back, hcut⟩, hne, hall, hvalue⟩ := readHex_eq_some h
  have hlen := congrArg List.length hcut
  simp only [List.length_append, List.length_cons, List.length_nil] at hlen
  match ds, hne with
  | [d], _ =>
    obtain ⟨n, hn⟩ := Option.isSome_iff_exists.1 (hall d List.mem_cons_self)
    have hlt := hexValue_lt hn
    have hnumber : hexNumber [d] = n := by simp [hexNumber, hn]
    omega
  | d :: d' :: ds, _ =>
    simp only [List.length_cons] at hlen
    obtain rfl : front = [] := List.length_eq_zero_iff.1 (by omega)
    obtain rfl : ds = [] := List.length_eq_zero_iff.1 (by omega)
    obtain rfl : back = [] := List.length_eq_zero_iff.1 (by omega)
    cases hcut
    exact absurd ⟨hall _ (by simp), hall _ (by simp)⟩ hdigits

/-! ### What `urlDecode` does -/

theorem urlDecode_of_plain (h : c ≠ '%'.toUInt8 ∨ s.length < 2) :
    urlDecode (c :: s) = plainByte c :: urlDecode s := by
  match s with
  | [] => rfl
  | [_] => rfl
  | c₁ :: c₂ :: rest =>
    have hc : c ≠ '%'.toUInt8 := h.resolve_right (by simp)
    rw [urlDecode, if_neg hc, plainByte]
    split_ifs <;> rfl

/-- The percent sign is forgotten if no number follows. -/
theorem urlDecode_percent (c₁ c₂ : UInt8) (s : Bytes) :
    urlDecode ('%'.toUInt8 :: c₁ :: c₂ :: s) =
      (readHex [c₁, c₂]).elim (urlDecode (c₁ :: c₂ :: s)) fun value =>
        UInt8.ofInt value :: urlDecode s := by
  rw [urlDecode, if_pos rfl]
  cases readHex [c₁, c₂] <;> rfl

/-- A number never reads as a percent sign. -/
theorem readHex_percent (rest : Bytes) : readHex ('%'.toUInt8 :: rest) = none := by
  have hspace : ('%'.toUInt8 :: rest).dropWhile isspace = '%'.toUInt8 :: rest := by
    rw [List.dropWhile_cons, if_neg (by decide)]
  have hds : hexDigits ('%'.toUInt8 :: rest) = [] := by
    rw [hexDigits, if_neg]
    · rw [List.takeWhile_cons, if_neg (by decide)]
    · rintro (h | h)
      · exact absurd (List.cons.inj h).1 (by decide)
      · exact absurd (List.cons.inj h).1 (by decide)
  rw [readHex_unsigned hspace (by decide) (by decide), if_pos hds]

/-- Nothing is added. -/
theorem length_urlDecode_le (s : Bytes) : (urlDecode s).length ≤ (percentDecode s).length := by
  induction s using escape_induction with
  | nil => exact le_rfl
  | plain c s h ih =>
    rw [urlDecode_of_plain h, percentDecode_cons h, List.length_cons, List.length_cons]
    exact Nat.succ_le_succ ih
  | percent c₁ c₂ rest ih ih' =>
    rw [urlDecode_percent]
    by_cases hdigits : isxdigit c₁ = true ∧ isxdigit c₂ = true
    · obtain ⟨value, hread, -⟩ := readHex_digits hdigits.1 hdigits.2
      rw [hread, percentDecode_escape hdigits.1 hdigits.2]
      exact Nat.succ_le_succ ih
    · rw [percentDecode_percent hdigits, List.length_cons]
      cases hread : readHex [c₁, c₂] with
      | none => exact ih'.trans (Nat.le_succ _)
      | some value =>
        -- the two bytes that are taken for a number are at least one byte when they are copied
        have hc₁ : c₁ ≠ '%'.toUInt8 := by
          rintro rfl
          rw [readHex_percent] at hread
          cases hread
        have hle := length_percentDecode_le c₂ rest
        rw [percentDecode_cons (.inl hc₁), List.length_cons]
        exact Nat.succ_le_succ (ih.trans hle)

/-- A percent sign that two bytes follow is followed by two hexadecimal digits. -/
def WellEscaped (s : Bytes) : Prop :=
  ∀ front c₁ c₂ rest, s = front ++ '%'.toUInt8 :: c₁ :: c₂ :: rest →
    isxdigit c₁ = true ∧ isxdigit c₂ = true

theorem wellEscaped_cons (h : c ≠ '%'.toUInt8 ∨ s.length < 2) :
    WellEscaped (c :: s) ↔ WellEscaped s := by
  constructor
  · exact fun hall front c₁ c₂ rest hs => hall (c :: front) c₁ c₂ rest (by rw [hs, List.cons_append])
  · intro hall front c₁ c₂ rest hs
    cases front with
    | nil =>
      obtain ⟨rfl, rfl⟩ := List.cons.inj hs
      exact (h.elim (fun hc => hc rfl) (by simp)).elim
    | cons d front => exact hall front c₁ c₂ rest (List.cons.inj hs).2

theorem wellEscaped_percent : WellEscaped ('%'.toUInt8 :: c₁ :: c₂ :: s) ↔
    (isxdigit c₁ = true ∧ isxdigit c₂ = true) ∧ WellEscaped s := by
  constructor
  · intro hall
    have hdigits := hall [] c₁ c₂ s rfl
    refine ⟨hdigits, fun front d₁ d₂ rest hs => ?_⟩
    exact hall ('%'.toUInt8 :: c₁ :: c₂ :: front) d₁ d₂ rest (by rw [hs]; rfl)
  · rintro ⟨hdigits, hall⟩
    have htail : WellEscaped (c₁ :: c₂ :: s) :=
      (wellEscaped_cons (.inl (ne_percent_of_isxdigit hdigits.1))).2
        ((wellEscaped_cons (.inl (ne_percent_of_isxdigit hdigits.2))).2 hall)
    intro front d₁ d₂ rest hs
    cases front with
    | nil =>
      cases hs
      exact hdigits
    | cons d front => exact htail front d₁ d₂ rest (List.cons.inj hs).2

/-- **Main result.** A text is decoded as it should be if and only if every percent sign that two
bytes follow is followed by two hexadecimal digits. -/
theorem urlDecode_eq_iff (s : Bytes) : urlDecode s = percentDecode s ↔ WellEscaped s := by
  induction s using escape_induction with
  | nil => exact iff_of_true rfl fun front c₁ c₂ rest hs => by simp at hs
  | plain c s h ih =>
    rw [urlDecode_of_plain h, percentDecode_cons h, wellEscaped_cons h, ← ih, List.cons_inj_right]
  | percent c₁ c₂ rest ih ih' =>
    rw [urlDecode_percent, wellEscaped_percent]
    by_cases hdigits : isxdigit c₁ = true ∧ isxdigit c₂ = true
    · obtain ⟨value, hread, hbyte⟩ := readHex_digits hdigits.1 hdigits.2
      rw [hread, percentDecode_escape hdigits.1 hdigits.2, ← hbyte, ← ih]
      simp [hdigits]
    · rw [percentDecode_percent hdigits]
      refine iff_of_false (fun heq => ?_) fun h => hdigits h.1
      cases hread : readHex [c₁, c₂] with
      -- the percent sign is missing, and nothing makes up for it
      | none =>
        have hle := length_urlDecode_le (c₁ :: c₂ :: rest)
        rw [hread, Option.elim_none] at heq
        rw [heq, List.length_cons] at hle
        omega
      -- the first byte is too small, or too large, for a percent sign
      | some value =>
        obtain ⟨hlow, hhigh⟩ := readHex_short hread hdigits
        rw [hread] at heq
        have hbyte : UInt8.ofInt value = '%'.toUInt8 := (List.cons.inj heq).1
        have hnat := congrArg UInt8.toNat hbyte
        rw [UInt8.ofInt, UInt8.toNat_ofNat', show '%'.toUInt8.toNat = 37 from rfl] at hnat
        omega

/-- A percent sign that stands for itself. -/
def discount : Bytes := ascii "50% off"

/-- The percent sign is lost. -/
theorem not_forall_urlDecode_eq : ¬ ∀ s : Bytes, urlDecode s = percentDecode s :=
  fun h => absurd (h discount) (by decide)

end Gush.Magnet
