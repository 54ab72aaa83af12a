import Gush.Bencode.Value

/-!
# The bencode parser

`parseImpl` reads one value at a position of the data. Its loops are recursions on fuel: `none`
means that the fuel ran out, `some (.error e)` that the code throws `e`, and `some (.ok (v, p))`
that it returns `v` and leaves the position at `p`.

`Parses data pos r` says that the code ends at `pos` with the outcome `r`, for some fuel and then
for every larger one. The rules below are the equations of the code for `Parses` and for its two
loops; everything that follows is proved from them, and no later proof mentions fuel.
-/

namespace Gush.Bencode

open Cxx

/-- What a parse ends with: an exception, or a result and the position behind it. -/
abbrev Outcome := Except Exn (BencodeValue × ℕ)

/-- The integer case: `i<number>e`. -/
def parseInt (data : Bytes) (pos : ℕ) : Outcome :=
  match find data 'e'.toUInt8 (pos + 1) with
  | none => throwRuntime "Unterminated integer"
  | some stop =>
    match stoll (substr data (pos + 1) (stop - (pos + 1))) with
    | .error e => .error e
    | .ok i => .ok (.int i, stop + 1)

/-- The string case: `<length>:<data>`. The sum in the bound check is one of `size_t`. -/
def parseString (data : Bytes) (pos : ℕ) : Outcome :=
  match find data ':'.toUInt8 pos with
  | none => throwRuntime "Missing colon in string"
  | some colon =>
    match stoull (substr data pos (colon - pos)) with
    | .error e => .error e
    | .ok length =>
      if sizeAdd (colon + 1) length > data.length then
        throwRuntime "String length exceeds data"
      else .ok (.str (substr data (colon + 1) length), sizeAdd (colon + 1) length)

mutual

/-- `parseImpl`, by the byte at `pos`. -/
def parseImpl : ℕ → Bytes → ℕ → Option Outcome
  | 0, _, _ => none
  | fuel + 1, data, pos =>
    match data[pos]? with
    | none => some (throwRuntime "Unexpected end of bencode data")
    | some c =>
      if c = 'i'.toUInt8 then some (parseInt data pos)
      else if isdigit c then some (parseString data pos)
      else if c = 'l'.toUInt8 then listLoop fuel data (pos + 1) []
      else if c = 'd'.toUInt8 then dictLoop fuel data (pos + 1) []
      else some (.error (.runtimeError (ascii "Invalid bencode character: " ++ [c])))

/-- The loop of the list case, with the items read so far. -/
def listLoop : ℕ → Bytes → ℕ → List BencodeValue → Option Outcome
  | 0, _, _, _ => none
  | fuel + 1, data, pos, list =>
    match data[pos]? with
    | none => some (throwRuntime "Unterminated list")
    | some c =>
      if c = 'e'.toUInt8 then some (.ok (.list list, pos + 1))
      else
        match parseImpl fuel data pos with
        | none => none
        | some (.error e) => some (.error e)
        | some (.ok (v, pos')) => listLoop fuel data pos' (list ++ [v])

/-- The loop of the dictionary case, with the map built so far. -/
def dictLoop : ℕ → Bytes → ℕ → BencodeDict → Option Outcome
  | 0, _, _, _ => none
  | fuel + 1, data, pos, dict =>
    match data[pos]? with
    | none => some (throwRuntime "Unterminated dictionary")
    | some c =>
      if c = 'e'.toUInt8 then some (.ok (.dict dict, pos + 1))
      else
        match parseImpl fuel data pos with
        | none => none
        | some (.error e) => some (.error e)
        | some (.ok (.str key, pos')) =>
          match parseImpl fuel data pos' with
          | none => none
          | some (.error e) => some (.error e)
          | some (.ok (v, pos'')) => dictLoop fuel data pos'' (dictInsert key v dict)
        | some (.ok _) => some (throwRuntime "Dictionary key must be a string")

end

/-- The code ends at `pos` with the outcome `r`. -/
def Parses (data : Bytes) (pos : ℕ) (r : Outcome) : Prop := ∃ fuel, parseImpl fuel data pos = some r

/-- The list loop at `pos`, with the items `list` read, ends with the outcome `r`. -/
def ListLoops (data : Bytes) (pos : ℕ) (list : List BencodeValue) (r : Outcome) : Prop :=
  ∃ fuel, listLoop fuel data pos list = some r

/-- The dictionary loop at `pos`, with the map `dict` built, ends with the outcome `r`. -/
def DictLoops (data : Bytes) (pos : ℕ) (dict : BencodeDict) (r : Outcome) : Prop :=
  ∃ fuel, dictLoop fuel data pos dict = some r

/-! ### More fuel changes no outcome -/

theorem succ_fuel (data : Bytes) (fuel : ℕ) :
    (∀ pos r, parseImpl fuel data pos = some r → parseImpl (fuel + 1) data pos = some r) ∧
    (∀ pos list r, listLoop fuel data pos list = some r →
      listLoop (fuel + 1) data pos list = some r) ∧
    (∀ pos dict r, dictLoop fuel data pos dict = some r →
      dictLoop (fuel + 1) data pos dict = some r) := by
  -- the functions call each other with less fuel, so they share the induction
  induction fuel with
  | zero =>
    refine ⟨fun pos r h => ?_, fun pos list r h => ?_, fun pos dict r h => ?_⟩
    · simp [parseImpl] at h
    · simp [listLoop] at h
    · simp [dictLoop] at h
  | succ fuel ih =>
    obtain ⟨ihp, ihl, ihd⟩ := ih
    refine ⟨fun pos r h => ?_, fun pos list r h => ?_, fun pos dict r h => ?_⟩
    · rw [parseImpl] at h ⊢
      split at h
      · exact h
      · split_ifs at h ⊢
        · exact h
        · exact h
        · exact ihl _ _ _ h
        · exact ihd _ _ _ h
        · exact h
    · rw [listLoop] at h ⊢
      split at h
      · exact h
      · split_ifs at h ⊢
        · exact h
        · split at h
          · cases h
          · rename_i e he
            rw [ihp _ _ he]; exact h
          · rename_i v pos' hv
            rw [ihp _ _ hv]; exact ihl _ _ _ h
    · rw [dictLoop] at h ⊢
      split at h
      · exact h
      · split_ifs at h ⊢
        · exact h
        · split at h
          · cases h
          · rename_i e he
            rw [ihp _ _ he]; exact h
          · rename_i key pos' hk
            rw [ihp _ _ hk]
            split at h
            · cases h
            · rename_i e he
              simp only [ihp _ _ he]; exact h
            · rename_i v pos'' hv
              simp only [ihp _ _ hv]; exact ihd _ _ _ h
          -- a key of another kind: both sides raise the same error
          · rename_i x hns hx
            rw [ihp _ _ hx]
            obtain ⟨v, p⟩ := x
            cases v with
            | str key => exact absurd rfl (hns key p)
            | int _ => exact h
            | list _ => exact h
            | dict _ => exact h

theorem parseImpl_mono {data : Bytes} {pos m n : ℕ} {r : Outcome} (hmn : m ≤ n)
    (h : parseImpl m data pos = some r) : parseImpl n data pos = some r :=
  Nat.le_induction h (fun k _ ih => (succ_fuel data k).1 pos r ih) n hmn

theorem listLoop_mono {data : Bytes} {pos m n : ℕ} {list : List BencodeValue} {r : Outcome}
    (hmn : m ≤ n) (h : listLoop m data pos list = some r) : listLoop n data pos list = some r :=
  Nat.le_induction h (fun k _ ih => (succ_fuel data k).2.1 pos list r ih) n hmn

theorem dictLoop_mono {data : Bytes} {pos m n : ℕ} {dict : BencodeDict} {r : Outcome}
    (hmn : m ≤ n) (h : dictLoop m data pos dict = some r) : dictLoop n data pos dict = some r :=
  Nat.le_induction h (fun k _ ih => (succ_fuel data k).2.2 pos dict r ih) n hmn

/-- The outcome is determined by the data and the position. -/
theorem Parses.unique {data : Bytes} {pos : ℕ} {r r' : Outcome} (h : Parses data pos r)
    (h' : Parses data pos r') : r = r' := by
  obtain ⟨m, hm⟩ := h
  obtain ⟨n, hn⟩ := h'
  have hm' := parseImpl_mono (le_max_left m n) hm
  have hn' := parseImpl_mono (le_max_right m n) hn
  exact Option.some.inj (hm'.symm.trans hn')

/-! ### The rules of `parseImpl` -/

/-- A function of the fuel that is constant from one unit of fuel on. -/
theorem exists_fuel_iff {f : ℕ → Option Outcome} {x r : Outcome} (h0 : f 0 = none)
    (h : ∀ fuel, f (fuel + 1) = some x) : (∃ fuel, f fuel = some r) ↔ r = x := by
  constructor
  · rintro ⟨_ | fuel, hf⟩
    · rw [h0] at hf; cases hf
    · rw [h] at hf; exact (Option.some.inj hf).symm
  · rintro rfl
    exact ⟨1, h 0⟩

/-- A function of the fuel that hands all but one unit of it on. -/
theorem exists_fuel_succ_iff {f g : ℕ → Option Outcome} {r : Outcome} (h0 : f 0 = none)
    (h : ∀ fuel, f (fuel + 1) = g fuel) :
    (∃ fuel, f fuel = some r) ↔ ∃ fuel, g fuel = some r := by
  constructor
  · rintro ⟨_ | fuel, hf⟩
    · rw [h0] at hf; cases hf
    · exact ⟨fuel, by rw [← h]; exact hf⟩
  · rintro ⟨fuel, hf⟩
    exact ⟨fuel + 1, by rw [h]; exact hf⟩

section Rules

variable {data : Bytes} {pos : ℕ} {r : Outcome} {c : UInt8}

theorem parses_end (h : data[pos]? = none) :
    Parses data pos r ↔ r = throwRuntime "Unexpected end of bencode data" :=
  exists_fuel_iff rfl fun fuel => by simp [parseImpl, h]

theorem parses_int (h : data[pos]? = some 'i'.toUInt8) :
    Parses data pos r ↔ r = parseInt data pos :=
  exists_fuel_iff rfl fun fuel => by simp [parseImpl, h]

theorem parses_string (h : data[pos]? = some c) (hc : isdigit c = true) :
    Parses data pos r ↔ r = parseString data pos :=
  exists_fuel_iff rfl fun fuel => by
    have hi : c ≠ 'i'.toUInt8 := ne_of_isdigit hc (by decide)
    simp [parseImpl, h, hc, hi]

theorem parses_list (h : data[pos]? = some 'l'.toUInt8) :
    Parses data pos r ↔ ListLoops data (pos + 1) [] r :=
  exists_fuel_succ_iff rfl fun fuel => by
    rw [parseImpl, h]
    rfl

theorem parses_dict (h : data[pos]? = some 'd'.toUInt8) :
    Parses data pos r ↔ DictLoops data (pos + 1) [] r :=
  exists_fuel_succ_iff rfl fun fuel => by
    rw [parseImpl, h]
    rfl

theorem parses_invalid (h : data[pos]? = some c) (hi : c ≠ 'i'.toUInt8)
    (hs : isdigit c = false) (hl : c ≠ 'l'.toUInt8) (hd : c ≠ 'd'.toUInt8) :
    Parses data pos r ↔
      r = .error (.runtimeError (ascii "Invalid bencode character: " ++ [c])) :=
  exists_fuel_iff rfl fun fuel => by simp [parseImpl, h, hi, hs, hl, hd]

/-- The byte at a position decides the case of the parser. -/
theorem lead_cases (data : Bytes) (pos : ℕ) :
    data[pos]? = none ∨ data[pos]? = some 'i'.toUInt8 ∨
      (∃ c, data[pos]? = some c ∧ isdigit c = true) ∨ data[pos]? = some 'l'.toUInt8 ∨
      data[pos]? = some 'd'.toUInt8 ∨
      ∃ c, data[pos]? = some c ∧ c ≠ 'i'.toUInt8 ∧ isdigit c = false ∧ c ≠ 'l'.toUInt8 ∧
        c ≠ 'd'.toUInt8 := by
  cases h : data[pos]? with
  | none => exact .inl rfl
  | some c =>
    by_cases hi : c = 'i'.toUInt8
    · exact .inr (.inl (by rw [hi]))
    by_cases hs : isdigit c = true
    · exact .inr (.inr (.inl ⟨c, rfl, hs⟩))
    by_cases hl : c = 'l'.toUInt8
    · exact .inr (.inr (.inr (.inl (by rw [hl]))))
    by_cases hd : c = 'd'.toUInt8
    · exact .inr (.inr (.inr (.inr (.inl (by rw [hd])))))
    exact .inr (.inr (.inr (.inr (.inr ⟨c, rfl, hi, by simpa using hs, hl, hd⟩))))

/-! ### The rules of the two loops -/

theorem listLoops_unterminated {list : List BencodeValue} (h : data[pos]? = none) :
    ListLoops data pos list r ↔ r = throwRuntime "Unterminated list" :=
  exists_fuel_iff rfl fun fuel => by simp [listLoop, h]

theorem listLoops_end {list : List BencodeValue} (h : data[pos]? = some 'e'.toUInt8) :
    ListLoops data pos list r ↔ r = .ok (.list list, pos + 1) :=
  exists_fuel_iff rfl fun fuel => by simp [listLoop, h]

theorem listLoops_item {list : List BencodeValue} (h : data[pos]? = some c)
    (hc : c ≠ 'e'.toUInt8) :
    ListLoops data pos list r ↔
      (∃ e, Parses data pos (.error e) ∧ r = .error e) ∨
      ∃ v p, Parses data pos (.ok (v, p)) ∧ ListLoops data p (list ++ [v]) r := by
  constructor
  · rintro ⟨_ | fuel, hf⟩
    · simp [listLoop] at hf
    · rw [listLoop, h] at hf
      simp only [hc, if_false] at hf
      split at hf
      · cases hf
      · rename_i e he
        exact .inl ⟨e, ⟨fuel, he⟩, (Option.some.inj hf).symm⟩
      · rename_i v p hv
        exact .inr ⟨v, p, ⟨fuel, hv⟩, fuel, hf⟩
  · rintro (⟨e, ⟨fuel, he⟩, rfl⟩ | ⟨v, p, ⟨m, hm⟩, n, hn⟩)
    · exact ⟨fuel + 1, by rw [listLoop, h]; simp only [hc, if_false, he]⟩
    · refine ⟨max m n + 1, ?_⟩
      rw [listLoop, h]
      simp only [hc, if_false, parseImpl_mono (le_max_left m n) hm]
      exact listLoop_mono (le_max_right m n) hn

theorem dictLoops_unterminated {dict : BencodeDict} (h : data[pos]? = none) :
    DictLoops data pos dict r ↔ r = throwRuntime "Unterminated dictionary" :=
  exists_fuel_iff rfl fun fuel => by simp [dictLoop, h]

theorem dictLoops_end {dict : BencodeDict} (h : data[pos]? = some 'e'.toUInt8) :
    DictLoops data pos dict r ↔ r = .ok (.dict dict, pos + 1) :=
  exists_fuel_iff rfl fun fuel => by simp [dictLoop, h]

theorem dictLoops_entry {dict : BencodeDict} (h : data[pos]? = some c) (hc : c ≠ 'e'.toUInt8) :
    DictLoops data pos dict r ↔
      (∃ e, Parses data pos (.error e) ∧ r = .error e) ∨
      (∃ v p, Parses data pos (.ok (v, p)) ∧ (∀ key, v ≠ .str key) ∧
        r = throwRuntime "Dictionary key must be a string") ∨
      ∃ key p, Parses data pos (.ok (.str key, p)) ∧
        ((∃ e, Parses data p (.error e) ∧ r = .error e) ∨
          ∃ v p', Parses data p (.ok (v, p')) ∧ DictLoops data p' (dictInsert key v dict) r) := by
  constructor
  · rintro ⟨_ | fuel, hf⟩
    · simp [dictLoop] at hf
    · rw [dictLoop, h] at hf
      simp only [hc, if_false] at hf
      split at hf
      · cases hf
      · rename_i e he
        exact .inl ⟨e, ⟨fuel, he⟩, (Option.some.inj hf).symm⟩
      · rename_i key p hk
        refine .inr (.inr ⟨key, p, ⟨fuel, hk⟩, ?_⟩)
        split at hf
        · cases hf
        · rename_i e he
          exact .inl ⟨e, ⟨fuel, he⟩, (Option.some.inj hf).symm⟩
        · rename_i v p' hv
          exact .inr ⟨v, p', ⟨fuel, hv⟩, fuel, hf⟩
      · rename_i x hns hx
        obtain ⟨v, p⟩ := x
        refine .inr (.inl ⟨v, p, ⟨fuel, hx⟩, ?_, (Option.some.inj hf).symm⟩)
        rintro key rfl
        exact hns key p rfl
  · rintro (⟨e, ⟨fuel, he⟩, rfl⟩ | ⟨v, p, ⟨fuel, hv⟩, hns, rfl⟩ |
      ⟨key, p, ⟨m, hm⟩, ⟨e, ⟨n, hn⟩, rfl⟩ | ⟨v, p', ⟨n, hn⟩, k, hk⟩⟩)
    · exact ⟨fuel + 1, by rw [dictLoop, h]; simp only [hc, if_false, he]⟩
    · refine ⟨fuel + 1, ?_⟩
      rw [dictLoop, h]
      simp only [hc, if_false, hv]
      cases v with
      | str key => exact absurd rfl (hns key)
      | int _ => rfl
      | list _ => rfl
      | dict _ => rfl
    -- key and value may need different amounts of fuel; the larger one does for both
    · refine ⟨max m n + 1, ?_⟩
      rw [dictLoop, h]
      simp only [hc, if_false, parseImpl_mono (le_max_left m n) hm,
        parseImpl_mono (le_max_right m n) hn]
    · refine ⟨max m (max n k) + 1, ?_⟩
      rw [dictLoop, h]
      simp only [hc, if_false, parseImpl_mono (le_max_left m (max n k)) hm,
        parseImpl_mono ((le_max_left n k).trans (le_max_right m _)) hn]
      exact dictLoop_mono ((le_max_right n k).trans (le_max_right m _)) hk

end Rules

/-! ### What the loops return -/

theorem listLoop_ok {data : Bytes} (fuel : ℕ) {pos p : ℕ} {list : List BencodeValue}
    {v : BencodeValue} (h : listLoop fuel data pos list = some (.ok (v, p))) :
    ∃ l, v = .list l := by
  induction fuel generalizing pos list with
  | zero => simp [listLoop] at h
  | succ fuel ih =>
    rw [listLoop] at h
    split at h
    · cases h
    · split_ifs at h
      · cases h; exact ⟨_, rfl⟩
      · split at h
        · cases h
        · cases h
        · exact ih h

theorem dictLoop_ok {data : Bytes} (fuel : ℕ) {pos p : ℕ} {dict : BencodeDict}
    {v : BencodeValue} (h : dictLoop fuel data pos dict = some (.ok (v, p))) :
    ∃ d, v = .dict d := by
  induction fuel generalizing pos dict with
  | zero => simp [dictLoop] at h
  | succ fuel ih =>
    rw [dictLoop] at h
    split at h
    · cases h
    · split_ifs at h
      · cases h; exact ⟨_, rfl⟩
      · split at h
        · cases h
        · cases h
        · split at h
          · cases h
          · cases h
          · exact ih h
        · cases h

end Gush.Bencode
