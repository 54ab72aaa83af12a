import Gush.Cxx

/-!
# Bencode values

The recursive variant `BencodeValue` with its dictionary access, and `encode`. A dictionary is a
`std::map<std::string, BencodeValue>`: a list of entries in ascending byte order of the keys.
`Valid` says what the C++ type guarantees of every value: integers fit `int64_t` and the keys of
each dictionary ascend. `ValidValue` bundles the two.
-/

namespace Gush.Bencode

open Cxx

/-- The recursive variant of `bencode.h`. -/
inductive BencodeValue
  | int (i : ℤ)
  | str (s : Bytes)
  | list (l : List BencodeValue)
  | dict (d : List (Bytes × BencodeValue))

/-- `std::map<std::string, BencodeValue>`, by ascending keys. -/
abbrev BencodeDict := List (Bytes × BencodeValue)

/-- The keys of a dictionary ascend strictly. -/
def Ascending (d : BencodeDict) : Prop := d.Pairwise fun a b => a.1 < b.1

/-- What the C++ type guarantees of a value. -/
inductive BencodeValue.Valid : BencodeValue → Prop
  | int {i : ℤ} (lo : -2 ^ 63 ≤ i) (hi : i < 2 ^ 63) : Valid (.int i)
  | str (s : Bytes) : Valid (.str s)
  | list {l : List BencodeValue} (items : ∀ v ∈ l, Valid v) : Valid (.list l)
  | dict {d : BencodeDict} (items : ∀ e ∈ d, Valid e.2) (ascending : Ascending d) :
      Valid (.dict d)

/-- A value of the C++ type. -/
structure ValidValue where
  val : BencodeValue
  valid : val.Valid

theorem ValidValue.ext {v w : ValidValue} (h : v.val = w.val) : v = w := by
  cases v; cases w; cases h; rfl

/-! ### Dictionary access -/

/-- `dict[key] = value`. -/
def dictInsert (key : Bytes) (value : BencodeValue) : BencodeDict → BencodeDict
  | [] => [(key, value)]
  | (k, v) :: d =>
    if key < k then (key, value) :: (k, v) :: d
    else if key = k then (key, value) :: d
    else (k, v) :: dictInsert key value d

/-- `dictGet`; `none` is the null pointer. -/
def dictGet (d : BencodeDict) (key : Bytes) : Option BencodeValue :=
  (d.find? fun e => decide (e.1 = key)).map Prod.snd

def dictGetInt (d : BencodeDict) (key : Bytes) : Option ℤ :=
  match dictGet d key with
  | some (.int i) => some i
  | _ => none

def dictGetString (d : BencodeDict) (key : Bytes) : Option Bytes :=
  match dictGet d key with
  | some (.str s) => some s
  | _ => none

/-- A key behind all the others is appended. -/
theorem dictInsert_last {d : BencodeDict} {key : Bytes} (value : BencodeValue)
    (h : ∀ e ∈ d, e.1 < key) : dictInsert key value d = d ++ [(key, value)] := by
  induction d with
  | nil => rfl
  | cons e d ih =>
    have he : e.1 < key := h e (by simp)
    have hlt : ¬ key < e.1 := List.lt_asymm he
    have hne : key ≠ e.1 := fun hk => List.lt_irrefl key (hk ▸ he)
    rw [dictInsert, if_neg hlt, if_neg hne, ih fun x hx => h x (by simp [hx])]
    rfl

/-- Looking up the key just assigned. -/
theorem dictGet_dictInsert_self (d : BencodeDict) (key : Bytes) (value : BencodeValue) :
    dictGet (dictInsert key value d) key = some value := by
  induction d with
  | nil => simp [dictInsert, dictGet]
  | cons e d ih =>
    rw [dictInsert]
    split_ifs with hlt heq
    · simp [dictGet]
    · simp [dictGet]
    · simpa [dictGet, Ne.symm heq] using ih

/-- Looking up another key. -/
theorem dictGet_dictInsert_of_ne (d : BencodeDict) {key key' : Bytes} (value : BencodeValue)
    (h : key ≠ key') : dictGet (dictInsert key value d) key' = dictGet d key' := by
  induction d with
  | nil => simp [dictInsert, dictGet, h]
  | cons e d ih =>
    rw [dictInsert]
    split_ifs with hlt heq
    · simp [dictGet, h]
    · simp [dictGet, h, ← heq]
    · by_cases he : e.1 = key'
      · simp [dictGet, he]
      · simpa [dictGet, he] using ih

/-! ### Encoding -/

/-- `str.size() << ':' << str`. -/
def encodeString (s : Bytes) : Bytes := Decimal.numeral s.length ++ ':'.toUInt8 :: s

mutual

/-- `bencode::encode`. -/
def encode : BencodeValue → Bytes
  | .int i => 'i'.toUInt8 :: (showInt i ++ ['e'.toUInt8])
  | .str s => encodeString s
  | .list l => 'l'.toUInt8 :: (encodeItems l ++ ['e'.toUInt8])
  | .dict d => 'd'.toUInt8 :: (encodeEntries d ++ ['e'.toUInt8])

/-- The items of a list, one after the other. -/
def encodeItems : List BencodeValue → Bytes
  | [] => []
  | v :: l => encode v ++ encodeItems l

/-- The entries of a dictionary, in the order of the map. -/
def encodeEntries : List (Bytes × BencodeValue) → Bytes
  | [] => []
  | (k, v) :: d => encodeString k ++ (encode v ++ encodeEntries d)

end

end Gush.Bencode
