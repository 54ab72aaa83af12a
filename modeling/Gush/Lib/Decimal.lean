import Mathlib.Tactic

/-!
# Decimal numerals over bytes

Numerals are lists of ASCII digits, most significant first. `numeral` writes a natural number,
`value` reads a list of digits, and `value_numeral` says that reading inverts writing.
-/

namespace Decimal

/-- An ASCII digit. -/
def isDigit (b : UInt8) : Bool := 48 ≤ b.toNat && b.toNat ≤ 57

/-- The number denoted by a list of ASCII digits. -/
def value (ds : List UInt8) : ℕ := ds.foldl (fun n b => 10 * n + (b.toNat - 48)) 0

/-- The ASCII code of a character of a numeral. -/
def ofChar (c : Char) : UInt8 := UInt8.ofNat c.toNat

/-- The decimal numeral of `n`, without leading zeros. -/
def numeral (n : ℕ) : List UInt8 := (Nat.toDigits 10 n).map ofChar

@[simp] theorem value_nil : value [] = 0 := rfl

theorem value_append_singleton (ds : List UInt8) (b : UInt8) :
    value (ds ++ [b]) = 10 * value ds + (b.toNat - 48) := by
  simp [value, List.foldl_append]

theorem toNat_ofChar_digitChar {d : ℕ} (hd : d < 10) :
    (ofChar (Nat.digitChar d)).toNat = 48 + d := by
  interval_cases d <;> rfl

theorem isDigit_ofChar_digitChar {d : ℕ} (hd : d < 10) :
    isDigit (ofChar (Nat.digitChar d)) = true := by
  simp only [isDigit, toNat_ofChar_digitChar hd, Bool.and_eq_true, decide_eq_true_eq]
  omega

/-- A numeral is its leading part followed by its last digit. -/
theorem numeral_eq (n : ℕ) :
    numeral n = if n < 10 then [ofChar (Nat.digitChar n)]
      else numeral (n / 10) ++ [ofChar (Nat.digitChar (n % 10))] := by
  unfold numeral
  rw [Nat.toDigits_eq_if (by norm_num)]
  split_ifs <;> simp

/-- Reading a numeral gives back the number. -/
@[simp] theorem value_numeral (n : ℕ) : value (numeral n) = n := by
  induction n using Nat.strong_induction_on with
  | _ n ih =>
    rw [numeral_eq]
    split_ifs with h
    · simp [value, toNat_ofChar_digitChar h]
    · rw [value_append_singleton, ih (n / 10) (by omega),
        toNat_ofChar_digitChar (Nat.mod_lt n (by norm_num))]
      omega

theorem isDigit_of_mem_numeral {n : ℕ} {b : UInt8} (h : b ∈ numeral n) : isDigit b = true := by
  induction n using Nat.strong_induction_on with
  | _ n ih =>
    rw [numeral_eq] at h
    split_ifs at h with hn
    · rw [List.mem_singleton.1 h]
      exact isDigit_ofChar_digitChar hn
    · rcases List.mem_append.1 h with h | h
      · exact ih (n / 10) (by omega) h
      · rw [List.mem_singleton.1 h]
        exact isDigit_ofChar_digitChar (Nat.mod_lt n (by norm_num))

theorem numeral_ne_nil (n : ℕ) : numeral n ≠ [] := by
  rw [numeral_eq]
  split_ifs <;> simp

theorem length_numeral_le_iff {n k : ℕ} (hk : 0 < k) : (numeral n).length ≤ k ↔ n < 10 ^ k := by
  rw [numeral, List.length_map, Nat.length_toDigits_le_iff (by norm_num) hk]

theorem numeral_injective : Function.Injective numeral := by
  intro a b h
  simpa using congrArg value h

end Decimal
