import Mathlib.Tactic

/-!
# Numbers as lists of bits

The bits of a number are written with the highest first, so that a shift to the left appends.
Numbers of a fixed width, written one behind the other, can be read back, and every list of bits of
the right length is written in this way.
-/

namespace Bits

variable {w k m n v : ℕ}

/-- The `w` low bits of a number, the highest first. -/
def toBits : ℕ → ℕ → List Bool
  | 0, _ => []
  | w + 1, n => n.testBit w :: toBits w n

@[simp] theorem toBits_zero (n : ℕ) : toBits 0 n = [] := rfl

@[simp] theorem length_toBits (w n : ℕ) : (toBits w n).length = w := by
  induction w with
  | zero => rfl
  | succ w ih => rw [toBits, List.length_cons, ih]

/-- The other bits do not matter. -/
theorem toBits_congr (h : ∀ i < w, m.testBit i = n.testBit i) : toBits w m = toBits w n := by
  induction w with
  | zero => rfl
  | succ w ih => rw [toBits, toBits, h w w.lt_succ_self, ih fun i hi => h i (hi.trans w.lt_succ_self)]

theorem toBits_mod (h : w ≤ k) (n : ℕ) : toBits w (n % 2 ^ k) = toBits w n := by
  apply toBits_congr
  intro i hi
  rw [Nat.testBit_mod_two_pow, decide_eq_true (hi.trans_le h), Bool.true_and]

theorem toBits_add (w k n : ℕ) : toBits (w + k) n = toBits w (n >>> k) ++ toBits k n := by
  induction w with
  | zero => rw [Nat.zero_add, toBits_zero, List.nil_append]
  | succ w ih =>
    rw [Nat.add_right_comm, toBits, ih, toBits, Nat.testBit_shiftRight, Nat.add_comm k w,
      List.cons_append]

/-- Shifting in a number appends its bits. -/
theorem toBits_shiftLeft_or (h : v < 2 ^ k) (w n : ℕ) :
    toBits (w + k) (n <<< k ||| v) = toBits w n ++ toBits k v := by
  have hhigh : toBits w ((n <<< k ||| v) >>> k) = toBits w n := by
    apply toBits_congr
    intro i _
    have hv : v.testBit (k + i) = false :=
      Nat.testBit_lt_two_pow (h.trans_le (Nat.pow_le_pow_right (by omega) (by omega)))
    simp [hv]
  have hlow : toBits k (n <<< k ||| v) = toBits k v := by
    apply toBits_congr
    intro i hi
    simp [hi]
  rw [toBits_add, hhigh, hlow]

theorem toBits_injective (hm : m < 2 ^ w) (hn : n < 2 ^ w) (h : toBits w m = toBits w n) :
    m = n := by
  have hbits : ∀ {w}, toBits w m = toBits w n → ∀ i < w, m.testBit i = n.testBit i := by
    intro w
    induction w with
    | zero => simp
    | succ w ih =>
      intro h i hi
      obtain ⟨hhead, htail⟩ := List.cons.inj h
      rcases Nat.lt_succ_iff_lt_or_eq.1 hi with hi | rfl
      · exact ih htail i hi
      · exact hhead
  apply Nat.eq_of_testBit_eq
  intro i
  by_cases hi : i < w
  · exact hbits h i hi
  · have hle : 2 ^ w ≤ 2 ^ i := Nat.pow_le_pow_right (by omega) (not_lt.1 hi)
    rw [Nat.testBit_lt_two_pow (hm.trans_le hle), Nat.testBit_lt_two_pow (hn.trans_le hle)]

theorem exists_toBits (bits : List Bool) : ∃ n < 2 ^ bits.length, toBits bits.length n = bits := by
  induction bits with
  | nil => exact ⟨0, by simp, rfl⟩
  | cons b bits ih =>
    obtain ⟨n, hn, hbits⟩ := ih
    refine ⟨b.toNat <<< bits.length ||| n, ?_, ?_⟩
    · rw [List.length_cons]
      have hpow : 2 ^ bits.length < 2 ^ (bits.length + 1) := Nat.pow_lt_pow_succ one_lt_two
      apply Nat.or_lt_two_pow _ (hn.trans hpow)
      cases b <;> simp [Nat.shiftLeft_eq, hpow]
    · have hcons := toBits_shiftLeft_or hn 1 b.toNat
      rw [List.length_cons, Nat.add_comm, hcons, hbits]
      cases b <;> rfl

/-! ### Words -/

/-- The bits of a list of words. -/
def wordBits (w : ℕ) (ws : List ℕ) : List Bool := ws.flatMap (toBits w)

@[simp] theorem wordBits_nil (w : ℕ) : wordBits w [] = [] := rfl

@[simp] theorem wordBits_cons (w n : ℕ) (ws : List ℕ) :
    wordBits w (n :: ws) = toBits w n ++ wordBits w ws := rfl

@[simp] theorem length_wordBits (w : ℕ) (ws : List ℕ) :
    (wordBits w ws).length = w * ws.length := by
  induction ws with
  | nil => rfl
  | cons n ws ih => rw [wordBits_cons, List.length_append, length_toBits, ih, List.length_cons]; ring

theorem wordBits_injective (hw : 0 < w) {ws ws' : List ℕ} (h : ∀ n ∈ ws, n < 2 ^ w)
    (h' : ∀ n ∈ ws', n < 2 ^ w) (heq : wordBits w ws = wordBits w ws') : ws = ws' := by
  have hlen := congrArg List.length heq
  rw [length_wordBits, length_wordBits] at hlen
  replace hlen := Nat.eq_of_mul_eq_mul_left hw hlen
  induction ws generalizing ws' with
  | nil => exact (List.length_eq_zero_iff.1 hlen.symm).symm
  | cons n ws ih =>
    obtain ⟨n', ws', rfl⟩ := List.exists_cons_of_length_eq_add_one hlen.symm
    rw [wordBits_cons, wordBits_cons] at heq
    obtain ⟨hhead, htail⟩ := List.append_inj heq (by simp)
    rw [toBits_injective (h n List.mem_cons_self) (h' n' List.mem_cons_self) hhead,
      ih (fun n hn => h n (List.mem_cons_of_mem _ hn)) (fun n hn => h' n (List.mem_cons_of_mem _ hn))
        htail (Nat.succ.inj hlen)]

theorem exists_wordBits {bits : List Bool} (h : bits.length = w * k) :
    ∃ ws : List ℕ, ws.length = k ∧ (∀ n ∈ ws, n < 2 ^ w) ∧ wordBits w ws = bits := by
  induction k generalizing bits with
  | zero => exact ⟨[], rfl, by simp, (List.length_eq_zero_iff.1 h).symm⟩
  | succ k ih =>
    have hfirst : (bits.take w).length = w := by
      rw [List.length_take, h, Nat.mul_succ]
      omega
    have hrest : (bits.drop w).length = w * k := by
      rw [List.length_drop, h, Nat.mul_succ, Nat.add_sub_cancel]
    obtain ⟨ws, hlen, hws, hbits⟩ := ih hrest
    obtain ⟨n, hn, hfirstBits⟩ := exists_toBits (bits.take w)
    rw [hfirst] at hn hfirstBits
    refine ⟨n :: ws, by rw [List.length_cons, hlen], List.forall_mem_cons.2 ⟨hn, hws⟩, ?_⟩
    rw [wordBits_cons, hfirstBits, hbits, List.take_append_drop]

end Bits
