import Mathlib.Algebra.BigOperators.Intervals
import Mathlib.Tactic

/-!
# Cutting a length into chunks

A length `L` that is cut into chunks of length `c` has a shorter last chunk in general. The chunks
add up to `L`, and the chunks that are marked in some way add up to a part of it, which grows chunk
by chunk.
-/

namespace Chunks

open Finset

/-- The length of the chunk `k`. -/
def size (c L : ℤ) (k : ℕ) : ℤ := min c (L - k * c)

/-- The sum of the lengths of the marked ones of the first `n` chunks. -/
def marked (c L : ℤ) (mark : ℕ → Bool) (n : ℕ) : ℤ :=
  ∑ k ∈ range n, if mark k then size c L k else 0

/-- The chunk `k` covers the places whose quotient is `k`, up to the end. -/
theorem mem_Ico_iff {c L : ℤ} (hc : 0 < c) {k : ℕ} {x : ℤ} :
    x ∈ Set.Ico (k * c) (k * c + size c L k) ↔ x / c = k ∧ x < L := by
  rw [Set.mem_Ico, Int.ediv_eq_iff_of_pos hc, size]
  omega

/-- A sum whose terms differ in one place only. -/
theorem sum_bump {f g : ℕ → ℤ} {n k : ℕ} {δ : ℤ} (hk : k < n)
    (h : ∀ j < n, g j = f j + if k = j then δ else 0) :
    ∑ j ∈ range n, g j = ∑ j ∈ range n, f j + δ := by
  have hsum : ∑ j ∈ range n, g j = ∑ j ∈ range n, (f j + if k = j then δ else 0) :=
    sum_congr rfl fun j hj => h j (mem_range.1 hj)
  rw [hsum, sum_add_distrib, sum_ite_eq, if_pos (mem_range.2 hk)]

section

variable {c L : ℤ} {n : ℕ} (hn : ∀ k < n, k * c < L)

include hn

/-- The chunks before `n` reach up to `n * c`, or up to the end. -/
theorem sum_size (hL : 0 ≤ L) : ∑ k ∈ range n, size c L k = min (n * c) L := by
  induction n with
  | zero => simp [hL]
  | succ n ih =>
    have hlast := hn n n.lt_succ_self
    rw [sum_range_succ, ih fun k hk => hn k (hk.trans n.lt_succ_self), min_eq_left hlast.le, size]
    push_cast
    rw [add_mul, one_mul, ← min_add_add_left]
    congr 1
    omega

/-- If there are enough chunks and all of them are marked, they make up the whole. -/
theorem marked_all (hL : 0 ≤ L) (hend : L ≤ n * c) {mark : ℕ → Bool}
    (hmark : ∀ k < n, mark k = true) : marked c L mark n = L := by
  have hall : marked c L mark n = ∑ k ∈ range n, size c L k := by
    apply sum_congr rfl
    intro k hk
    rw [hmark k (mem_range.1 hk), if_pos rfl]
  rw [hall, sum_size hn hL, min_eq_right hend]

section

variable (hc : 0 < c)

include hc

theorem size_pos {k : ℕ} (hk : k < n) : 0 < size c L k := by
  have hlt := hn k hk
  unfold size
  omega

theorem marked_nonneg (mark : ℕ → Bool) : 0 ≤ marked c L mark n := by
  apply sum_nonneg
  intro k hk
  have hpos := size_pos hn hc (mem_range.1 hk)
  split_ifs
  · exact hpos.le
  · exact le_rfl

/-- Marked chunks do not exceed the whole. -/
theorem marked_le (hL : 0 ≤ L) (mark : ℕ → Bool) : marked c L mark n ≤ L := by
  have hle : marked c L mark n ≤ ∑ k ∈ range n, size c L k := by
    apply sum_le_sum
    intro k hk
    have hpos := size_pos hn hc (mem_range.1 hk)
    split_ifs
    · exact le_rfl
    · exact hpos.le
  rw [sum_size hn hL] at hle
  exact hle.trans (min_le_right _ _)

end

end

/-- If none is marked, nothing is counted. -/
theorem marked_none (c L : ℤ) {n : ℕ} {mark : ℕ → Bool} (hmark : ∀ k < n, mark k = false) :
    marked c L mark n = 0 := by
  apply sum_eq_zero
  intro k hk
  rw [hmark k (mem_range.1 hk)]
  rfl

/-- One more chunk that is marked. -/
theorem marked_add (c L : ℤ) {n k : ℕ} (hk : k < n) {mark mark' : ℕ → Bool} (hold : mark k = false)
    (hnew : ∀ j, mark' j = if k = j then true else mark j) :
    marked c L mark' n = marked c L mark n + size c L k := by
  apply sum_bump hk
  intro j _
  rw [hnew]
  by_cases hj : k = j
  · subst hj
    simp [hold]
  · simp [hj]

end Chunks
