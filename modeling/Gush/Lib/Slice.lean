import Mathlib.Tactic

/-!
# Slices of a list

Reading a slice, and changing a list in some range only. Both go through an append: a slice of
`a ++ b` is a slice of `a` and one of `b`, and a range that is changed in `a ++ b` may reach into
both.
-/

namespace Slice

variable {α : Type}

/-- The `n` elements from a position on, or as many as there are. -/
def slice (l : List α) (pos n : ℕ) : List α := (l.drop pos).take n

theorem getElem?_slice (l : List α) (pos n k : ℕ) :
    (slice l pos n)[k]? = if k < n then l[pos + k]? else none := by
  rw [slice, List.getElem?_take, List.getElem?_drop]

theorem slice_append (a b : List α) (pos n : ℕ) :
    slice (a ++ b) pos n = slice a pos n ++ slice b (pos - a.length) (n - (a.length - pos)) := by
  rw [slice, List.drop_append, List.take_append, List.length_drop]
  rfl

@[simp] theorem slice_zero (l : List α) (pos : ℕ) : slice l pos 0 = [] := List.take_zero

theorem slice_of_length_le {l : List α} {pos : ℕ} (h : l.length ≤ pos) (n : ℕ) :
    slice l pos n = [] := by
  rw [slice, List.drop_of_length_le h, List.take_nil]

/-- A slice behind `a` lies in `b`. -/
theorem slice_append_of_length_le {a : List α} {pos : ℕ} (h : a.length ≤ pos) (b : List α) (n : ℕ) :
    slice (a ++ b) pos n = slice b (pos - a.length) n := by
  have hcount : n - (a.length - pos) = n := by omega
  rw [slice_append, slice_of_length_le h, List.nil_append, hcount]

/-- No more than what is left. -/
theorem slice_min (l : List α) (pos n : ℕ) : slice l pos (min n (l.length - pos)) = slice l pos n := by
  rw [slice, slice, ← List.length_drop, ← List.take_eq_take_min]

/-- Data that is cut at the end of `a` is found in `a ++ b` if its parts are found in `a` and `b`. -/
theorem slice_append_eq {a b data : List α} {pos k : ℕ} (hpos : pos ≤ a.length)
    (hk : k = min data.length (a.length - pos)) (hhead : slice a pos k = data.take k)
    (htail : a.length - pos ≤ data.length →
      slice b 0 (data.drop k).length = data.drop k) : slice (a ++ b) pos data.length = data := by
  have hzero : pos - a.length = 0 := by omega
  rw [slice_append, ← slice_min a, ← hk, hhead, hzero]
  by_cases hend : a.length - pos ≤ data.length
  · have hcount : data.length - (a.length - pos) = (data.drop k).length := by
      rw [List.length_drop]
      omega
    rw [hcount, htail hend, List.take_append_drop]
  · have hnone : data.length - (a.length - pos) = 0 := by omega
    rw [hnone, slice_zero, List.append_nil, List.take_of_length_le (by omega)]

/-- Slices of one length that follow each other make up the list. -/
theorem flatten_slices (l : List α) (c n : ℕ) :
    ((List.range n).map fun i => slice l (i * c) c).flatten = l.take (n * c) := by
  induction n with
  | zero => simp
  | succ n ih =>
    rw [List.range_succ, List.map_append, List.flatten_append, ih, Nat.succ_mul, List.take_add]
    simp [slice]

/-- Setting the first elements one after the other. -/
theorem foldl_set_range {l : List α} {n : ℕ} (h : n ≤ l.length) (f : ℕ → α) :
    (List.range n).foldl (fun l i => l.set i (f i)) l = (List.range n).map f ++ l.drop n := by
  induction n with
  | zero => rfl
  | succ n ih =>
    obtain ⟨a, hdrop⟩ : ∃ a, l.drop n = a :: l.drop (n + 1) := ⟨_, List.drop_eq_getElem_cons h⟩
    rw [List.range_succ, List.foldl_append, ih (Nat.le_of_succ_le h), hdrop]
    simp [List.set_append_right]

theorem length_slice (l : List α) (pos n : ℕ) : (slice l pos n).length = min n (l.length - pos) := by
  rw [slice, List.length_take, List.length_drop]

theorem slice_slice (l : List α) (pos n pos' n' : ℕ) :
    slice (slice l pos n) pos' n' = slice l (pos + pos') (min n' (n - pos')) := by
  apply List.ext_getElem?
  intro k
  rw [getElem?_slice, getElem?_slice, getElem?_slice, ← add_assoc]
  split_ifs <;> first | rfl | omega

/-- Lists of one length that agree on the chunks they are cut into are equal. -/
theorem eq_of_chunks {l l' : List α} {c n : ℕ} (hc : 0 < c) (hlength : l'.length = l.length)
    (hn : l.length ≤ n * c)
    (h : ∀ k < n, slice l' (k * c) (min c (l.length - k * c)) =
      slice l (k * c) (min c (l.length - k * c))) : l' = l := by
  apply List.ext_getElem?
  intro k
  by_cases hk : k < l.length
  · have hdiv := Nat.div_add_mod k c
    have hmod := Nat.mod_lt k hc
    rw [mul_comm] at hdiv
    have hchunk : k / c < n := by
      rw [Nat.div_lt_iff_lt_mul hc]
      omega
    have hat := congrArg (fun s : List α => s[k % c]?) (h (k / c) hchunk)
    simp only [getElem?_slice] at hat
    rw [if_pos (by omega), if_pos (by omega), hdiv] at hat
    exact hat
  · rw [List.getElem?_eq_none (by omega), List.getElem?_eq_none (by omega)]

/-- Two lists of the same length that differ at most between two positions. -/
structure AgreeOutside (lo hi : ℕ) (l l' : List α) : Prop where
  length : l'.length = l.length
  getElem? : ∀ k, k < lo ∨ hi ≤ k → l'[k]? = l[k]?

namespace AgreeOutside

variable {lo hi : ℕ} {l l' a a' b b' : List α}

theorem refl (lo hi : ℕ) (l : List α) : AgreeOutside lo hi l l := ⟨rfl, fun _ _ => rfl⟩

/-- A wider range allows more. -/
theorem mono {lo' hi' : ℕ} (h : AgreeOutside lo hi l l') (hlo : lo' ≤ lo) (hhi : hi ≤ hi') :
    AgreeOutside lo' hi' l l' :=
  ⟨h.length, fun k hk => h.getElem? k (by omega)⟩

theorem append (ha : AgreeOutside lo hi a a')
    (hb : AgreeOutside (lo - a.length) (hi - a.length) b b') :
    AgreeOutside lo hi (a ++ b) (a' ++ b') := by
  refine ⟨by rw [List.length_append, List.length_append, ha.length, hb.length], fun k hk => ?_⟩
  rw [List.getElem?_append, List.getElem?_append, ha.length]
  split_ifs
  · exact ha.getElem? k hk
  · exact hb.getElem? _ (by omega)

/-- A slice on one side of the range is as before. -/
theorem slice_eq (h : AgreeOutside lo hi l l') {pos n : ℕ} (hside : pos + n ≤ lo ∨ hi ≤ pos) :
    slice l' pos n = slice l pos n := by
  apply List.ext_getElem?
  intro k
  rw [getElem?_slice, getElem?_slice]
  split_ifs
  · exact h.getElem? _ (by omega)
  · rfl

/-- Slices of the two lists differ at most where the range meets them. -/
theorem on_slice (h : AgreeOutside lo hi l l') (pos n : ℕ) :
    AgreeOutside (lo - pos) (hi - pos) (slice l pos n) (slice l' pos n) := by
  refine ⟨by rw [length_slice, length_slice, h.length], fun k hk => ?_⟩
  rw [getElem?_slice, getElem?_slice]
  split_ifs
  · exact h.getElem? _ (by omega)
  · rfl

/-- What is in the range, together with agreement outside, is all of the list. -/
theorem eq_of_slice (h : AgreeOutside lo hi l l') {new : List α} (hhi : hi = lo + new.length)
    (hnew : slice l' lo new.length = new) : l' = l.take lo ++ new ++ l.drop hi := by
  have hfront : l'.take lo = l.take lo := by
    have hslice : slice l' 0 lo = slice l 0 lo := h.slice_eq (.inl (by omega))
    exact hslice
  have hback : l'.drop hi = l.drop hi := by
    have hslice : slice l' hi (l.length - hi) = slice l hi (l.length - hi) :=
      h.slice_eq (.inr le_rfl)
    rw [slice, slice, List.take_of_length_le (by rw [List.length_drop, h.length]),
      List.take_of_length_le (by rw [List.length_drop])] at hslice
    exact hslice
  have hmiddle : l'.drop lo = new ++ l.drop hi := by
    rw [← List.take_append_drop new.length (l'.drop lo), List.drop_drop, ← hhi, hback]
    exact congrArg (· ++ l.drop hi) hnew
  rw [← List.take_append_drop lo l', hfront, hmiddle, List.append_assoc]

end AgreeOutside

/-- Some elements are put in the place of as many others. -/
theorem agreeOutside_replace {l : List α} {pos : ℕ} {new : List α} (h : pos + new.length ≤ l.length) :
    AgreeOutside pos (pos + new.length) l (l.take pos ++ new ++ l.drop (pos + new.length)) := by
  refine ⟨by simp; omega, fun k hk => ?_⟩
  rw [List.append_assoc, List.getElem?_append, List.getElem?_append, List.length_take,
    min_eq_left (by omega)]
  split_ifs with h₁ h₂
  · rw [List.getElem?_take, if_pos h₁]
  · omega
  · rw [List.getElem?_drop]
    congr 1
    omega

end Slice
