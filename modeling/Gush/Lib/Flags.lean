import Mathlib.Tactic

/-!
# Lists of flags

Flags are set one after the other, each at the position of an item that meets a condition; positions
beyond the end are left out. `getD_marks` says which flags are set in the end, and `card_unset` how
many are not.
-/

namespace Flags

variable {α : Type*} {p : α → Prop} [DecidablePred p] {pos : α → ℕ} {flags : List Bool} {i : ℕ}

/-- Sets the flag at the position of an item. -/
def mark (p : α → Prop) [DecidablePred p] (pos : α → ℕ) (flags : List Bool) (a : α) : List Bool :=
  if pos a < flags.length ∧ p a then flags.set (pos a) true else flags

theorem getD_set_true {j : ℕ} : (flags.set j true).getD i false = true ↔
    flags.getD i false = true ∨ j = i ∧ i < flags.length := by
  by_cases h : j = i
  · subst h
    by_cases hlt : j < flags.length
    · simp [hlt]
    · rw [List.set_eq_of_length_le (not_lt.1 hlt)]
      simp [hlt]
  · simp [List.getElem?_set_ne h, h]

@[simp] theorem length_mark {a : α} : (mark p pos flags a).length = flags.length := by
  rw [mark]
  split_ifs <;> simp

theorem getD_mark {a : α} : (mark p pos flags a).getD i false = true ↔
    flags.getD i false = true ∨ i < flags.length ∧ pos a = i ∧ p a := by
  rw [mark]
  split_ifs with h
  · rw [getD_set_true]
    exact or_congr_right ⟨fun hi => ⟨hi.2, hi.1, h.2⟩, fun hi => ⟨hi.2.1, hi.1⟩⟩
  · refine ⟨.inl, fun hi => hi.resolve_right ?_⟩
    rintro ⟨hlt, rfl, hp⟩
    exact h ⟨hlt, hp⟩

@[simp] theorem length_marks (l : List α) :
    (l.foldl (mark p pos) flags).length = flags.length := by
  induction l generalizing flags with
  | nil => rfl
  | cons a l ih => rw [List.foldl_cons, ih, length_mark]

/-- A flag is set if it was set before or belongs to one of the items. -/
theorem getD_marks (l : List α) : (l.foldl (mark p pos) flags).getD i false = true ↔
    flags.getD i false = true ∨ i < flags.length ∧ ∃ a ∈ l, pos a = i ∧ p a := by
  induction l generalizing flags with
  | nil => simp
  | cons a l ih =>
    rw [List.foldl_cons, ih, getD_mark, length_mark, or_assoc, ← and_or_left]
    simp

/-- The positions that are not set are as many as the flags that are off. -/
theorem card_unset (flags : List Bool) :
    ((Finset.range flags.length).filter fun i => flags.getD i false = false).card =
      flags.count false := by
  induction flags using List.reverseRecOn with
  | nil => rfl
  | append_singleton flags b ih =>
    have hsame : (Finset.range flags.length).filter (fun i => (flags ++ [b]).getD i false = false) =
        (Finset.range flags.length).filter fun i => flags.getD i false = false :=
      Finset.filter_congr fun i hi => by rw [List.getD_eq_getElem?_getD,
        List.getElem?_append_left (Finset.mem_range.1 hi), ← List.getD_eq_getElem?_getD]
    rw [List.length_append, List.length_singleton, Finset.range_add_one, Finset.filter_insert, hsame,
      List.count_append, ← ih]
    cases b <;> simp
end Flags
