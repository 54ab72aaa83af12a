import Mathlib.Tactic

/-!
# Merging lists without duplicates

A list is merged into another one by appending what is not there yet, one element after the other.
Nothing moves, so an element stands where it is first mentioned (`merge_eq`). Elements can also be told
apart by a key (`foldl_insertBy`).
-/

namespace Merge

variable {α : Type} [DecidableEq α]

/-- Appends an element that is not there yet. -/
def insertNew (l : List α) (a : α) : List α := if a ∈ l then l else l ++ [a]

/-- Appends the elements that are not there yet. -/
def merge (l l' : List α) : List α := l'.foldl insertNew l

variable {l l' l'' : List α} {a b : α}

theorem mem_insertNew : b ∈ insertNew l a ↔ b ∈ l ∨ b = a := by
  unfold insertNew
  split_ifs with h
  · exact ⟨.inl, fun hb => hb.elim id fun heq => heq ▸ h⟩
  · simp

theorem nodup_insertNew (h : l.Nodup) : (insertNew l a).Nodup := by
  unfold insertNew
  split_ifs with ha
  · exact h
  · exact h.append (List.nodup_singleton a) (by simpa using ha)

@[simp] theorem merge_nil : merge l [] = l := rfl

theorem merge_cons : merge l (a :: l') = merge (insertNew l a) l' := rfl

theorem merge_append : merge l (l' ++ l'') = merge (merge l l') l'' := List.foldl_append

theorem mem_merge : b ∈ merge l l' ↔ b ∈ l ∨ b ∈ l' := by
  induction l' generalizing l with
  | nil => simp
  | cons a l' ih => rw [merge_cons, ih, mem_insertNew, List.mem_cons, or_assoc]

theorem nodup_merge (h : l.Nodup) : (merge l l').Nodup := by
  induction l' generalizing l with
  | nil => exact h
  | cons a l' ih => exact ih (nodup_insertNew h)

/-- What is new is appended, as if it had been merged into the empty list. -/
theorem merge_eq (l l' : List α) : merge l l' = l ++ (merge [] l').filter fun b => b ∉ l := by
  induction l' using List.reverseRecOn with
  | nil => simp
  | append_singleton l' a ih =>
    rw [merge_append, merge_append, merge_cons, merge_cons, merge_nil, merge_nil]
    have hmem : a ∈ merge [] l' ↔ a ∈ l' := by simp [mem_merge]
    by_cases hl : a ∈ l
    · have hleft : insertNew (merge l l') a = merge l l' := if_pos (mem_merge.2 (.inl hl))
      rw [hleft, ih]
      unfold insertNew
      split_ifs
      · rfl
      · simp [hl]
    · by_cases hl' : a ∈ l'
      · have hleft : insertNew (merge l l') a = merge l l' := if_pos (mem_merge.2 (.inr hl'))
        have hright : insertNew (merge [] l') a = merge [] l' := if_pos (hmem.2 hl')
        rw [hleft, hright, ih]
      · have hleft : insertNew (merge l l') a = merge l l' ++ [a] :=
          if_neg fun h => (mem_merge.1 h).elim hl hl'
        have hright : insertNew (merge [] l') a = merge [] l' ++ [a] := if_neg (mt hmem.1 hl')
        rw [hleft, hright, ih, List.filter_append, List.append_assoc]
        simp [hl]

/-! ### Keys -/

section Keys

variable {α κ : Type} [DecidableEq κ]

/-- Appends an element whose key is not there yet. -/
def insertBy (key : α → κ) (l : List α) (a : α) : List α := if key a ∈ l.map key then l else l ++ [a]

/-- If the new elements have distinct keys, those with new keys are appended. -/
theorem foldl_insertBy {key : α → κ} {l l' : List α} (h : (l'.map key).Nodup) :
    l'.foldl (insertBy key) l = l ++ l'.filter fun a => key a ∉ l.map key := by
  induction l' generalizing l with
  | nil => simp
  | cons a l' ih =>
    obtain ⟨hnew, hrest⟩ := List.nodup_cons.1 h
    rw [List.foldl_cons, insertBy, List.filter_cons]
    by_cases hknown : key a ∈ l.map key
    · rw [if_pos hknown, ih hrest, if_neg (by simpa using hknown)]
    · rw [if_neg hknown, ih hrest, if_pos (by simpa using hknown), List.append_assoc,
        List.singleton_append]
      -- no later element has the key of this one
      congr 2
      refine List.filter_congr fun b hb => ?_
      have hne : key b ≠ key a := fun heq => hnew (heq ▸ List.mem_map_of_mem hb)
      simp [hne]

end Keys

end Merge
