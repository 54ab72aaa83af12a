import Mathlib.Data.List.Sort
import Mathlib.Order.RelClasses
import Mathlib.Tactic

/-!
# Sorting by a comparison

What a sort that is given a comparison promises: it permutes its input, and where the comparison is
a strict weak ordering of the elements, nothing stands in front of a smaller element. Elements that
the comparison does not tell apart may come in any order. `mergeSorter` is such a sort.
-/

namespace Sorting

variable {α : Type*}

/-- The comparison is a strict weak ordering of the elements of a list. -/
def OrdersList (lt : α → α → Bool) (l : List α) : Prop :=
  IsStrictWeakOrder {a // a ∈ l} (Subrel (fun a b => lt a b = true) (· ∈ l))

/-- A sort by any comparison. -/
structure Sorter (α : Type*) where
  sort : (α → α → Bool) → List α → List α
  perm : ∀ lt l, (sort lt l).Perm l
  sorted : ∀ lt l, OrdersList lt l → (sort lt l).Pairwise fun a b => lt b a = false

/-- Comparing by a key. -/
theorem ordersList_of_key {β : Type*} [LinearOrder β] {lt : α → α → Bool} {key : α → β} {l : List α}
    (h : ∀ a ∈ l, ∀ b ∈ l, lt a b = true ↔ key a < key b) : OrdersList lt l := by
  have hrel : Subrel (fun a b => lt a b = true) (· ∈ l) =
      fun a b : {a // a ∈ l} => key a.val < key b.val := by
    funext a b
    exact propext (h a.val a.property b.val b.property)
  rw [OrdersList, hrel]
  exact
    { irrefl := fun a => lt_irrefl (key a.val)
      trans := fun a b c => lt_trans
      incomp_trans := fun a b c hab hbc => by
        simp only [not_lt] at hab hbc ⊢
        exact ⟨le_trans hbc.1 hab.1, le_trans hab.2 hbc.2⟩ }

/-- Not being greater is transitive. -/
theorem not_lt_trans {r : α → α → Prop} [IsStrictWeakOrder α r] {a b c : α} (hab : ¬ r b a)
    (hbc : ¬ r c b) : ¬ r c a := by
  intro hca
  by_cases hab' : r a b
  · exact hbc (trans_of r hca hab')
  · by_cases hbc' : r b c
    · exact hab (trans_of r hbc' hca)
    · exact (IsStrictWeakOrder.incomp_trans a b c ⟨hab', hab⟩ ⟨hbc', hbc⟩).2 hca

/-- Merge sort, on the elements of the list. -/
def mergeSorter (α : Type*) : Sorter α where
  sort lt l := (l.attach.mergeSort fun a b => !lt b.val a.val).map Subtype.val
  perm lt l := by
    have hperm := (List.mergeSort_perm l.attach fun a b => !lt b.val a.val).map Subtype.val
    rwa [List.attach_map_subtype_val] at hperm
  sorted lt l h := by
    rw [OrdersList] at h
    rw [List.pairwise_map]
    refine (List.pairwise_mergeSort ?_ ?_ l.attach).imp fun hab => by simpa using hab
    · intro a b c hab hbc
      have hac := not_lt_trans (r := Subrel (fun a b => lt a b = true) (· ∈ l)) (a := a) (b := b)
        (c := c) (by simpa [Subrel] using hab) (by simpa [Subrel] using hbc)
      simpa [Subrel] using hac
    · intro a b
      by_cases hab : lt b.val a.val = true
      · have hba : ¬ lt a.val b.val = true := fun hba =>
          irrefl_of (Subrel (fun a b => lt a b = true) (· ∈ l)) a
            (trans_of (Subrel (fun a b => lt a b = true) (· ∈ l)) hba hab)
        simp [hba]
      · simp [hab]

end Sorting
