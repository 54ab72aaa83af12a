import Mathlib.Data.List.Nodup
import Mathlib.Tactic

/-!
# Worklists that enqueue nothing twice

A queue of items together with the keys of all items that have ever been in it. An item is enqueued
if its key is new; items leave at the front, and their keys stay. Whatever is enqueued in between,
the items that have left and those that are still waiting have distinct keys (`Distinct.enqueue`,
`Distinct.pop`).
-/

namespace Worklist

variable {α κ : Type} [DecidableEq κ]

/-- The waiting items, and the keys that are known. -/
structure Queue (α κ : Type) where
  items : List α := []
  known : List κ := []

/-- Puts an item at the end, unless its key is known. -/
def Queue.enqueue (key : α → κ) (q : Queue α κ) (x : α) : Queue α κ :=
  if key x ∈ q.known then q else { items := q.items ++ [x], known := key x :: q.known }

/-- The keys of the items, those that have left included, are distinct and known. -/
structure Distinct (key : α → κ) (left : List α) (q : Queue α κ) : Prop where
  nodup : ((left ++ q.items).map key).Nodup
  known : ∀ x ∈ left ++ q.items, key x ∈ q.known

variable {key : α → κ} {left : List α} {q : Queue α κ}

omit [DecidableEq κ] in
theorem Distinct.empty : Distinct key [] ({} : Queue α κ) := ⟨List.nodup_nil, by simp⟩

/-- An item is appended, or nothing changes. -/
theorem Queue.enqueue_cases (key : α → κ) (q : Queue α κ) (x : α) :
    (key x ∈ q.known ∧ q.enqueue key x = q) ∨
      (key x ∉ q.known ∧ (q.enqueue key x).items = q.items ++ [x]) := by
  rw [enqueue]
  split_ifs with hx
  · exact .inl ⟨hx, rfl⟩
  · exact .inr ⟨hx, rfl⟩

theorem Queue.length_enqueue_le (key : α → κ) (q : Queue α κ) (x : α) :
    (q.enqueue key x).items.length ≤ q.items.length + 1 := by
  rcases q.enqueue_cases key x with ⟨-, heq⟩ | ⟨-, heq⟩ <;> rw [heq]
  · exact Nat.le_succ _
  · simp

theorem Queue.mem_enqueue {q : Queue α κ} {x y : α} (h : y ∈ (q.enqueue key x).items) :
    y ∈ q.items ∨ y = x := by
  rcases q.enqueue_cases key x with ⟨-, heq⟩ | ⟨-, heq⟩ <;> rw [heq] at h
  · exact .inl h
  · simpa using h

theorem Distinct.enqueue (h : Distinct key left q) (x : α) : Distinct key left (q.enqueue key x) := by
  rw [Queue.enqueue]
  split_ifs with hx
  · exact h
  · have hnew : key x ∉ (left ++ q.items).map key := by
      intro hmem
      obtain ⟨y, hy, heq⟩ := List.mem_map.1 hmem
      exact hx (heq ▸ h.known y hy)
    constructor
    · rw [← List.append_assoc, List.map_append, List.nodup_append]
      refine ⟨h.nodup, by simp, fun a ha b hb hab => ?_⟩
      simp only [List.map_cons, List.map_nil, List.mem_singleton] at hb
      exact hnew (hb ▸ hab ▸ ha)
    · intro y hy
      rw [← List.append_assoc, List.mem_append, List.mem_singleton] at hy
      rcases hy with hy | rfl
      · exact List.mem_cons_of_mem _ (h.known y hy)
      · exact List.mem_cons_self

theorem Distinct.foldl_enqueue (h : Distinct key left q) (xs : List α) :
    Distinct key left (xs.foldl (Queue.enqueue key) q) := by
  induction xs generalizing q with
  | nil => exact h
  | cons x xs ih => exact ih (h.enqueue x)

omit [DecidableEq κ] in
/-- The item at the front leaves. -/
theorem Distinct.pop {x : α} {rest : List α} (h : Distinct key left q) (hq : q.items = x :: rest) :
    Distinct key (left ++ [x]) { q with items := rest } := by
  obtain ⟨hnodup, hknown⟩ := h
  rw [hq, List.append_cons] at hnodup hknown
  exact ⟨hnodup, hknown⟩

omit [DecidableEq κ] in
/-- No two items that have left have the same key. -/
theorem Distinct.nodup_left (h : Distinct key left q) : (left.map key).Nodup := by
  have hall := h.nodup
  rw [List.map_append] at hall
  exact hall.of_append_left

end Worklist
