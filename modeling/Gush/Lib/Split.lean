import Mathlib.Tactic

/-!
# Cutting a list at a separator

A list either has no separator, or it is a part without one, a separator, and another list. This is
an induction principle, and it goes with `List.splitOn`. A list may also be cut where a test fails for
the first time.
-/

namespace Split

variable {α : Type} {a : α}

section Test

variable {p : α → Bool} {front back : List α}

/-- The front is what passes the test. -/
theorem takeWhile_append (hfront : ∀ x ∈ front, p x = true)
    (hback : ∀ x, back.head? = some x → p x = false) : (front ++ back).takeWhile p = front := by
  rw [List.takeWhile_append_of_pos hfront]
  cases back with
  | nil => exact List.append_nil front
  | cons x back => rw [List.takeWhile_cons, if_neg (by simp [hback x rfl]), List.append_nil]

/-- The back starts where the test fails. -/
theorem dropWhile_append (hfront : ∀ x ∈ front, p x = true)
    (hback : ∀ x, back.head? = some x → p x = false) : (front ++ back).dropWhile p = back := by
  have hcut := List.takeWhile_append_dropWhile (p := p) (l := front ++ back)
  rw [takeWhile_append hfront hback] at hcut
  exact List.append_cancel_left hcut

end Test

/-- Induction over the parts of a list. -/
@[elab_as_elim]
theorem split_induction {motive : List α → Prop} (last : ∀ part, a ∉ part → motive part)
    (cons : ∀ part rest, a ∉ part → motive rest → motive (part ++ a :: rest)) (l : List α) :
    motive l := by
  by_cases h : a ∈ l
  · obtain ⟨part, rest, hl, hpart⟩ := List.eq_append_cons_of_mem h
    have hlt : rest.length < l.length := by
      rw [hl, List.length_append, List.length_cons]
      omega
    rw [hl]
    exact cons part rest hpart (split_induction last cons rest)
  · exact last l h
termination_by l.length

variable [DecidableEq α]

/-- The parts have no separator. -/
theorem not_mem_of_mem_splitOn {l part : List α} (h : part ∈ l.splitOn a) : a ∉ part := by
  induction l using split_induction (a := a) with
  | last l hl =>
    rw [List.splitOn_eq_singleton hl, List.mem_singleton] at h
    rwa [h]
  | cons first rest hfirst ih =>
    rw [List.splitOn_append_cons_self_of_not_mem hfirst, List.mem_cons] at h
    rcases h with rfl | h
    · exact hfirst
    · exact ih h

theorem mem_of_mem_part {l part : List α} (h : part ∈ l.splitOn a) {b : α} (hb : b ∈ part) :
    b ∈ l := by
  induction l using split_induction (a := a) with
  | last l hl =>
    rw [List.splitOn_eq_singleton hl, List.mem_singleton] at h
    rwa [← h]
  | cons first rest hfirst ih =>
    rw [List.splitOn_append_cons_self_of_not_mem hfirst, List.mem_cons] at h
    rcases h with rfl | h
    · exact List.mem_append_left _ hb
    · exact List.mem_append_right _ (List.mem_cons_of_mem _ (ih h))

/-- Everything else is in one of the parts. -/
theorem exists_part_of_mem {l : List α} {b : α} (hb : b ∈ l) (hne : b ≠ a) :
    ∃ part ∈ l.splitOn a, b ∈ part := by
  induction l using split_induction (a := a) with
  | last l hl => exact ⟨l, by rw [List.splitOn_eq_singleton hl]; exact List.mem_cons_self, hb⟩
  | cons first rest hfirst ih =>
    rw [List.splitOn_append_cons_self_of_not_mem hfirst]
    rcases List.mem_append.1 hb with hb | hb
    · exact ⟨first, List.mem_cons_self, hb⟩
    · obtain ⟨part, hpart, hb⟩ := ih ((List.mem_cons.1 hb).resolve_left hne)
      exact ⟨part, List.mem_cons_of_mem first hpart, hb⟩

/-- The parts determine the list. -/
theorem splitOn_injective (a : α) : Function.Injective (List.splitOn a) := by
  intro l l' h
  have hjoin := congrArg [a].intercalate h
  rwa [List.intercalate_splitOn, List.intercalate_splitOn] at hjoin

end Split
