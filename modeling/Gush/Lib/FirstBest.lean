import Mathlib.Data.List.MinMax
import Mathlib.Tactic

/-!
# Loops that look for the best element

A loop that remembers the best element so far, with its key, and replaces it by a strictly better
one ends with `List.argmax`: the first of the elements whose key is greatest
(`foldl_eq_argmax`). On a list in ascending order, whether the element that is found has some
property can be told from the list: an element with the property comes in front of all those without
it, by key and then by position (`exists_mem_argmax_iff`).
-/

namespace FirstBest

open List

section Loop

variable {α β γ : Type*} [LinearOrder β] {eligible : α → Bool} {code : α → γ} {key : α → β}

/-- What the loop remembers of an element, starting from a bound. -/
def remembered (start : γ × β) (code : α → γ) (key : α → β) : Option α → γ × β
  | none => start
  | some a => (code a, key a)

/-- The loop over the eligible elements with a key above the bound that it starts from. -/
theorem foldl_eq_argmax {round : γ × β → α → γ × β} {start : γ × β}
    (hround : ∀ best a, round best a =
      if eligible a = true ∧ best.2 < key a then (code a, key a) else best) (l : List α) :
    l.foldl round start = remembered start code key
      (argmax key (l.filter fun a => eligible a && decide (start.2 < key a))) := by
  induction l using List.reverseRecOn with
  | nil => rfl
  | append_singleton l a ih =>
    rw [foldl_append, foldl_cons, foldl_nil, ih, hround, filter_append]
    set kept := l.filter fun a => eligible a && decide (start.2 < key a) with hkept
    by_cases ha : eligible a = true ∧ start.2 < key a
    · have hfilter : ([a].filter fun a => eligible a && decide (start.2 < key a)) = [a] := by
        simp [ha]
      rw [hfilter, argmax_concat]
      cases hbest : argmax key kept with
      | none => simp [remembered, ha]
      | some m =>
        by_cases hlt : key m < key a
        · simp [remembered, ha.1, hlt]
        · simp [remembered, hlt]
    · have hfilter : ([a].filter fun a => eligible a && decide (start.2 < key a)) = [] := by
        simpa using ha
      rw [hfilter, append_nil]
      cases hbest : argmax key kept with
      | none => simp [remembered, ha]
      | some m =>
        -- the remembered key is above the bound, so `a` does not beat it either
        have hm : m ∈ kept := argmax_mem hbest
        rw [hkept, mem_filter, Bool.and_eq_true, decide_eq_true_eq] at hm
        have habove : start.2 < key m := hm.2.2
        have hnot : ¬ (eligible a = true ∧ key m < key a) :=
          fun h => ha ⟨h.1, habove.trans h.2⟩
        simp [remembered, hnot]

end Loop

variable {α β : Type*} [LinearOrder α] [LinearOrder β] {key : α → β} {l : List α} {m a : α}

/-- `a` comes in front of `b`: its key is greater, or it is the first of two equal ones. -/
def Ahead (key : α → β) (a b : α) : Prop := key b < key a ∨ key b = key a ∧ a < b

/-- The element that is found is in front of all others. -/
theorem ahead_of_argmax (hl : l.Pairwise (· < ·)) (hm : argmax key l = some m) (ha : a ∈ l)
    (hne : a ≠ m) : Ahead key m a := by
  rcases (le_of_mem_argmax ha hm).lt_or_eq with hlt | heq
  · exact .inl hlt
  · refine .inr ⟨heq, lt_of_le_of_ne (not_lt.1 fun hlt => ?_) hne.symm⟩
    have hindex := index_of_argmax hm ha heq.ge
    have hml := idxOf_lt_length_of_mem (argmax_mem hm)
    have hal := idxOf_lt_length_of_mem ha
    have hle : l[l.idxOf m] ≤ l[l.idxOf a] := by
      rcases hindex.lt_or_eq with hless | hequal
      · exact (pairwise_iff_getElem.1 hl _ _ hml hal hless).le
      · simp [hequal]
    rw [getElem_idxOf hml, getElem_idxOf hal] at hle
    exact absurd hle (not_le.2 hlt)

theorem Ahead.asymm {b : α} (h : Ahead key a b) : ¬ Ahead key b a := by
  rintro (h' | ⟨h', hlt'⟩)
  · rcases h with h | ⟨h, -⟩
    · exact absurd h' h.asymm
    · exact absurd h h'.ne'
  · rcases h with h | ⟨-, hlt⟩
    · exact absurd h' h.ne'
    · exact absurd hlt' hlt.asymm

/-- **Main result.** The element that is found has a property if and only if some element with it
is in front of all elements without it. -/
theorem exists_mem_argmax_iff (hl : l.Pairwise (· < ·)) (P : α → Prop) :
    (∃ m, argmax key l = some m ∧ P m) ↔ ∃ g ∈ l, P g ∧ ∀ j ∈ l, ¬ P j → Ahead key g j := by
  constructor
  · rintro ⟨m, hm, hP⟩
    exact ⟨m, argmax_mem hm, hP, fun j hj hnot =>
      ahead_of_argmax hl hm hj fun heq => hnot (heq ▸ hP)⟩
  · rintro ⟨g, hg, hP, hahead⟩
    cases hm : argmax key l with
    | none =>
      rw [argmax_eq_none.1 hm] at hg
      cases hg
    | some m =>
      refine ⟨m, rfl, ?_⟩
      by_contra hnot
      have hne : g ≠ m := fun heq => hnot (heq ▸ hP)
      exact (hahead m (argmax_mem hm) hnot).asymm (ahead_of_argmax hl hm hg hne)

end FirstBest
