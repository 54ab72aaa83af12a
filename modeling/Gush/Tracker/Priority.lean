import Mathlib.Data.Prod.Lex
import Gush.Tracker.Manager

/-!
# The order in which trackers are tried

`dueTrackers` sorts by a comparison that puts the preferred tracker in front of every tracker, also
of itself. Where the preferred tracker is due the comparison is not irreflexive, and the sort promises
nothing; `prioritised_iff` says that everything is as intended in the other states.
-/

namespace Gush

open Cxx FirstMatch Sorting

namespace TrackerManager

/-- Fewer failures first, then the older attempt. -/
def rank (st : TrackerState) : ℤ ×ₗ ℤ := toLex (st.consecutiveFailures, st.lastAttempt)

/-- The first tracker may stand in front of the second one. -/
def MayPrecede (preferred : Bytes) (a b : TrackerState) : Prop :=
  a.url = preferred ∨ b.url ≠ preferred ∧ rank a ≤ rank b

/-- `dueTrackers` sorts by a strict weak ordering, and lists the due trackers once each, in the
order of their priority. -/
structure Prioritised (S : Sorter TrackerState) (m : TrackerManager) (now : ℤ) : Prop where
  ordering : OrdersList (before m.preferred) (m.due now)
  mem_iff : ∀ url, url ∈ m.dueTrackers S now ↔
    ∃ st ∈ m.trackers, st.url = url ∧ ¬ now < st.nextAllowed
  nodup : (m.dueTrackers S now).Nodup
  sorted : (m.dueTrackers S now).Pairwise fun url url' =>
    ∀ a ∈ m.trackers, a.url = url → ∀ b ∈ m.trackers, b.url = url' → MayPrecede m.preferred a b

variable {S : Sorter TrackerState} {m : TrackerManager} {now : ℤ} {preferred : Bytes}
  {a b : TrackerState}

/-- Among trackers that are not preferred the comparison goes by the rank. -/
theorem before_iff (ha : a.url ≠ preferred) (hb : b.url ≠ preferred) :
    before preferred a b = true ↔ rank a < rank b := by
  rw [before, if_neg ha, if_neg hb, rank, rank, Prod.Lex.toLex_lt_toLex]
  by_cases h : a.consecutiveFailures = b.consecutiveFailures
  · simp [h]
  · simp [h]

/-- The comparison puts the preferred tracker in front of itself. -/
theorem before_self (h : a.url = preferred) : before preferred a a = true := if_pos h

/-- The comparison is no strict ordering of a list with the preferred tracker in it. -/
theorem not_ordersList {l : List TrackerState} (ha : a ∈ l) (h : a.url = preferred) :
    ¬ OrdersList (before preferred) l := by
  intro hord
  rw [OrdersList] at hord
  exact irrefl_of (Subrel (fun a b => before preferred a b = true) (· ∈ l)) ⟨a, ha⟩ (before_self h)

/-- Elsewhere it is one. -/
theorem ordersList_before {l : List TrackerState} (h : ∀ st ∈ l, st.url ≠ preferred) :
    OrdersList (before preferred) l :=
  ordersList_of_key fun a ha b hb => before_iff (h a ha) (h b hb)

theorem mem_due : a ∈ m.due now ↔ a ∈ m.trackers ∧ a.nextAllowed ≤ now := by
  simp [due]

/-- In a well-formed manager a tracker is known by its URL. -/
theorem eq_of_url_eq (hm : m.WellFormed) (ha : a ∈ m.trackers) (hb : b ∈ m.trackers)
    (h : a.url = b.url) : a = b := by
  have hfa : m.stateOf a.url = some a := (mem_iff_lookup hm.nodup).1 ha
  have hfb : m.stateOf b.url = some b := (mem_iff_lookup hm.nodup).1 hb
  rw [h, hfb] at hfa
  exact (Option.some.inj hfa).symm

/-- What the sort promises where the preferred tracker is not due. -/
theorem dueTrackers_sorted (hm : m.WellFormed) (h : ∀ st ∈ m.due now, st.url ≠ m.preferred) :
    (m.dueTrackers S now).Pairwise fun url url' =>
      ∀ a ∈ m.trackers, a.url = url → ∀ b ∈ m.trackers, b.url = url' →
        MayPrecede m.preferred a b := by
  have hsorted := S.sorted _ _ (ordersList_before h)
  have hmem : ∀ st ∈ S.sort (before m.preferred) (m.due now), st ∈ m.due now := fun st hst =>
    (S.perm _ _).mem_iff.1 hst
  rw [dueTrackers, List.pairwise_map]
  refine hsorted.imp_of_mem fun {a b} ha hb hab a' ha' hurl b' hb' hurl' => ?_
  have hda := hmem a ha
  have hdb := hmem b hb
  obtain rfl : a' = a := eq_of_url_eq hm ha' (mem_due.1 hda).1 hurl
  obtain rfl : b' = b := eq_of_url_eq hm hb' (mem_due.1 hdb).1 hurl'
  refine .inr ⟨h _ hdb, not_lt.1 fun hlt => ?_⟩
  rw [(before_iff (h _ hdb) (h _ hda)).2 hlt] at hab
  cases hab

/-- In every state that calls reach, the due trackers are in order if the preferred one is not due,
and the comparison is no strict weak ordering of them if it is. -/
theorem prioritised_iff (S : Sorter TrackerState) (urls : List Bytes) (ops : List Op) (now : ℤ) :
    Prioritised S (run S urls ops) now ↔
      ∀ st ∈ (run S urls ops).trackers, st.url = (run S urls ops).preferred →
        now < st.nextAllowed := by
  have hm : (run S urls ops).WellFormed := wellFormed_run urls ops
  constructor
  · intro h st hst hurl
    by_contra hnow
    exact not_ordersList (mem_due.2 ⟨hst, not_lt.1 hnow⟩) hurl h.ordering
  · intro h
    have hdue : ∀ st ∈ (run S urls ops).due now, st.url ≠ (run S urls ops).preferred := by
      intro st hst hurl
      have hlt := h st (mem_due.1 hst).1 hurl
      exact absurd (mem_due.1 hst).2 (not_le.2 hlt)
    refine ⟨ordersList_before hdue, fun url => ?_, nodup_dueTrackers hm, dueTrackers_sorted hm hdue⟩
    rw [dueTrackers_perm.mem_iff, List.mem_map]
    constructor
    · rintro ⟨st, hst, rfl⟩
      exact ⟨st, (mem_due.1 hst).1, rfl, not_lt.2 (mem_due.1 hst).2⟩
    · rintro ⟨st, hst, rfl, hnow⟩
      exact ⟨st, mem_due.2 ⟨hst, not_lt.1 hnow⟩, rfl⟩

/-- A tracker that has just succeeded is preferred and due. -/
theorem not_forall_prioritised :
    ¬ ∀ (S : Sorter TrackerState) (urls : List Bytes) (ops : List Op) (now : ℤ),
        Prioritised S (run S urls ops) now := by
  intro h
  have hord := (h (mergeSorter TrackerState) []
    [.add (ascii "udp://a"), .reportSuccess (ascii "udp://a") {} 0] 0).ordering
  exact not_ordersList (a := succeeded {} 0 { url := ascii "udp://a" }) (by decide) rfl hord

end TrackerManager

end Gush
