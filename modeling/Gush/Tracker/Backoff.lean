import Gush.Tracker.Manager

/-!
# When a tracker is due again

A history of reports on the trackers of a manager, and the schedule that the failures are meant to
follow: 30 s, 60 s, 120 s, ... up to 30 minutes. `reportFailure` counts the failure before it takes
the backoff, so the first delay is already 60 s; `meetsSchedule_iff` says for which numbers of
failures the delay is still the intended one.
-/

namespace Gush

open Cxx FirstMatch Sorting

namespace TrackerManager

/-- A report on a tracker: a success with its response, or a failure. -/
structure Report where
  url : Bytes
  time : ℤ
  success : Option TrackerResponse
  deriving DecidableEq

def report (m : TrackerManager) (rep : Report) : TrackerManager :=
  match rep.success with
  | some resp => m.reportSuccess rep.url resp rep.time
  | none => m.reportFailure rep.url rep.time

/-- The manager of some trackers after a history of reports. -/
def afterReports (urls : List Bytes) (history : List Report) : TrackerManager :=
  history.foldl report (init urls)

/-! ### The intended schedule -/

/-- The reports on one tracker. -/
def reportsOn (url : Bytes) (history : List Report) : List Report :=
  history.filter fun rep => rep.url = url

def lastReport (url : Bytes) (history : List Report) : Option Report :=
  (reportsOn url history).getLast?

/-- The failures of a tracker since its last success. -/
def failuresInRow (url : Bytes) (history : List Report) : ℕ :=
  ((reportsOn url history).reverse.takeWhile fun rep => rep.success.isNone).length

/-- The delay, in seconds, after the `n`-th failure in a row. -/
def delaySeconds (n : ℕ) : ℤ := min (30 * 2 ^ (n - 1)) 1800

/-- The tracker is due when its last report says, whatever is reported on the others. -/
structure MeetsSchedule (S : Sorter TrackerState) (urls : List Bytes) (history : List Report)
    (url : Bytes) (rep : Report) : Prop where
  success : rep.success ≠ none →
    ∀ now ≥ rep.time, url ∈ (afterReports urls history).dueTrackers S now
  failure : rep.success = none →
    ∀ now, url ∈ (afterReports urls history).dueTrackers S now ↔
      rep.time + seconds (delaySeconds (failuresInRow url history)) ≤ now
  others : ∀ other : Report, other.url ≠ url →
    ∀ now, url ∈ (afterReports urls (history ++ [other])).dueTrackers S now ↔
      url ∈ (afterReports urls history).dueTrackers S now

/-! ### What one more report does -/

variable {S : Sorter TrackerState} {m : TrackerManager} {urls : List Bytes} {history : List Report}
  {url : Bytes} {rep : Report} {now : ℤ}

theorem afterReports_append :
    afterReports urls (history ++ [rep]) = (afterReports urls history).report rep := by
  simp [afterReports]

theorem lastReport_append : lastReport url (history ++ [rep]) =
    if rep.url = url then some rep else lastReport url history := by
  by_cases h : rep.url = url <;> simp [lastReport, reportsOn, h]

theorem failuresInRow_append : failuresInRow url (history ++ [rep]) =
    if rep.url = url then if rep.success = none then failuresInRow url history + 1 else 0
    else failuresInRow url history := by
  by_cases h : rep.url = url
  · by_cases hs : rep.success = none <;> simp [failuresInRow, reportsOn, h, hs]
  · simp [failuresInRow, reportsOn, h]

/-- What a report makes of the state of its own tracker. -/
def reported (rep : Report) : TrackerState → TrackerState :=
  match rep.success with
  | some resp => succeeded resp rep.time
  | none => failed rep.time

theorem stateOf_report : (m.report rep).stateOf url =
    if url = rep.url then (m.stateOf url).map (reported rep) else m.stateOf url := by
  unfold report reported
  cases rep.success with
  | some resp => exact stateOf_reportSuccess
  | none => exact stateOf_reportFailure

theorem wellFormed_report (hm : m.WellFormed) : (m.report rep).WellFormed := by
  unfold report
  cases rep.success with
  | some resp => exact wellFormed_reportSuccess hm
  | none => exact wellFormed_reportFailure hm

theorem wellFormed_afterReports (urls : List Bytes) (history : List Report) :
    (afterReports urls history).WellFormed :=
  Run.invariant (fun _ _ h => wellFormed_report h) history (wellFormed_init urls)

/-- Whether a tracker is due depends on its own state. -/
theorem mem_dueTrackers_report (hm : m.WellFormed) (h : rep.url ≠ url) :
    url ∈ (m.report rep).dueTrackers S now ↔ url ∈ m.dueTrackers S now := by
  rw [mem_dueTrackers (wellFormed_report hm), mem_dueTrackers hm, stateOf_report, if_neg h.symm]

/-! ### The state after a history -/

/-- The trackers of a new manager are fresh. -/
theorem fresh_of_stateOf_init {st : TrackerState} (h : (init urls).stateOf url = some st) :
    st = { url := url } := by
  have hstep : ∀ (m : TrackerManager) (url' : Bytes),
      (∀ st, m.stateOf url = some st → st = { url := url }) →
        ∀ st, (m.add url').stateOf url = some st → st = { url := url } := by
    intro m url' hm st hst
    rcases stateOf_add hst with h | rfl
    · exact hm st h
    · rw [← url_of_stateOf hst]
  have hempty : ∀ st, (TrackerManager.stateOf {} url) = some st → st = { url := url } := by
    simp [stateOf]
  exact Run.invariant hstep urls hempty st h

theorem stateOf_init_of_mem (hurl : url ∈ urls) (hne : url ≠ []) :
    (init urls).stateOf url = some { url := url } := by
  have hmem : url ∈ (init urls).urls := mem_urls_addAll.2 (.inr ⟨hurl, hne⟩)
  obtain ⟨st, hst⟩ := exists_stateOf_iff.2 hmem
  rw [hst, fresh_of_stateOf_init hst]

theorem int32_int32_succ (n : ℕ) : int32 (int32 n + 1) = int32 ((n + 1 : ℕ) : ℤ) := by
  simp [int32]

/-- The gate that the last report on a tracker sets. -/
def gate (n : ℕ) (rep : Report) : ℤ :=
  if rep.success = none then rep.time + seconds (backoffSeconds (int32 n)) else rep.time

/-- The counter of a tracker counts its failures in a row, and its gate is that of the last one. -/
theorem stateOf_afterReports (hurl : url ∈ urls) (hne : url ≠ []) (history : List Report) :
    ∃ st, (afterReports urls history).stateOf url = some st ∧
      st.consecutiveFailures = int32 (failuresInRow url history) ∧
      ∀ rep, lastReport url history = some rep →
        st.nextAllowed = gate (failuresInRow url history) rep := by
  induction history using List.reverseRecOn with
  | nil => exact ⟨_, stateOf_init_of_mem hurl hne, by simp [failuresInRow, reportsOn, int32],
      by simp [lastReport, reportsOn]⟩
  | append_singleton history new ih =>
    obtain ⟨st, hst, hcount, hgate⟩ := ih
    rw [afterReports_append, stateOf_report, hst, lastReport_append, failuresInRow_append]
    by_cases h : new.url = url
    · rw [if_pos h.symm, if_pos h, if_pos h]
      refine ⟨reported new st, rfl, ?_⟩
      cases hs : new.success with
      | some resp =>
        refine ⟨by simp [reported, hs, succeeded]; decide, ?_⟩
        rintro _ ⟨⟩
        simp [reported, hs, succeeded, gate]
      | none =>
        refine ⟨by simp [reported, hs, failed, hcount, int32_int32_succ], ?_⟩
        rintro _ ⟨⟩
        simp [reported, hs, failed, gate, hcount, int32_int32_succ]
    · rw [if_neg (Ne.symm h), if_neg h, if_neg h]
      exact ⟨st, rfl, hcount, hgate⟩

/-- When a tracker is due. -/
theorem due_iff (hurl : url ∈ urls) (hne : url ≠ []) (hlast : lastReport url history = some rep) :
    url ∈ (afterReports urls history).dueTrackers S now ↔
      gate (failuresInRow url history) rep ≤ now := by
  obtain ⟨st, hst, -, hgate⟩ := stateOf_afterReports hurl hne history
  rw [mem_dueTrackers (wellFormed_afterReports urls history), hst, ← hgate rep hlast]
  simp

/-- After a success there are no failures in a row. -/
theorem failuresInRow_eq_zero_iff (hlast : lastReport url history = some rep) :
    failuresInRow url history = 0 ↔ rep.success ≠ none := by
  have hrev : ∃ rest, (reportsOn url history).reverse = rep :: rest := by
    obtain ⟨ini, hini⟩ := List.getLast?_eq_some_iff.1 hlast
    exact ⟨ini.reverse, by simp [hini]⟩
  obtain ⟨rest, hrest⟩ := hrev
  rw [failuresInRow, hrest]
  cases hs : rep.success <;> simp [hs]

/-! ### The delay -/

theorem backoffSeconds_of_ge {c : ℤ} (h : 6 ≤ c) : backoffSeconds c = 1800 := by
  have hexp : 6 ≤ (min c 12).toNat := by omega
  have hpow : (2 : ℤ) ^ 6 ≤ 2 ^ (min c 12).toNat := pow_le_pow_right₀ (by norm_num) hexp
  rw [backoffSeconds, baseBackoffSeconds, maxBackoffSeconds, min_eq_right (by omega)]
  rfl

theorem backoffSeconds_of_lt {c : ℤ} (h : c < 6) : backoffSeconds c = 30 * 2 ^ c.toNat := by
  have hexp : (min c 12).toNat = c.toNat := by omega
  have hlt : c.toNat < 6 := by omega
  rw [backoffSeconds, hexp, baseBackoffSeconds, maxBackoffSeconds]
  generalize c.toNat = k at hlt
  interval_cases k <;> rfl

/-- The delay is the intended one where both are capped. -/
theorem backoffSeconds_eq_delaySeconds_iff {n : ℕ} (hn : 1 ≤ n) :
    backoffSeconds (int32 n) = delaySeconds n ↔ 7 ≤ n ∧ 6 ≤ int32 n := by
  by_cases h7 : 7 ≤ n
  · have hpow : (2 : ℤ) ^ 6 ≤ 2 ^ (n - 1) := pow_le_pow_right₀ (by norm_num) (by omega)
    rw [delaySeconds, min_eq_right (by omega)]
    by_cases h6 : 6 ≤ int32 n
    · simp [backoffSeconds_of_ge h6, h7, h6]
    · have hlt : (int32 n).toNat ≤ 5 := by omega
      have hle : (2 : ℤ) ^ (int32 n).toNat ≤ 2 ^ 5 := pow_le_pow_right₀ (by norm_num) hlt
      rw [backoffSeconds_of_lt (by omega)]
      constructor
      · intro h
        omega
      · intro h
        exact absurd h.2 h6
  · have hc : int32 (n : ℤ) = n := int32_of_range (by omega) (by omega)
    rw [hc]
    constructor
    · intro h
      interval_cases n <;> exact absurd h (by decide)
    · intro h
      exact absurd h.1 h7

theorem seconds_inj {a b : ℤ} : seconds a = seconds b ↔ a = b := by
  unfold seconds
  omega

/-- Two gates that open together are one. -/
theorem gates_eq_iff {a b : ℤ} : (∀ now, a ≤ now ↔ b ≤ now) ↔ a = b :=
  ⟨fun h => le_antisymm ((h b).2 le_rfl) ((h a).1 le_rfl), fun h now => by rw [h]⟩

/-! ### The result -/

/-- The schedule is kept after a success, and from the seventh failure in a row on, as long as the
counter does not overflow. -/
theorem meetsSchedule_iff (S : Sorter TrackerState) (urls : List Bytes) (history : List Report)
    (url : Bytes) (rep : Report) (hurl : url ∈ urls) (hne : url ≠ [])
    (hlast : lastReport url history = some rep) :
    MeetsSchedule S urls history url rep ↔
      failuresInRow url history = 0 ∨
        7 ≤ failuresInRow url history ∧ 6 ≤ int32 (failuresInRow url history) := by
  have hdue : ∀ now, url ∈ (afterReports urls history).dueTrackers S now ↔
      gate (failuresInRow url history) rep ≤ now := fun now => due_iff hurl hne hlast
  have hothers : ∀ other : Report, other.url ≠ url →
      ∀ now, url ∈ (afterReports urls (history ++ [other])).dueTrackers S now ↔
        url ∈ (afterReports urls history).dueTrackers S now := fun other h now => by
    rw [afterReports_append]
    exact mem_dueTrackers_report (wellFormed_afterReports urls history) h
  have hzero := failuresInRow_eq_zero_iff hlast
  by_cases hs : rep.success = none
  · have hn : 1 ≤ failuresInRow url history := by
      have hne0 : failuresInRow url history ≠ 0 := fun h => hzero.1 h hs
      omega
    have hdelay : (∀ now, url ∈ (afterReports urls history).dueTrackers S now ↔
        rep.time + seconds (delaySeconds (failuresInRow url history)) ≤ now) ↔
        7 ≤ failuresInRow url history ∧ 6 ≤ int32 (failuresInRow url history) := by
      simp only [hdue, gate, hs, if_true]
      rw [gates_eq_iff, add_right_inj, seconds_inj, backoffSeconds_eq_delaySeconds_iff hn]
    rw [← hdelay]
    constructor
    · intro h
      exact .inr (h.failure hs)
    · rintro (h | h)
      · omega
      · exact ⟨fun h' => absurd hs h', fun _ => h, hothers⟩
  · refine ⟨fun _ => .inl (hzero.2 hs), fun _ => ⟨fun _ now hnow => ?_, fun h => absurd h hs,
      hothers⟩⟩
    rw [hdue, gate, if_neg hs]
    exact hnow

/-- A failure, then a success five seconds later. -/
theorem meetsSchedule_iff_success :
    MeetsSchedule (mergeSorter TrackerState) [ascii "udp://a"]
      [⟨ascii "udp://a", 0, none⟩, ⟨ascii "udp://a", seconds 5, some {}⟩] (ascii "udp://a")
      ⟨ascii "udp://a", seconds 5, some {}⟩ :=
  (meetsSchedule_iff _ _ _ _ _ (by decide) (by decide) (by decide)).2 (.inl (by decide))

/-- After its first failure a tracker waits for 60 seconds, and not for 30. -/
theorem not_forall_meetsSchedule :
    ¬ ∀ (S : Sorter TrackerState) (urls : List Bytes) (history : List Report) (url : Bytes)
        (rep : Report), (history.map Report.time).Pairwise (· ≤ ·) → url ∈ urls → url ≠ [] →
        lastReport url history = some rep → MeetsSchedule S urls history url rep := by
  intro h
  have hmeets := h (mergeSorter TrackerState) [ascii "udp://a"] [⟨ascii "udp://a", 0, none⟩]
    (ascii "udp://a") ⟨ascii "udp://a", 0, none⟩ (by simp) (by decide) (by decide) (by decide)
  have hdue : ascii "udp://a" ∈ (afterReports [ascii "udp://a"] [⟨ascii "udp://a", 0, none⟩]
      ).dueTrackers (mergeSorter TrackerState) (seconds 30) :=
    (hmeets.failure rfl (seconds 30)).2 (by decide)
  have hlast : lastReport (ascii "udp://a") [⟨ascii "udp://a", 0, none⟩] =
      some ⟨ascii "udp://a", 0, none⟩ := by
    decide
  rw [due_iff (by decide) (by decide) hlast] at hdue
  exact absurd hdue (by decide)

end TrackerManager

end Gush
