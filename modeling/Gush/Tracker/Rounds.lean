import Gush.Tracker.Backoff

/-!
# Contacting trackers

`contact` walks over the URLs that were due when it started, and changes the live trackers by their
URL after every answer. Since the URLs are distinct this is a walk over a pure prefix of the due
trackers (`tried`), each of which changes its own state once (`stateOf_contact`).

The counter of a tracker is an `int`. `meetsContract_iff` says that `contact` does what it promises
unless it overflows one of these counters.
-/

namespace Gush

open Cxx FirstMatch Sorting

namespace TrackerManager

/-! ### The trackers that are tried -/

/-- The trackers of a list up to the first one that answers. -/
def upToSuccess (r : Round) : List Bytes → List Bytes
  | [] => []
  | url :: rest => if (r.contactTracker url).ok then [url] else url :: upToSuccess r rest

/-- The trackers to try in a round. -/
def tried (S : Sorter TrackerState) (m : TrackerManager) (r : Round) (maxAttempts : ℤ) :
    List Bytes :=
  upToSuccess r ((m.dueTrackers S r.dueNow).take maxAttempts.toNat)

/-- What a call of `contact` promises. -/
structure MeetsContract (S : Sorter TrackerState) (m : TrackerManager) (r : Round)
    (maxAttempts : ℤ) (after : Contacted) : Prop where
  called_isPrefix : after.called <+: m.dueTrackers S r.dueNow
  called_nodup : after.called.Nodup
  called_length : after.called.length ≤ maxAttempts.toNat
  stops : ∀ url ∈ after.called.dropLast, ¬ (r.contactTracker url).ok
  goesOn : (∀ url ∈ after.called, ¬ (r.contactTracker url).ok) →
    after.called = (m.dueTrackers S r.dueNow).take maxAttempts.toNat
  response : after.response = (after.called.getLast?.map r.contactTracker).getD noTrackers
  urls_eq : after.manager.urls = m.urls
  failed : ∀ url ∈ after.called, ¬ (r.contactTracker url).ok →
    ∀ st, m.stateOf url = some st → ∃ st', after.manager.stateOf url = some st' ∧
      st'.consecutiveFailures = st.consecutiveFailures + 1
  succeeded : ∀ url ∈ after.called, (r.contactTracker url).ok →
    after.manager.preferred = url ∧ ∃ st', after.manager.stateOf url = some st' ∧
      st'.consecutiveFailures = 0
  preferred_eq : (∀ url ∈ after.called, ¬ (r.contactTracker url).ok) →
    after.manager.preferred = m.preferred
  others : ∀ url ∉ after.called, after.manager.stateOf url = m.stateOf url

section Tried

variable {r : Round} {l : List Bytes} {url : Bytes}

theorem upToSuccess_isPrefix (r : Round) (l : List Bytes) : upToSuccess r l <+: l := by
  induction l with
  | nil => exact List.prefix_rfl
  | cons url rest ih =>
    rw [upToSuccess]
    split_ifs
    · exact ⟨rest, rfl⟩
    · exact (List.prefix_cons_inj url).2 ih

/-- Nothing stands behind a success. -/
theorem upToSuccess_dropLast (r : Round) (l : List Bytes) :
    ∀ url ∈ (upToSuccess r l).dropLast, ¬ (r.contactTracker url).ok := by
  induction l with
  | nil => simp [upToSuccess]
  | cons url rest ih =>
    rw [upToSuccess]
    by_cases hok : (r.contactTracker url).ok
    · simp [hok]
    · rw [if_neg hok]
      cases hrest : upToSuccess r rest with
      | nil => simp
      | cons next rest' =>
        rw [hrest] at ih
        rw [List.dropLast_cons_cons]
        simpa [hok] using ih

/-- Without a success the whole list is tried. -/
theorem upToSuccess_eq_self (h : ∀ url ∈ upToSuccess r l, ¬ (r.contactTracker url).ok) :
    upToSuccess r l = l := by
  induction l with
  | nil => rfl
  | cons url rest ih =>
    rw [upToSuccess] at h ⊢
    by_cases hok : (r.contactTracker url).ok
    · rw [if_pos hok] at h
      exact absurd hok (h url List.mem_cons_self)
    · rw [if_neg hok] at h ⊢
      rw [ih fun url' h' => h url' (List.mem_cons_of_mem url h')]

/-- A success is the last one that is tried. -/
theorem eq_concat_of_ok (h : url ∈ upToSuccess r l) (hok : (r.contactTracker url).ok) :
    ∃ pre, upToSuccess r l = pre ++ [url] ∧ ∀ url' ∈ pre, ¬ (r.contactTracker url').ok := by
  have hne : upToSuccess r l ≠ [] := List.ne_nil_of_mem h
  have hcut := List.dropLast_append_getLast hne
  refine ⟨(upToSuccess r l).dropLast, ?_, upToSuccess_dropLast r l⟩
  rw [← hcut, List.mem_append, List.mem_singleton] at h
  rcases h with h | h
  · exact absurd hok (upToSuccess_dropLast r l url h)
  · rw [h, hcut]

end Tried

/-! ### What a call does to the manager -/

/-- One tracker is called and its outcome is reported. -/
def call (r : Round) (m : TrackerManager) (url : Bytes) : TrackerManager :=
  if (r.contactTracker url).ok then
    (m.attempt url r.now).reportSuccess url (r.contactTracker url) (r.reported url)
  else (m.attempt url r.now).reportFailure url (r.reported url)

/-- What a call makes of the state of its tracker. -/
def called (r : Round) (url : Bytes) (st : TrackerState) : TrackerState :=
  if (r.contactTracker url).ok then
    TrackerManager.succeeded (r.contactTracker url) (r.reported url) (attempted r.now st)
  else TrackerManager.failed (r.reported url) (attempted r.now st)

variable {S : Sorter TrackerState} {m : TrackerManager} {r : Round} {maxAttempts attempts : ℤ}
  {url url' : Bytes} {rest l : List Bytes} {lastResponse : TrackerResponse}

theorem urls_call : (call r m url).urls = m.urls := by
  unfold call
  split_ifs <;> simp

theorem preferred_call :
    (call r m url).preferred = if (r.contactTracker url).ok then url else m.preferred := by
  unfold call
  split_ifs <;> simp

theorem stateOf_call : (call r m url).stateOf url' =
    if url' = url then (m.stateOf url').map (called r url) else m.stateOf url' := by
  by_cases h : url' = url
  · by_cases hok : (r.contactTracker url).ok
    · rw [call, if_pos hok, stateOf_reportSuccess, stateOf_attempt, if_pos h, if_pos h, if_pos h,
        Option.map_map]
      congr 1
      funext st
      rw [called, if_pos hok, Function.comp_apply]
    · rw [call, if_neg hok, stateOf_reportFailure, stateOf_attempt, if_pos h, if_pos h, if_pos h,
        Option.map_map]
      congr 1
      funext st
      rw [called, if_neg hok, Function.comp_apply]
  · by_cases hok : (r.contactTracker url).ok
    · rw [call, if_pos hok, stateOf_reportSuccess, stateOf_attempt, if_neg h, if_neg h, if_neg h]
    · rw [call, if_neg hok, stateOf_reportFailure, stateOf_attempt, if_neg h, if_neg h, if_neg h]

theorem urls_calls (l : List Bytes) : (l.foldl (call r) m).urls = m.urls :=
  Run.invariant (P := fun m' : TrackerManager => m'.urls = m.urls) (fun _ _ h => urls_call.trans h) l rfl

theorem preferred_calls (h : ∀ url ∈ l, ¬ (r.contactTracker url).ok) :
    (l.foldl (call r) m).preferred = m.preferred := by
  induction l generalizing m with
  | nil => rfl
  | cons url rest ih =>
    rw [List.foldl_cons, ih fun url' h' => h url' (List.mem_cons_of_mem url h'), preferred_call,
      if_neg (h url List.mem_cons_self)]

/-- Calls of distinct trackers change the state of each once. -/
theorem stateOf_calls (hl : l.Nodup) : (l.foldl (call r) m).stateOf url =
    if url ∈ l then (m.stateOf url).map (called r url) else m.stateOf url := by
  induction l generalizing m with
  | nil => rfl
  | cons url' rest ih =>
    obtain ⟨hnot, hrest⟩ := List.nodup_cons.1 hl
    rw [List.foldl_cons, ih hrest, stateOf_call]
    by_cases h : url = url'
    · subst h
      simp [hnot]
    · simp [h]

/-! ### The loop -/

theorem called_contactLoop : (contactLoop r maxAttempts rest m attempts lastResponse).called =
    upToSuccess r (rest.take (maxAttempts - attempts).toNat) := by
  induction rest generalizing m attempts lastResponse with
  | nil => simp [contactLoop, upToSuccess]
  | cons url rest ih =>
    by_cases hmax : attempts ≥ maxAttempts
    · have hzero : (maxAttempts - attempts).toNat = 0 := by omega
      rw [contactLoop_enough hmax, hzero, List.take_zero, upToSuccess]
    · have hsucc : (maxAttempts - attempts).toNat = (maxAttempts - (attempts + 1)).toNat + 1 := by
        omega
      rw [hsucc, List.take_succ_cons, upToSuccess]
      by_cases hok : (r.contactTracker url).ok
      · rw [contactLoop_success hmax hok, if_pos hok]
      · rw [contactLoop_failure hmax hok, if_neg hok, ← ih]

theorem manager_contactLoop : (contactLoop r maxAttempts rest m attempts lastResponse).manager =
    (contactLoop r maxAttempts rest m attempts lastResponse).called.foldl (call r) m := by
  induction rest generalizing m attempts lastResponse with
  | nil => rfl
  | cons url rest ih =>
    by_cases hmax : attempts ≥ maxAttempts
    · rw [contactLoop_enough hmax, List.foldl_nil]
    · by_cases hok : (r.contactTracker url).ok
      · rw [contactLoop_success hmax hok, List.foldl_cons, List.foldl_nil, call, if_pos hok]
      · rw [contactLoop_failure hmax hok, List.foldl_cons, call, if_neg hok]
        exact ih

theorem response_contactLoop : (contactLoop r maxAttempts rest m attempts lastResponse).response =
    ((contactLoop r maxAttempts rest m attempts lastResponse).called.getLast?.map
      r.contactTracker).getD lastResponse := by
  induction rest generalizing m attempts lastResponse with
  | nil => rfl
  | cons url rest ih =>
    by_cases hmax : attempts ≥ maxAttempts
    · rw [contactLoop_enough hmax, List.getLast?_nil, Option.map_none, Option.getD_none]
    · by_cases hok : (r.contactTracker url).ok
      · rw [contactLoop_success hmax hok]
        simp
      · rw [contactLoop_failure hmax hok, List.getLast?_cons]
        simp only [ih, Option.map_some, Option.getD_some]
        cases (contactLoop r maxAttempts rest _ (attempts + 1) _).called.getLast? <;> simp

/-! ### A round -/

theorem called_contact : (m.contact S r maxAttempts).called = tried S m r maxAttempts := by
  rw [contact, called_contactLoop, sub_zero, tried]

theorem tried_isPrefix : tried S m r maxAttempts <+: m.dueTrackers S r.dueNow :=
  (upToSuccess_isPrefix r _).trans (List.take_prefix _ _)

theorem nodup_tried (hm : m.WellFormed) : (tried S m r maxAttempts).Nodup :=
  (nodup_dueTrackers hm).sublist tried_isPrefix.sublist

theorem manager_contact :
    (m.contact S r maxAttempts).manager = (tried S m r maxAttempts).foldl (call r) m := by
  rw [← called_contact]
  exact manager_contactLoop

/-- Every tracker that is tried changes its state once, and no other tracker does. -/
theorem stateOf_contact (hm : m.WellFormed) : (m.contact S r maxAttempts).manager.stateOf url =
    if url ∈ tried S m r maxAttempts then (m.stateOf url).map (called r url)
    else m.stateOf url := by
  rw [manager_contact]
  exact stateOf_calls (nodup_tried hm)

theorem preferred_contact (h : url ∈ tried S m r maxAttempts) (hok : (r.contactTracker url).ok) :
    (m.contact S r maxAttempts).manager.preferred = url := by
  obtain ⟨pre, hpre, -⟩ := eq_concat_of_ok h hok
  rw [manager_contact, tried, hpre, List.foldl_append, List.foldl_cons, List.foldl_nil,
    preferred_call, if_pos hok]

theorem exists_stateOf_of_mem_tried (hm : m.WellFormed) (h : url ∈ tried S m r maxAttempts) :
    ∃ st, m.stateOf url = some st := by
  obtain ⟨st, hst, -⟩ := (mem_dueTrackers hm).1 (tried_isPrefix.mem h)
  exact ⟨st, hst⟩

/-- An `int` counter counts one more unless it is at its end. -/
theorem int32_succ_iff {c : ℤ} (h : -2 ^ 31 ≤ c) (h' : c < 2 ^ 31) :
    int32 (c + 1) = c + 1 ↔ c ≠ 2 ^ 31 - 1 := by
  constructor
  · rintro heq rfl
    exact absurd heq (by decide)
  · intro hne
    exact int32_of_range (by omega) (by omega)

/-- The counter after a failure. -/
theorem consecutiveFailures_contact (hm : m.WellFormed) {st st' : TrackerState}
    (h : url ∈ tried S m r maxAttempts) (hok : ¬ (r.contactTracker url).ok)
    (hst : m.stateOf url = some st)
    (hst' : (m.contact S r maxAttempts).manager.stateOf url = some st') :
    st'.consecutiveFailures = int32 (st.consecutiveFailures + 1) := by
  rw [stateOf_contact hm, if_pos h, hst, Option.map_some, Option.some.injEq, called,
    if_neg hok] at hst'
  rw [← hst']
  rfl

/-- A counter at its end breaks the promise. -/
theorem not_meetsContract (hm : m.WellFormed) {st : TrackerState}
    (h : url ∈ tried S m r maxAttempts) (hok : ¬ (r.contactTracker url).ok)
    (hst : m.stateOf url = some st) (hmax : st.consecutiveFailures = 2 ^ 31 - 1) :
    ¬ MeetsContract S m r maxAttempts (m.contact S r maxAttempts) := by
  intro hmeets
  obtain ⟨st', hst', hcount⟩ := hmeets.failed url (called_contact ▸ h) hok st hst
  rw [consecutiveFailures_contact hm h hok hst hst', hmax] at hcount
  exact absurd hcount (by decide)

/-- The URLs of the trackers are distinct and not empty, and `contact` meets its contract. -/
structure Sound (S : Sorter TrackerState) (m : TrackerManager) (r : Round) (maxAttempts : ℤ) :
    Prop where
  urls_nodup : m.urls.Nodup
  urls_nonempty : ∀ url ∈ m.urls, url ≠ []
  contract : MeetsContract S m r maxAttempts (m.contact S r maxAttempts)

/-- In every state that calls reach, `contact` meets its contract if and only if no tracker that it
tries and that fails has the greatest `int` as its counter. -/
theorem meetsContract_iff (S : Sorter TrackerState) (urls : List Bytes) (ops : List Op) (r : Round)
    (maxAttempts : ℤ) :
    Sound S (run S urls ops) r maxAttempts ↔
      ∀ url ∈ tried S (run S urls ops) r maxAttempts, ¬ (r.contactTracker url).ok →
        ∀ st, (run S urls ops).stateOf url = some st → st.consecutiveFailures ≠ 2 ^ 31 - 1 := by
  have hm : (run S urls ops).WellFormed := wellFormed_run urls ops
  generalize run S urls ops = m at hm
  constructor
  · intro h url hurl hok st hst hmax
    exact not_meetsContract hm hurl hok hst hmax h.contract
  · intro h
    refine ⟨hm.nodup, fun url hurl hnil => hm.nonempty (hnil ▸ hurl), ?_⟩
    refine
      { called_isPrefix := called_contact ▸ tried_isPrefix
        called_nodup := called_contact ▸ nodup_tried hm
        called_length := ?_
        stops := ?_
        goesOn := ?_
        response := response_contactLoop
        urls_eq := ?_
        failed := ?_
        succeeded := ?_
        preferred_eq := ?_
        others := ?_ }
    · rw [called_contact]
      exact (upToSuccess_isPrefix r _).length_le.trans (List.length_take_le _ _)
    · rw [called_contact]
      exact upToSuccess_dropLast r _
    · rw [called_contact]
      exact upToSuccess_eq_self
    · rw [manager_contact]
      exact urls_calls _
    · intro url hurl hok st hst
      rw [called_contact] at hurl
      have hst' : (m.contact S r maxAttempts).manager.stateOf url = some (called r url st) := by
        rw [stateOf_contact hm, if_pos hurl, hst, Option.map_some]
      obtain ⟨hlow, hhigh⟩ := hm.counts url st hst
      refine ⟨_, hst', ?_⟩
      rw [consecutiveFailures_contact hm hurl hok hst hst']
      exact (int32_succ_iff hlow hhigh).2 (h url hurl hok st hst)
    · intro url hurl hok
      rw [called_contact] at hurl
      obtain ⟨st, hst⟩ := exists_stateOf_of_mem_tried hm hurl
      refine ⟨preferred_contact hurl hok, called r url st, ?_, ?_⟩
      · rw [stateOf_contact hm, if_pos hurl, hst, Option.map_some]
      · rw [called, if_pos hok]
        rfl
    · rw [called_contact, manager_contact]
      exact preferred_calls
    · intro url hurl
      rw [called_contact] at hurl
      rw [stateOf_contact hm, if_neg hurl]

/-! ### A counter at its end -/

/-- The call that makes a report. -/
def Report.op (rep : Report) : Op :=
  match rep.success with
  | some resp => .reportSuccess rep.url resp rep.time
  | none => .reportFailure rep.url rep.time

theorem step_op (m : TrackerManager) (rep : Report) : step S m rep.op = m.report rep := by
  unfold Report.op report
  cases rep.success <;> rfl

/-- A history of reports is a run. -/
theorem run_map_op (urls : List Bytes) (history : List Report) :
    run S urls (history.map Report.op) = afterReports urls history := by
  rw [run, List.foldl_map, afterReports]
  congr 1
  funext m rep
  exact step_op m rep

/-- A history of failures of one tracker. -/
def failures (url : Bytes) (n : ℕ) : List Report := List.replicate n ⟨url, 0, none⟩

theorem failuresInRow_failures (url : Bytes) (n : ℕ) : failuresInRow url (failures url n) = n := by
  simp [failuresInRow, reportsOn, failures]

theorem lastReport_failures (url : Bytes) (n : ℕ) :
    lastReport url (failures url (n + 1)) = some ⟨url, 0, none⟩ := by
  simp [lastReport, reportsOn, failures, List.getLast?_replicate]

/-- After `2 ^ 31 - 1` failures of a tracker the next failure overflows its counter. -/
theorem not_forall_meetsContract :
    ¬ ∀ (S : Sorter TrackerState) (urls : List Bytes) (ops : List Op) (r : Round)
        (maxAttempts : ℤ), Sound S (run S urls ops) r maxAttempts := by
  intro h
  let url := ascii "udp://a"
  let S := mergeSorter TrackerState
  let r : Round := ⟨seconds 1800, seconds 1800, fun _ => seconds 1800, fun _ => noTrackers⟩
  let m := run S [url] ((failures url (2147483646 + 1)).map Report.op)
  have hfail : ¬ noTrackers.ok := by decide
  have hurl : url ∈ [url] := List.mem_singleton_self url
  have hne : url ≠ [] := by decide
  have hrun : m = afterReports [url] (failures url (2147483646 + 1)) := run_map_op _ _
  have hm : m.WellFormed := wellFormed_run _ _
  obtain ⟨st, hst, hcount, hgate⟩ := stateOf_afterReports hurl hne (failures url (2147483646 + 1))
  rw [← hrun] at hst
  rw [failuresInRow_failures] at hcount hgate
  have hdue : url ∈ m.dueTrackers S r.dueNow := by
    refine (mem_dueTrackers hm).2 ⟨st, hst, ?_⟩
    rw [hgate _ (lastReport_failures url 2147483646)]
    decide
  have htried : url ∈ tried S m r (m.dueTrackers S r.dueNow).length := by
    have hself : tried S m r (m.dueTrackers S r.dueNow).length = m.dueTrackers S r.dueNow := by
      rw [tried, Int.toNat_natCast, List.take_length]
      exact upToSuccess_eq_self fun _ _ => hfail
    rwa [hself]
  exact not_meetsContract hm htried hfail hst (hcount.trans (by decide))
    (h S [url] _ r _).contract

end TrackerManager

end Gush
