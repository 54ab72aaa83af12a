import Gush.Lib.FirstMatch
import Gush.Lib.Run
import Gush.Lib.Sorting
import Gush.Tracker.Udp

/-!
# The trackers of a torrent

`TrackerManager`: which trackers are due, in which order they are tried, and what the outcome of a
request does to them. Times are ticks of the steady clock, nanoseconds from its epoch; every event
carries the times at which the source reads the clock.

`contact` gives, with its answer, the trackers it called in order (`Contacted.called`). The sort that
`dueTrackers` calls is any sort by a comparison (`Sorting.Sorter`).
-/

namespace Gush

open Cxx FirstMatch Sorting

/-- `TrackerState`. -/
structure TrackerState where
  url : Bytes
  consecutiveFailures : ℤ := 0
  /-- The last successful announce interval. -/
  interval : ℤ := 1800
  lastPeerCount : ℤ := 0
  everSucceeded : Bool := false
  /-- The backoff gate. -/
  nextAllowed : ℤ := 0
  lastAttempt : ℤ := 0
  deriving DecidableEq

/-- `TrackerManager`. -/
structure TrackerManager where
  trackers : List TrackerState := []
  /-- The tracker that succeeded most recently. -/
  preferred : Bytes := []

namespace TrackerManager

/-- `std::chrono::seconds`, in ticks. -/
def seconds (n : ℤ) : ℤ := n * 10 ^ 9

/-- `MAX_BACKOFF_SECONDS`. -/
def maxBackoffSeconds : ℤ := 1800

/-- `BASE_BACKOFF_SECONDS`. -/
def baseBackoffSeconds : ℤ := 30

/-- A shift by a negative count, which the language leaves undefined, shifts by nothing here; the
counter is negative only after it has overflowed. -/
def backoffSeconds (consecutiveFailures : ℤ) : ℤ :=
  int32 (min (baseBackoffSeconds * 2 ^ (min consecutiveFailures 12).toNat) maxBackoffSeconds)

/-! ### Reports -/

/-- The body of the loop in `reportSuccess`. -/
def succeeded (resp : TrackerResponse) (now : ℤ) (st : TrackerState) : TrackerState :=
  { st with
    consecutiveFailures := 0
    everSucceeded := true
    interval := if resp.interval > 0 then resp.interval else 1800
    lastPeerCount := resp.peers.length
    nextAllowed := now }

/-- The body of the loop in `reportFailure`. -/
def failed (now : ℤ) (st : TrackerState) : TrackerState :=
  { st with
    consecutiveFailures := int32 (st.consecutiveFailures + 1)
    nextAllowed := now + seconds (backoffSeconds (int32 (st.consecutiveFailures + 1))) }

/-- The body of the loop over the trackers in `contact`. -/
def attempted (now : ℤ) (st : TrackerState) : TrackerState := { st with lastAttempt := now }

def reportSuccess (m : TrackerManager) (url : Bytes) (resp : TrackerResponse) (now : ℤ) :
    TrackerManager :=
  { preferred := url, trackers := modifyFirst TrackerState.url url (succeeded resp now) m.trackers }

def reportFailure (m : TrackerManager) (url : Bytes) (now : ℤ) : TrackerManager :=
  { m with trackers := modifyFirst TrackerState.url url (failed now) m.trackers }

/-- The inner loop of `contact`. -/
def attempt (m : TrackerManager) (url : Bytes) (now : ℤ) : TrackerManager :=
  { m with trackers := modifyFirst TrackerState.url url (attempted now) m.trackers }

/-! ### The list of trackers -/

def urls (m : TrackerManager) : List Bytes := m.trackers.map TrackerState.url

def add (m : TrackerManager) (url : Bytes) : TrackerManager :=
  if url = [] then m
  else if url ∈ m.urls then m
  else { m with trackers := m.trackers ++ [{ url := url }] }

def addAll (m : TrackerManager) (urls : List Bytes) : TrackerManager := urls.foldl add m

/-- The constructor. -/
def init (urls : List Bytes) : TrackerManager := addAll {} urls

/-! ### Due trackers -/

/-- The comparison that `dueTrackers` sorts by. -/
def before (preferred : Bytes) (a b : TrackerState) : Bool :=
  if a.url = preferred then true
  else if b.url = preferred then false
  else if a.consecutiveFailures ≠ b.consecutiveFailures then
    a.consecutiveFailures < b.consecutiveFailures
  else a.lastAttempt < b.lastAttempt

/-- The trackers that `dueTrackers` sorts. -/
def due (m : TrackerManager) (now : ℤ) : List TrackerState :=
  m.trackers.filter fun st => now ≥ st.nextAllowed

def dueTrackers (S : Sorter TrackerState) (m : TrackerManager) (now : ℤ) : List Bytes :=
  (S.sort (before m.preferred) (m.due now)).map TrackerState.url

/-! ### Contacting -/

/-- What happens during a call of `contact`: the clock where it starts, where the due trackers are
collected and where the outcome for a tracker is reported, and the answer of each tracker. -/
structure Round where
  now : ℤ
  dueNow : ℤ
  reported : Bytes → ℤ
  contactTracker : Bytes → TrackerResponse

/-- The outcome of `contact`, with the trackers it called. -/
structure Contacted where
  response : TrackerResponse
  called : List Bytes := []
  manager : TrackerManager

/-- The response that `contact` starts from. -/
def noTrackers : TrackerResponse :=
  { failure := ascii "No trackers available (none configured or all in backoff)" }

def contactLoop (r : Round) (maxAttempts : ℤ) :
    List Bytes → TrackerManager → ℤ → TrackerResponse → Contacted
  | [], m, _, lastResponse => { response := lastResponse, manager := m }
  | url :: rest, m, attempts, lastResponse =>
    if attempts ≥ maxAttempts then { response := lastResponse, manager := m }
    else
      let m := m.attempt url r.now
      let resp := r.contactTracker url
      if resp.ok then
        { response := resp, called := [url], manager := m.reportSuccess url resp (r.reported url) }
      else
        let next :=
          contactLoop r maxAttempts rest (m.reportFailure url (r.reported url)) (attempts + 1) resp
        { next with called := url :: next.called }

def contact (S : Sorter TrackerState) (m : TrackerManager) (r : Round) (maxAttempts : ℤ) :
    Contacted :=
  contactLoop r maxAttempts (m.dueTrackers S r.dueNow) m 0 noTrackers

section Loop

variable {r : Round} {maxAttempts attempts : ℤ} {url : Bytes} {rest : List Bytes}
  {m : TrackerManager} {lastResponse : TrackerResponse}

theorem contactLoop_enough (h : attempts ≥ maxAttempts) :
    contactLoop r maxAttempts (url :: rest) m attempts lastResponse =
      { response := lastResponse, manager := m } := by
  rw [contactLoop, if_pos h]

theorem contactLoop_success (h : ¬ attempts ≥ maxAttempts) (hok : (r.contactTracker url).ok) :
    contactLoop r maxAttempts (url :: rest) m attempts lastResponse =
      { response := r.contactTracker url
        called := [url]
        manager := (m.attempt url r.now).reportSuccess url (r.contactTracker url)
          (r.reported url) } := by
  rw [contactLoop, if_neg h, if_pos hok]

theorem contactLoop_failure (h : ¬ attempts ≥ maxAttempts) (hok : ¬ (r.contactTracker url).ok) :
    contactLoop r maxAttempts (url :: rest) m attempts lastResponse =
      let next := contactLoop r maxAttempts rest
        ((m.attempt url r.now).reportFailure url (r.reported url)) (attempts + 1)
        (r.contactTracker url)
      { next with called := url :: next.called } := by
  rw [contactLoop, if_neg h, if_neg hok]

end Loop

/-! ### Runs -/

/-- A call on the manager. -/
inductive Op
  | add (url : Bytes)
  | addAll (urls : List Bytes)
  | reportSuccess (url : Bytes) (resp : TrackerResponse) (now : ℤ)
  | reportFailure (url : Bytes) (now : ℤ)
  | contact (r : Round) (maxAttempts : ℤ)

def step (S : Sorter TrackerState) (m : TrackerManager) : Op → TrackerManager
  | .add url => m.add url
  | .addAll urls => m.addAll urls
  | .reportSuccess url resp now => m.reportSuccess url resp now
  | .reportFailure url now => m.reportFailure url now
  | .contact r maxAttempts => (m.contact S r maxAttempts).manager

/-- The manager after a history of calls. -/
def run (S : Sorter TrackerState) (urls : List Bytes) (ops : List Op) : TrackerManager :=
  ops.foldl (step S) (init urls)

/-! ### What is known of a tracker -/

/-- The state of the tracker with a URL. -/
def stateOf (m : TrackerManager) (url : Bytes) : Option TrackerState :=
  lookup TrackerState.url url m.trackers

variable {S : Sorter TrackerState} {m : TrackerManager} {url url' : Bytes} {resp : TrackerResponse}
  {now : ℤ}

@[simp] theorem urls_reportSuccess : (m.reportSuccess url resp now).urls = m.urls :=
  map_key_modifyFirst fun _ => rfl

@[simp] theorem urls_reportFailure : (m.reportFailure url now).urls = m.urls :=
  map_key_modifyFirst fun _ => rfl

@[simp] theorem urls_attempt : (m.attempt url now).urls = m.urls :=
  map_key_modifyFirst fun _ => rfl

@[simp] theorem preferred_reportSuccess : (m.reportSuccess url resp now).preferred = url := rfl

@[simp] theorem preferred_reportFailure :
    (m.reportFailure url now).preferred = m.preferred := rfl

@[simp] theorem preferred_attempt : (m.attempt url now).preferred = m.preferred := rfl

theorem stateOf_reportSuccess : (m.reportSuccess url resp now).stateOf url' =
    if url' = url then (m.stateOf url').map (succeeded resp now) else m.stateOf url' :=
  lookup_modifyFirst fun _ => rfl

theorem stateOf_reportFailure : (m.reportFailure url now).stateOf url' =
    if url' = url then (m.stateOf url').map (failed now) else m.stateOf url' :=
  lookup_modifyFirst fun _ => rfl

theorem stateOf_attempt : (m.attempt url now).stateOf url' =
    if url' = url then (m.stateOf url').map (attempted now) else m.stateOf url' :=
  lookup_modifyFirst fun _ => rfl

theorem exists_stateOf_iff : (∃ st, m.stateOf url = some st) ↔ url ∈ m.urls := exists_lookup_iff

theorem url_of_stateOf {st : TrackerState} (h : m.stateOf url = some st) : st.url = url :=
  key_of_lookup h

theorem mem_of_stateOf {st : TrackerState} (h : m.stateOf url = some st) : st ∈ m.trackers :=
  mem_of_lookup h

/-! ### Well-formed managers -/

/-- The trackers have distinct URLs, none of them empty, and their counters are `int`s. -/
structure WellFormed (m : TrackerManager) : Prop where
  nodup : m.urls.Nodup
  nonempty : [] ∉ m.urls
  counts : ∀ url st, m.stateOf url = some st →
    -2 ^ 31 ≤ st.consecutiveFailures ∧ st.consecutiveFailures < 2 ^ 31

theorem urls_add :
    (m.add url).urls = if url = [] ∨ url ∈ m.urls then m.urls else m.urls ++ [url] := by
  rw [add]
  by_cases hnil : url = []
  · simp [hnil]
  · by_cases hmem : url ∈ m.urls
    · simp [hnil, hmem]
    · rw [if_neg hnil, if_neg hmem, if_neg (by simp [hnil, hmem])]
      simp [urls]

theorem mem_urls_addAll {urls : List Bytes} :
    url ∈ (m.addAll urls).urls ↔ url ∈ m.urls ∨ url ∈ urls ∧ url ≠ [] := by
  induction urls generalizing m with
  | nil => simp [addAll]
  | cons url' urls ih =>
    have hstep : m.addAll (url' :: urls) = (m.add url').addAll urls := rfl
    rw [hstep, ih, urls_add, List.mem_cons]
    by_cases hadd : url' = [] ∨ url' ∈ m.urls
    · rw [if_pos hadd]
      grind
    · rw [if_neg hadd, List.mem_append, List.mem_singleton]
      grind

/-- A tracker that is there already keeps its state. -/
theorem stateOf_add {st : TrackerState} (h : (m.add url).stateOf url' = some st) :
    m.stateOf url' = some st ∨ st = { url := url } := by
  rw [add] at h
  split_ifs at h with hnil hmem
  · exact .inl h
  · exact .inl h
  · rw [stateOf, lookup_append_singleton, Option.or_eq_some_iff] at h
    rcases h with h | ⟨-, h⟩
    · exact .inl h
    · split_ifs at h
      cases h
      exact .inr rfl

theorem wellFormed_add (hm : m.WellFormed) : (m.add url).WellFormed := by
  refine ⟨?_, ?_, ?_⟩
  · rw [urls_add]
    split_ifs with h
    · exact hm.nodup
    · rw [not_or] at h
      exact hm.nodup.append (List.nodup_singleton _) (by simpa using h.2)
  · rw [urls_add]
    split_ifs with h
    · exact hm.nonempty
    · rw [not_or] at h
      simpa [hm.nonempty] using Ne.symm h.1
  · intro url' st hst
    rcases stateOf_add hst with h | rfl
    · exact hm.counts _ _ h
    · norm_num

theorem wellFormed_addAll (hm : m.WellFormed) (urls : List Bytes) : (m.addAll urls).WellFormed :=
  Run.invariant (fun _ _ h => wellFormed_add h) urls hm

theorem wellFormed_init (urls : List Bytes) : (init urls).WellFormed :=
  wellFormed_addAll ⟨by simp [TrackerManager.urls], by simp [TrackerManager.urls],
    by simp [stateOf]⟩ urls

/-- Changing the state of one tracker keeps the manager well formed if it keeps the counter an
`int`. -/
theorem wellFormed_of_stateOf {m' : TrackerManager} {f : TrackerState → TrackerState}
    (hm : m.WellFormed) (hurls : m'.urls = m.urls)
    (hstate : ∀ url', m'.stateOf url' =
      if url' = url then (m.stateOf url').map f else m.stateOf url')
    (hf : ∀ st, -2 ^ 31 ≤ st.consecutiveFailures ∧ st.consecutiveFailures < 2 ^ 31 →
      -2 ^ 31 ≤ (f st).consecutiveFailures ∧ (f st).consecutiveFailures < 2 ^ 31) :
    m'.WellFormed := by
  refine ⟨hurls ▸ hm.nodup, hurls ▸ hm.nonempty, fun url' st hst => ?_⟩
  rw [hstate] at hst
  split_ifs at hst
  · obtain ⟨st', hst', rfl⟩ := Option.map_eq_some_iff.1 hst
    exact hf st' (hm.counts url' st' hst')
  · exact hm.counts url' st hst

theorem wellFormed_reportSuccess (hm : m.WellFormed) : (m.reportSuccess url resp now).WellFormed :=
  wellFormed_of_stateOf hm urls_reportSuccess (fun _ => stateOf_reportSuccess) fun st _ => by
    norm_num [succeeded]

theorem int32_bounds (x : ℤ) : -2 ^ 31 ≤ int32 x ∧ int32 x < 2 ^ 31 := by
  unfold int32
  have hle := @Int.le_bmod x (2 ^ 32) (by norm_num)
  have hlt := @Int.bmod_lt x (2 ^ 32) (by norm_num)
  omega

theorem wellFormed_reportFailure (hm : m.WellFormed) : (m.reportFailure url now).WellFormed :=
  wellFormed_of_stateOf hm urls_reportFailure (fun _ => stateOf_reportFailure) fun _ _ =>
    int32_bounds _

theorem wellFormed_attempt (hm : m.WellFormed) : (m.attempt url now).WellFormed :=
  wellFormed_of_stateOf hm urls_attempt (fun _ => stateOf_attempt) fun _ h => h

theorem wellFormed_contactLoop {r : Round} {maxAttempts : ℤ} {rest : List Bytes} {attempts : ℤ}
    {lastResponse : TrackerResponse} (hm : m.WellFormed) :
    (contactLoop r maxAttempts rest m attempts lastResponse).manager.WellFormed := by
  induction rest generalizing m attempts lastResponse with
  | nil => exact hm
  | cons url rest ih =>
    have hm' : (m.attempt url r.now).WellFormed := wellFormed_attempt hm
    by_cases hmax : attempts ≥ maxAttempts
    · rw [contactLoop_enough hmax]
      exact hm
    · by_cases hok : (r.contactTracker url).ok
      · rw [contactLoop_success hmax hok]
        exact wellFormed_reportSuccess hm'
      · rw [contactLoop_failure hmax hok]
        exact ih (wellFormed_reportFailure hm')

theorem wellFormed_step {op : Op} (hm : m.WellFormed) : (step S m op).WellFormed := by
  cases op with
  | add url => exact wellFormed_add hm
  | addAll urls => exact wellFormed_addAll hm urls
  | reportSuccess url resp now => exact wellFormed_reportSuccess hm
  | reportFailure url now => exact wellFormed_reportFailure hm
  | contact r maxAttempts => exact wellFormed_contactLoop hm

/-- Every manager that calls reach is well formed. -/
theorem wellFormed_run (urls : List Bytes) (ops : List Op) : (run S urls ops).WellFormed :=
  Run.invariant (fun _ _ h => wellFormed_step h) ops (wellFormed_init urls)

/-! ### Being due -/

theorem dueTrackers_perm : (m.dueTrackers S now).Perm ((m.due now).map TrackerState.url) :=
  (S.perm _ _).map _

theorem nodup_map_due (hm : m.WellFormed) : ((m.due now).map TrackerState.url).Nodup :=
  hm.nodup.sublist ((List.filter_sublist).map TrackerState.url)

theorem nodup_dueTrackers (hm : m.WellFormed) : (m.dueTrackers S now).Nodup :=
  dueTrackers_perm.nodup_iff.2 (nodup_map_due hm)

/-- The due trackers are those whose gate is open. -/
theorem mem_dueTrackers (hm : m.WellFormed) :
    url ∈ m.dueTrackers S now ↔ ∃ st, m.stateOf url = some st ∧ st.nextAllowed ≤ now := by
  rw [dueTrackers_perm.mem_iff, List.mem_map]
  constructor
  · rintro ⟨st, hst, rfl⟩
    obtain ⟨hmem, hnow⟩ := List.mem_filter.1 hst
    exact ⟨st, (mem_iff_lookup hm.nodup).1 hmem, by simpa using hnow⟩
  · rintro ⟨st, hst, hnow⟩
    exact ⟨st, List.mem_filter.2 ⟨mem_of_stateOf hst, by simpa using hnow⟩, url_of_stateOf hst⟩

end TrackerManager

end Gush
