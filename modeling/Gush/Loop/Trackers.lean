import Gush.Loop.Limits
import Gush.Tracker.Rounds

/-!
# The trackers of the loop

The list of trackers in the torrent and the one of the manager are two lists, and only the loop adds
to them. Wherever the loop gets, the manager has the trackers of the torrent, each once and in their
order (`trackers_in_step`).
-/

namespace Gush

open Cxx Merge Sorting

namespace TrackerManager

variable {m : TrackerManager} {url : Bytes}

/-- Adding a tracker inserts its URL. -/
theorem urls_add_eq : (m.add url).urls = if url = [] then m.urls else insertNew m.urls url := by
  rw [urls_add, insertNew]
  by_cases hnil : url = []
  · rw [if_pos (.inl hnil), if_pos hnil]
  · simp only [hnil, false_or, if_false]
    split_ifs <;> rfl

theorem urls_addAll (m : TrackerManager) (urls : List Bytes) :
    (m.addAll urls).urls = merge m.urls (urls.filter fun url => url ≠ []) := by
  induction urls generalizing m with
  | nil => rfl
  | cons url rest ih =>
    have hstep : (m.addAll (url :: rest)).urls = ((m.add url).addAll rest).urls := rfl
    rw [hstep, ih, urls_add_eq, List.filter_cons]
    by_cases hnil : url = []
    · simp [hnil]
    · simp [hnil, merge_cons]

/-- Contacting the trackers leaves their list alone. -/
theorem urls_contact (S : Sorter TrackerState) (m : TrackerManager) (r : Round) (maxAttempts : ℤ) :
    (m.contact S r maxAttempts).manager.urls = m.urls := by
  rw [manager_contact]
  exact urls_calls _

end TrackerManager

namespace Client

variable {sha1 : Bytes → Bytes} {T : ℤ → Prop} {plain : Prop} {c c' : Client}
  {torrent : TorrentInfo} {savePath : Bytes} {options : DownloadOptions} {loopOptions : LoopOptions}
  {world : Posix.World} {known : List ((ℕ → ℤ) × List Peer)} {faults : List Posix.Fault}
  {stopAfter : Option ℕ}

/-- The manager has the trackers of the torrent. These are those that it came with, and behind them new
ones with a known protocol, if trackers are refreshed. -/
structure InStep (torrent : TorrentInfo) (c : Client) : Prop where
  urls : c.trackerManager.urls = merge [] (c.announceList.filter fun url => url ≠ [])
  added : ∃ added, c.announceList = torrent.announceList ++ added ∧ added.Nodup ∧
    (∀ url ∈ added, url ∉ torrent.announceList ∧ TrackerList.isValidTrackerUrl url = true) ∧
    (c.loopOptions.refreshTrackers = false → added = [])

theorem InStep.of_sameTrackers (h : c.InStep torrent) (hs : SameTrackers c c') : c'.InStep torrent where
  urls := by
    rw [hs.trackerManager, hs.announceList]
    exact h.urls
  added := by
    rw [hs.announceList, hs.loopOptions]
    exact h.added

/-- A tracker that is new to the torrent is added to both lists, or to none. -/
theorem InStep.addTracker (h : c.InStep torrent) {tracker : Bytes}
    (hrefresh : c.loopOptions.refreshTrackers = true)
    (hvalid : TrackerList.isValidTrackerUrl tracker = true) :
    (c.addTracker tracker).InStep torrent := by
  rw [Client.addTracker]
  split_ifs with hfound
  · exact h
  have hknown : tracker ∉ c.announceList := fun hmem => hfound (List.contains_iff_mem.2 hmem)
  have hne : tracker ≠ [] := (of_decide_eq_true hvalid).2
  obtain ⟨added, hadded, hnodup, hnew, -⟩ := h.added
  refine ⟨?_, added ++ [tracker], ?_, ?_, ?_, ?_⟩
  · have hfilter : (c.announceList ++ [tracker]).filter (fun url => url ≠ []) =
        c.announceList.filter (fun url => url ≠ []) ++ [tracker] := by simp [hne]
    show (c.trackerManager.add tracker).urls = _
    rw [TrackerManager.urls_add_eq, if_neg hne, h.urls, hfilter, merge_append]
    rfl
  · show c.announceList ++ [tracker] = _
    rw [hadded, List.append_assoc]
  · refine hnodup.append (List.nodup_singleton tracker) ?_
    rw [List.disjoint_singleton]
    exact fun hmem => hknown (hadded ▸ List.mem_append_right _ hmem)
  · intro url hurl
    rcases List.mem_append.1 hurl with hold | hlast
    · exact hnew url hold
    · obtain rfl := List.mem_singleton.1 hlast
      exact ⟨fun hmem => hknown (hadded ▸ List.mem_append_left _ hmem), hvalid⟩
  · exact fun hoff => absurd (hoff.symm.trans hrefresh) Bool.false_ne_true

theorem InStep.act (h : c.InStep torrent) {a : Action} (ha : Allowed T plain c a) :
    (c.act sha1 a).InStep torrent := by
  have hother : ¬ a.Tracks → (c.act sha1 a).InStep torrent := fun hno =>
    h.of_sameTrackers (sameTrackers_act follows_ages (asks_true c.downloader) hno)
  cases a with
  | addTracker tracker => exact h.addTracker ha.enabled.1 ha.enabled.2
  | contact S trackers =>
    exact ⟨(TrackerManager.urls_contact S c.trackerManager trackers 3).trans h.urls, h.added⟩
  | _ => exact hother not_false

/-- The constructor gives both lists the trackers of the torrent. -/
theorem inStep_init (torrent : TorrentInfo) (savePath : Bytes) (options : DownloadOptions)
    (loopOptions : LoopOptions) (world : Posix.World) :
    (init torrent savePath options loopOptions world).InStep torrent where
  urls := TrackerManager.urls_addAll {} torrent.announceList
  added := ⟨[], (List.append_nil _).symm, List.nodup_nil, nofun, fun _ => rfl⟩

theorem inStep_start (hstart : ((init torrent savePath options loopOptions world).addKnown known).start
    sha1 faults stopAfter = (true, c)) : c.InStep torrent := by
  have hknown : ((init torrent savePath options loopOptions world).addKnown known).InStep torrent :=
    Run.invariant (P := fun c : Client => c.InStep torrent)
      (fun _ call hc => Run.invariant (P := fun c : Client => c.InStep torrent)
        (fun _ _ hc' => hc'.of_sameTrackers (sameTrackers_addPeer _ _)) call.2.zipIdx hc)
      known (inStep_init torrent savePath options loopOptions world)
  obtain ⟨-, rfl⟩ := Prod.mk.inj hstart
  exact hknown.of_sameTrackers ⟨rfl, rfl, rfl⟩

/-- **The trackers stay in step.** Whenever the loop returns, the manager has every tracker of the
torrent that is not empty, once and where it is first mentioned. The torrent has the trackers it came
with, and behind them new ones with a known protocol, if trackers are refreshed. -/
theorem trackers_in_step (hstart : ((init torrent savePath options loopOptions world).addKnown
      known).start sha1 faults stopAfter = (true, c))
    {S : (α : Type) → Sorter α} {o : Opening} {msg : Wire.PeerMessage} {rs : List Round}
    {complete : Bool} (hloop : c.downloadLoop S o sha1 msg rs = some (complete, c')) :
    c'.trackerManager.urls = merge [] (c'.announceList.filter fun url => url ≠ []) ∧
    ∃ added, c'.announceList = torrent.announceList ++ added ∧ added.Nodup ∧
      (∀ url ∈ added, url ∉ torrent.announceList ∧ TrackerList.isValidTrackerUrl url = true) ∧
      (loopOptions.refreshTrackers = false → added = []) := by
  have hleads : Leads sha1 (fun _ => True) False c c' := downloadLoop_leads (clocked_true o rs) hloop
  have hc' : c'.InStep torrent := Run.Reaches.invariant (P := fun s : Client => s.InStep torrent)
    (fun _ _ hs ha => hs.act ha) hleads (inStep_start hstart)
  obtain ⟨hc, hoptions⟩ := tidy_start hstart
  have hsame : c'.loopOptions = loopOptions := (Leads.tidy hleads hc).2.trans hoptions
  exact ⟨hc'.urls, hsame ▸ hc'.added⟩

/-- The lists of trackers have a new one. -/
def listedOpening : Opening := { quietOpening with
  lists := { quietOpening.lists with
    transfer := fun _ => .answered 200 (ascii "# best\nudp://a:1\nftp://b\n") } }

/-- The loop of the client, with these lists. -/
def listedEnd : Option (Bool × Client) :=
  (oneKnown.start Downloader.sevenHash [] none).2.downloadLoop mergeSorter listedOpening
    Downloader.sevenHash { id := .keepAlive, length := 0 } oneSession

/-- The tracker is added to both lists. -/
theorem trackers_in_step_oneBlock : ∃ c', listedEnd = some (true, c') ∧
    c'.announceList = [ascii "udp://a:1"] ∧
    c'.trackerManager.urls = merge [] (c'.announceList.filter fun url => url ≠ []) := by
  have hend : listedEnd.map (fun out => (out.1, out.2.announceList)) =
      some (true, [ascii "udp://a:1"]) := by decide +kernel
  obtain ⟨⟨_, c'⟩, hloop, hout⟩ := Option.map_eq_some_iff.1 hend
  obtain ⟨rfl, hannounce⟩ := Prod.mk.inj hout
  exact ⟨c', hloop, hannounce, (trackers_in_step (Prod.ext oneKnown_start rfl) hloop).1⟩

end Client

end Gush
