import Gush.Downloader.Restart
import Gush.Loop.Refinement

/-!
# What an execution of the loop guarantees

A client from its constructor on: peers are added, `start` opens the files and restores what is
there, and the loop runs. `download_sound` collects what holds whenever the loop returns.
-/

namespace Gush

open Cxx Posix InFlight

namespace Downloader

variable {sha1 : Bytes → Bytes} {d : Downloader}

/-- A start that launches the loop has opened the files and restored all pieces. -/
theorem start_launched {faults : List Fault} {stopAfter : Option ℕ}
    (h : (d.start sha1 faults stopAfter).1 = true) : ∃ w w' files,
      openOutputFiles d.torrent d.savePath d.options.overwrite w = ((true, files), w') ∧
      (d.start sha1 faults stopAfter).2 =
        restoreCompletedPieces sha1 { d with world := w', outputFiles := files } d.torrent.numPieces := by
  unfold start at h ⊢
  rcases hdir : Utils.createDirectories { d.world with faults } d.savePath with ⟨_ | _, w⟩ <;>
    rw [hdir] at h
  · cases h
  dsimp only at h ⊢
  rcases hopen : openOutputFiles d.torrent d.savePath d.options.overwrite w with
    ⟨⟨_ | _, files⟩, w'⟩ <;> rw [hopen] at h
  · cases h
  dsimp only at h ⊢
  obtain ⟨hstop, -⟩ := (Bool.and_eq_true _ _).mp h
  rw [Option.isNone_iff_eq_none] at hstop
  exact ⟨w, w', files, hopen, by rw [hstop]; rfl⟩

theorem endgame_restore (sha1 : Bytes → Bytes) (d : Downloader) (rounds : ℕ) :
    (restoreCompletedPieces sha1 d rounds).endgame = d.endgame := by
  refine Run.invariant (P := fun d' : Downloader => d'.endgame = d.endgame) (fun d' i hd' => ?_) _ rfl
  rw [restorePiece]
  split
  dsimp only
  split_ifs
  · exact hd'
  · exact hd'

/-- A pending request keeps its connection: the events of the loop destroy none. -/
theorem owned_step {plain : Prop} (hd : d.Owned) {e : Event} (h : Client.LoopEvent plain d e) :
    (d.step sha1 e).Owned := by
  have hsound : Session.Sound { downloader := d, looping := true } := fun _ => hd
  cases e with
  | connections peers => exact fun req hreq => h.keeps peers rfl _ (hd req hreq)
  | message ptr msg faults failing => exact Session.sound_event hsound rfl rfl
  | request ptr sends now => exact Session.sound_event hsound rfl rfl
  | timeouts now => exact Session.sound_event hsound rfl rfl
  | endgame value => exact hd

/-- A download that is complete has counted every byte. -/
theorem downloadedBytes_of_isComplete {torrent : TorrentInfo} (h : Tracked torrent d)
    (ht : Fitting torrent) (hcomplete : d.isComplete = true) :
    d.downloadedBytes = torrent.totalLength := by
  have htorrent := h.torrent_eq
  subst htorrent
  rw [h.counted.bytes, receivedBytes, ← sum_pieceSize ht.accepted]
  refine Finset.sum_congr rfl fun i hi => ?_
  have hi := Finset.mem_range.1 hi
  have hcompleted := pieceCompleted_of_isComplete h.orderly.wellFormed h.counted.count hcomplete hi
  have hfull := (h.counted.completed i hi).1 hcompleted
  exact pieceBytes_of_full h.orderly.wellFormed ht hi
    ((full_iff h.orderly.wellFormed ht hi (h.counted.received i)).1 hfull)

/-- A downloader whose output files have been opened: they follow each other and are there, unless two
of them have one path. -/
structure FilesOpen (torrent : TorrentInfo) (options : DownloadOptions) (d : Downloader) : Prop where
  startable : Startable d
  torrent_eq : d.torrent = torrent
  options_eq : d.options = options
  mounted : (d.outputFiles.map OutputFile.path).Nodup →
    Consecutive d.outputFiles 0 ∧ Mounted d.world.fs d.outputFiles

/-- What holds of the requests in every run that begins with restoring. -/
theorem Startable.requests_restored (h : Startable d) (hmax : 0 ≤ d.options.maxRequestsPerPeer)
    {guard : Downloader → Event → Prop} {events : List Event}
    (halong : Run.Along (step sha1) guard (restoreCompletedPieces sha1 d d.torrent.numPieces) events) :
    let s := run sha1 (restoreCompletedPieces sha1 d d.torrent.numPieces) events
    (∀ i offset, s.requestsFor i offset ≤ 2) ∧
    ((∀ s e, guard s e → s.endgame = false) → ∀ i offset, s.requestsFor i offset ≤ 1) ∧
    ∀ ptr, s.currentRequests ptr ≤ d.options.maxRequestsPerPeer := by
  have hoptions := (restore_fields sha1 d d.torrent.numPieces h.wellFormed).2.2.1
  have hrequests := (h.restore sha1 d.torrent.numPieces).requests sha1 (by rwa [hoptions]) halong
  rwa [hoptions] at hrequests

end Downloader

namespace Client

variable {sha1 : Bytes → Bytes} {torrent : TorrentInfo}

/-- The constructor. -/
def init (torrent : TorrentInfo) (savePath : Bytes) (options : DownloadOptions)
    (loopOptions : LoopOptions) (world : World) : Client where
  base := .init torrent savePath options world
  loopOptions
  announceList := torrent.announceList
  trackerManager := .init torrent.announceList

/-- The calls of `addPeers` before the start. -/
def addKnown (c : Client) (known : List ((ℕ → ℤ) × List Peer)) : Client :=
  known.foldl (fun c call => c.addPeers call.1 call.2) c

/-- `start`; the loop is launched if the result is true. -/
def start (sha1 : Bytes → Bytes) (faults : List Fault) (stopAfter : Option ℕ) (c : Client) :
    Bool × Client :=
  ((c.downloader.start sha1 faults stopAfter).1,
    { c with base := (c.downloader.start sha1 faults stopAfter).2 })

theorem placed_init (torrent : TorrentInfo) (savePath : Bytes) (options : DownloadOptions)
    (loopOptions : LoopOptions) (world : World) :
    (init torrent savePath options loopOptions world).Placed :=
  ⟨List.nodup_nil, nofun⟩

/-- Adding peers makes connections, and nothing else. -/
theorem addKnown_spec (c : Client) (hplaced : c.Placed) (known : List ((ℕ → ℤ) × List Peer)) :
    (c.addKnown known).Placed ∧ (c.addKnown known).base = c.base := by
  have hadd : ∀ (c : Client) now peer, (c.addPeer now peer).base = c.base := by
    intro c now peer
    rcases c.addPeer_cases now peer with heq | ⟨-, -, heq⟩ <;> rw [heq] <;> rfl
  refine Run.invariant (P := fun c' : Client => c'.Placed ∧ c'.base = c.base) ?_ known ⟨hplaced, rfl⟩
  intro c' call hc'
  exact Run.invariant (P := fun c' : Client => c'.Placed ∧ c'.base = c.base)
    (fun c'' entry hc'' => ⟨hc''.1.addPeer _ _, (hadd c'' _ _).trans hc''.2⟩) call.2.zipIdx hc'

/-- `start` has a client with distinct pointers. -/
theorem placed_start {savePath : Bytes} {options : DownloadOptions} {loopOptions : LoopOptions}
    {world : World} {known : List ((ℕ → ℤ) × List Peer)} {faults : List Fault} {stopAfter : Option ℕ}
    {c : Client} (hstart : ((init torrent savePath options loopOptions world).addKnown known).start sha1
      faults stopAfter = (true, c)) : c.Placed := by
  obtain ⟨-, rfl⟩ := Prod.mk.inj hstart
  exact (addKnown_spec _ (placed_init torrent savePath options loopOptions world) known).1.of_eq rfl

/-- **Refinement.** Whatever the loop does with its connections, the download makes a run of its own
events: none of them destroys a connection, and the endgame flag is only set to what the counter of
missing blocks says. The loop ends with a complete download only if the run does. -/
theorem downloadLoop_refines {savePath : Bytes} {options : DownloadOptions} {loopOptions : LoopOptions}
    {world : World} {known : List ((ℕ → ℤ) × List Peer)} {faults : List Fault} {stopAfter : Option ℕ}
    {c c' : Client} (hstart : ((init torrent savePath options loopOptions world).addKnown known).start
      sha1 faults stopAfter = (true, c))
    {S : (α : Type) → Sorting.Sorter α} {o : Opening} {msg : Wire.PeerMessage} {rs : List Round}
    {complete : Bool} (hloop : c.downloadLoop S o sha1 msg rs = some (complete, c')) :
    ∃ events, Run.Along (Downloader.step sha1) (LoopEvent False) c.downloader events ∧
      Downloader.run sha1 c.downloader events = c'.downloader ∧
      (complete = true → (Downloader.run sha1 c.downloader events).isComplete = true) := by
  obtain ⟨events, halong, hrun⟩ := (runs_downloadLoop (placed_start hstart) hloop).2
  have hend : Downloader.run sha1 c.downloader events = c'.downloader := hrun
  refine ⟨events, halong, hend, ?_⟩
  rintro rfl
  rw [hend]
  exact isComplete_of_downloadLoop hloop

/-- A client whose loop has just been launched. -/
structure Launched (sha1 : Bytes → Bytes) (torrent : TorrentInfo) (options : DownloadOptions)
    (c : Client) : Prop where
  placed : c.Placed
  off : c.base.endgame = false
  restored : ∃ d, Downloader.FilesOpen torrent options d ∧ d.outputFiles = c.base.outputFiles ∧
    c.downloader = Downloader.restoreCompletedPieces sha1 d d.torrent.numPieces

/-- A `start` that launches the loop. -/
theorem launched_start (ht : Downloader.Fitting torrent) {savePath : Bytes} {options : DownloadOptions}
    {loopOptions : LoopOptions} {world : World} {known : List ((ℕ → ℤ) × List Peer)}
    {faults : List Fault} {stopAfter : Option ℕ} {c : Client}
    (hstart : ((init torrent savePath options loopOptions world).addKnown known).start sha1 faults
      stopAfter = (true, c)) : Launched sha1 torrent options c := by
  obtain ⟨hplaced, hbase⟩ := addKnown_spec _
    (placed_init torrent savePath options loopOptions world) known
  generalize hinit : (init torrent savePath options loopOptions world).addKnown known = c₀
  rw [hinit] at hstart hplaced hbase
  obtain ⟨htrue, rfl⟩ := Prod.mk.inj hstart
  obtain ⟨w, w', files, hopen, hrestored⟩ := Downloader.start_launched htrue
  have hstartable : Downloader.Startable
      { c₀.downloader with world := w', outputFiles := files } := by
    have hinit := Downloader.startable_init ht.accepted ht.pieceLength_le savePath options world
    rw [downloader, hbase]
    exact ⟨hinit.accepted, hinit.pieceLength_le, hinit.wellFormed.congr rfl rfl rfl, hinit.no_pending⟩
  have htorrent : c₀.downloader.torrent = torrent := by
    rw [downloader, hbase]
    rfl
  have hoptions : c₀.downloader.options = options := by
    rw [downloader, hbase]
    rfl
  have hfiles : (c₀.downloader.start sha1 faults stopAfter).2.outputFiles = files := by
    rw [hrestored]
    exact (Downloader.restore_fields sha1 _ _ hstartable.wellFormed).2.2.2.1
  have hoff : (c₀.downloader.start sha1 faults stopAfter).2.endgame = false := by
    rw [hrestored, Downloader.endgame_restore]
    show c₀.base.endgame = false
    rw [hbase]
    rfl
  refine ⟨hplaced.of_eq rfl, hoff, _, ⟨hstartable, htorrent, hoptions, fun hpaths => ?_⟩,
    hfiles.symm, ?_⟩
  · exact Downloader.openOutputFiles_true (htorrent.symm ▸ ht.accepted) hopen hpaths
  have hpeers := (Downloader.start_requests sha1 c₀.downloader faults stopAfter).1
  have hview : ({ c₀ with base := (c₀.downloader.start sha1 faults stopAfter).2 } : Client).downloader =
      (c₀.downloader.start sha1 faults stopAfter).2 :=
    congrArg (fun peers => { (c₀.downloader.start sha1 faults stopAfter).2 with peers }) hpeers.symm
  rw [hview, hrestored]

/-- Wherever the loop gets, the counters of the download are right. -/
theorem Launched.tracked {options : DownloadOptions} {c : Client}
    (h : Launched sha1 torrent options c) (ht : Downloader.Fitting torrent) {plain : Prop}
    {d' : Downloader} (hruns : Runs sha1 plain c.downloader d') : Downloader.Tracked torrent d' := by
  obtain ⟨d, hopened, -, hview⟩ := h.restored
  obtain rfl := hopened.torrent_eq
  rw [hview] at hruns
  obtain ⟨events, -, rfl⟩ := hruns
  exact Downloader.tracked_run sha1 hopened.startable ht events

/-! ### Executions -/

/-- What an execution guarantees in the end. -/
structure Guarantees (sha1 : Bytes → Bytes) (torrent : TorrentInfo) (options : DownloadOptions)
    (complete : Bool) (c : Client) : Prop where
  verified : ∀ i < torrent.numPieces, c.downloader.pieceCompleted i = true →
    c.downloader.VerifiedOnDisk sha1 i
  complete : complete = true → (∀ i < torrent.numPieces, c.downloader.VerifiedOnDisk sha1 i) ∧
    c.downloader.downloadedBytes = torrent.totalLength
  bytes : c.downloader.downloadedBytes = c.downloader.receivedBytes ∧
    0 ≤ c.downloader.downloadedBytes ∧ c.downloader.downloadedBytes ≤ torrent.totalLength
  owned : ∀ req ∈ c.downloader.pendingRequests, ∃ l ∈ c.links, l.ptr = req.peer
  copies : ∀ i offset, c.downloader.requestsFor i offset ≤ 2
  load : ∀ ptr, c.downloader.currentRequests ptr ≤ options.maxRequestsPerPeer

variable {options : DownloadOptions} {c c' : Client}

/-- Events of the loop, from the launch on. -/
theorem Launched.guarantees (h : Launched sha1 torrent options c) (ht : Downloader.Fitting torrent)
    (hpaths : (c.base.outputFiles.map Downloader.OutputFile.path).Nodup)
    (hmax : 0 ≤ options.maxRequestsPerPeer) {complete : Bool}
    (hruns : Runs sha1 False c.downloader c'.downloader)
    (hcomplete : complete = true → c'.downloader.isComplete = true) :
    Guarantees sha1 torrent options complete c' := by
  have htracked := h.tracked ht hruns
  obtain ⟨d, hopened, hfiles, hview⟩ := h.restored
  obtain ⟨hconsecutive, hmounted⟩ := hopened.mounted (hfiles ▸ hpaths)
  obtain rfl := hopened.torrent_eq
  obtain rfl := hopened.options_eq
  rw [hview] at hruns
  obtain ⟨events, halong, hrun⟩ := hruns
  have hsound := Downloader.sound_run sha1 hopened.startable ht hconsecutive hmounted events
  have hrequests := hopened.startable.requests_restored hmax halong
  -- at the launch no request is pending
  have howned := halong.invariant (P := Downloader.Owned)
    (fun _ _ hs he => Downloader.owned_step hs he) fun req hreq => by
      rw [(hopened.startable.restore sha1 d.torrent.numPieces).no_pending] at hreq
      cases hreq
  have hend : Downloader.run sha1 (Downloader.restoreCompletedPieces sha1 d d.torrent.numPieces)
      events = c'.downloader := hrun
  rw [hend] at hsound hrequests
  rw [hrun] at howned
  have htorrent := htracked.torrent_eq
  have hfitting : Downloader.Fitting c'.downloader.torrent := htorrent.symm ▸ ht
  have hverified : ∀ i < d.torrent.numPieces, c'.downloader.pieceCompleted i = true →
      c'.downloader.VerifiedOnDisk sha1 i := fun i hi => hsound.verified i (htorrent.symm ▸ hi)
  refine ⟨hverified, fun htrue => ⟨fun i hi => hverified i hi ?_, ?_⟩,
    ⟨htracked.counted.bytes, ?_, ?_⟩, fun req hreq => ?_, hrequests.1, hrequests.2.2⟩
  · exact Downloader.pieceCompleted_of_isComplete htracked.orderly.wellFormed htracked.counted.count
      (hcomplete htrue) (htorrent.symm ▸ hi)
  · exact Downloader.downloadedBytes_of_isComplete htracked ht (hcomplete htrue)
  · rw [htracked.counted.bytes]
    exact Downloader.receivedBytes_nonneg htracked.orderly.wellFormed hfitting
  · rw [htracked.counted.bytes, ← htorrent]
    exact Downloader.receivedBytes_le htracked.orderly.wellFormed hfitting
  · have hmem := howned req hreq
    rw [map_ptr_peers] at hmem
    obtain ⟨l, hl, hptr⟩ := List.mem_map.1 hmem
    exact ⟨l, hl, hptr⟩

/-- **Main result.** Take a client from its constructor on, for a torrent within the limits and with a
limit on the requests per peer that is not negative: some peers are added, `start` launches the loop
on output files whose paths differ, and the loop returns, whatever peers, trackers and the disk have
done. Then every piece that is marked as complete is on disk with the hash of the torrent; if the loop
has ended because the download is complete, all pieces are; the bytes are counted exactly; and every
pending request names a connection that is still there, is one of at most two for its block, and one of
few for its peer. -/
theorem download_sound (ht : Downloader.Fitting torrent) {savePath : Bytes} {loopOptions : LoopOptions}
    {world : World} (hmax : 0 ≤ options.maxRequestsPerPeer) {known : List ((ℕ → ℤ) × List Peer)}
    {faults : List Fault} {stopAfter : Option ℕ}
    (hstart : ((init torrent savePath options loopOptions world).addKnown known).start sha1 faults
      stopAfter = (true, c))
    (hpaths : (c.base.outputFiles.map Downloader.OutputFile.path).Nodup)
    {S : (α : Type) → Sorting.Sorter α} {o : Opening} {msg : Wire.PeerMessage} {rs : List Round}
    {complete : Bool} (hloop : c.downloadLoop S o sha1 msg rs = some (complete, c')) :
    Guarantees sha1 torrent options complete c' := by
  have hlaunched := launched_start ht hstart
  refine hlaunched.guarantees ht hpaths hmax (runs_downloadLoop hlaunched.placed hloop).2 ?_
  rintro rfl
  exact isComplete_of_downloadLoop hloop

/-! ### A session of two rounds -/

open Downloader (oneBlockTorrent oneDirectory sevenHash)

/-- A client with one known peer, before the start. -/
def oneKnown : Client :=
  (init oneBlockTorrent (ascii "d") {} {} { fs := oneDirectory }).addKnown
    [(fun _ => 0, [⟨ascii "1.2.3.4", 6881, []⟩])]

/-- No lists of trackers, no trackers and no DHT. -/
def quietOpening : Opening where
  now := 0
  lists :=
    { net :=
        { resolves := fun _ _ => false, transactionId := 0, key := 0, beforeConnect := []
          beforeAnnounce := [], beforePeers := [] }
      transfer := fun _ => .failed []
      unassigned := fun _ => 0 }
  trackers := ⟨0, 0, fun _ => 0, fun _ => {}⟩
  added _ := 0
  dhtFuel := 0
  dhtNetwork :=
    { getaddrinfo := fun _ _ _ => none, socket := false, nodeId := [], transaction := fun _ => []
      sendto := fun _ => 0, inbox := [] }
  dhtAdded _ := 0

/-- An iteration in which every peer sends its handshake, if it is asked for it, and some bytes. -/
def roundOf (sent : Bytes) : Round where
  attempts _ :=
    { now := 0, net := { incoming := Wire.handshake oneBlockTorrent.infoHash [] }, done := 0 }
  receptions _ := [{ arrived := sent }, {}, {}]
  discovered _ := 0
  sends _ := []
  asked _ := 0
  cleanup := 0
  pruneDue := 0
  prune := 0
  evicted _ := 0
  now := 0
  lists := quietOpening.lists
  trackers := quietOpening.trackers
  added _ := 0

/-- The bitfield and an unchoke message in the first iteration, and the block in the second one. -/
def oneSession : List Round :=
  [roundOf [0, 0, 0, 2, 5, 0x80, 0, 0, 0, 1, 1],
    roundOf [0, 0, 0, 10, 7, 0, 0, 0, 0, 0, 0, 0, 0, 7]]

/-- The loop of the client, over some iterations. -/
def oneEnd (rs : List Round) : Option (Bool × Client) :=
  (oneKnown.start sevenHash [] none).2.downloadLoop Sorting.mergeSorter quietOpening sevenHash
    { id := .keepAlive, length := 0 } rs

theorem oneKnown_start : (oneKnown.start sevenHash [] none).1 = true := by decide +kernel

theorem oneEnd_oneSession : (oneEnd oneSession).map Prod.fst = some true := by decide +kernel

/-- The iterations as events of the download. -/
theorem downloadLoop_refines_oneBlock : ∃ events,
    Run.Along (Downloader.step sevenHash) (LoopEvent False)
      (oneKnown.start sevenHash [] none).2.downloader events ∧
    (Downloader.run sevenHash (oneKnown.start sevenHash [] none).2.downloader events).isComplete =
      true := by
  obtain ⟨⟨complete, c'⟩, hloop, rfl⟩ := Option.map_eq_some_iff.1 oneEnd_oneSession
  obtain ⟨events, halong, -, hcomplete⟩ := downloadLoop_refines (Prod.ext oneKnown_start rfl) hloop
  exact ⟨events, halong, hcomplete rfl⟩

/-- The peer connects, chokes no more, is asked for the block and sends it: the download is
complete. -/
theorem download_sound_oneBlock : ∃ c', oneEnd oneSession = some (true, c') ∧
    Guarantees sevenHash oneBlockTorrent {} true c' := by
  obtain ⟨⟨complete, c'⟩, hloop, rfl⟩ := Option.map_eq_some_iff.1 oneEnd_oneSession
  exact ⟨c', hloop, download_sound
    ⟨Downloader.startable_oneBlock.accepted, by decide, by decide, by decide⟩ (by decide)
    (Prod.ext oneKnown_start rfl) (by decide +kernel) hloop⟩

end Client

end Gush
