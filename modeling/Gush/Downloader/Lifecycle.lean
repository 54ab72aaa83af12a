import Gush.Downloader.Verified

/-!
# Starting, stopping and starting again

The calls that the owner of a `Downloader` makes: `start`, `stop` and `addPeers`, with the events of
the download loop between them. A pending request names the connection it was sent to by a pointer,
so the connection must live as long as the request does. `stop` destroys the connections and keeps
the requests, and `start` keeps them too. `pendingRequests_owned` says that this is the only way for
a request to outlive its connection: nothing inside a run does it.
-/

namespace Gush

open Cxx Posix

namespace Downloader

/-! ### The calls -/

/-- `start`, and whether it launches the download loop. A stop may be requested after some pieces
have been restored. -/
def start (sha1 : Bytes → Bytes) (d : Downloader) (faults : List Fault) (stopAfter : Option ℕ) :
    Bool × Downloader :=
  match Utils.createDirectories { d.world with faults } d.savePath with
  | (false, world) => (false, { d with world })
  | (true, world) =>
    match openOutputFiles d.torrent d.savePath d.options.overwrite world with
    | ((false, _), world) => (false, { d with world, outputFiles := [] })
    | ((true, outputFiles), world) =>
      let d := restoreCompletedPieces sha1 { d with world, outputFiles }
        (stopAfter.getD d.torrent.numPieces)
      (stopAfter.isNone && !d.isComplete, d)

/-- What `stop` leaves behind when it returns. -/
def stop (d : Downloader) : Downloader := { d with peers := [] }

/-- `addPeers`, for the connections that it makes: those with an address that is neither rejected
nor connected. -/
def addPeers (d : Downloader) (added : List PeerConnection) : Downloader :=
  { d with peers := d.peers ++ added }

/-- A call of the owner, or something that happens in the download loop. -/
inductive Call where
  | start (faults : List Fault) (stopAfter : Option ℕ)
  | stop
  | addPeers (added : List PeerConnection)
  | event (event : Event)

/-- A `Downloader`, and whether its loop has been launched and not yet been joined by `stop`. -/
structure Session where
  downloader : Downloader
  looping : Bool := false

namespace Session

def step (sha1 : Bytes → Bytes) (s : Session) : Call → Session
  | .start faults stopAfter =>
    let (looping, downloader) := s.downloader.start sha1 faults stopAfter
    { downloader, looping }
  | .stop => { downloader := s.downloader.stop }
  | .addPeers added => { s with downloader := s.downloader.addPeers added }
  | .event event => { s with downloader := s.downloader.step sha1 event }

/-- The order of calls that the owner keeps: it starts again only after `stop` has returned. The
loop sorts its connections and changes their state; new ones come from `addPeers`. -/
def Allowed (s : Session) : Call → Prop
  | .start _ _ => s.looping = false
  | .stop => True
  | .addPeers _ => True
  | .event (.connections peers) => s.looping = true ∧
    (peers.map PeerConnection.ptr).Perm (s.downloader.peers.map PeerConnection.ptr)
  | .event _ => s.looping = true

/-- A start that launches the loop finds no pending requests. -/
def StartsClean (sha1 : Bytes → Bytes) (s : Session) : Call → Prop
  | .start faults stopAfter => (s.downloader.start sha1 faults stopAfter).1 = true →
    s.downloader.pendingRequests = []
  | _ => True

end Session

/-- Every pending request has been sent to a connection that `peers_` owns. -/
def Owned (d : Downloader) : Prop :=
  ∀ req ∈ d.pendingRequests, req.peer ∈ d.peers.map PeerConnection.ptr

/-! ### Giving requests up -/

/-- A step that neither makes nor destroys connections, and makes no requests. -/
structure Releases (d d' : Downloader) : Prop where
  ptrs : d'.peers.map PeerConnection.ptr = d.peers.map PeerConnection.ptr
  pending : ∀ req ∈ d'.pendingRequests, req ∈ d.pendingRequests

namespace Releases

variable {d d' d'' : Downloader}

theorem refl (d : Downloader) : Releases d d := ⟨rfl, fun _ h => h⟩

theorem trans (h : Releases d d') (h' : Releases d' d'') : Releases d d'' where
  ptrs := h'.ptrs.trans h.ptrs
  pending := fun req hreq => h.pending req (h'.pending req hreq)

theorem owned (h : Releases d d') (hd : d.Owned) : d'.Owned := by
  intro req hreq
  rw [h.ptrs]
  exact hd req (h.pending req hreq)

end Releases

/-- A failed send disconnects a peer, and keeps it. -/
theorem releases_disconnect (d : Downloader) (ptr : ℕ) : Releases d (d.disconnect ptr) where
  ptrs := by
    rw [disconnect, List.map_map]
    apply List.map_congr_left
    intro peer _
    simp only [Function.comp_apply]
    split_ifs <;> rfl
  pending := fun _ h => h

theorem releases_clearRequested (d : Downloader) (pieceIndex offset : ℕ) :
    Releases d (d.clearRequested pieceIndex offset) := by
  rw [clearRequested]
  split_ifs
  · exact ⟨rfl, fun _ h => h⟩
  · exact .refl d

theorem releases_sendCancel (d : Downloader) (ptr : ℕ) (failing : List ℕ) :
    Releases d (d.sendCancel ptr failing) := by
  rw [sendCancel]
  split_ifs
  · exact releases_disconnect d ptr
  · exact .refl d

theorem releases_eraseRequests {selected : BlockRequest → Bool}
    {onErase : BlockRequest → Downloader → Downloader} (h : ∀ req d, Releases d (onErase req d))
    (d : Downloader) : Releases d (d.eraseRequests selected onErase) where
  ptrs := by
    have hfold : ∀ (reqs : List BlockRequest) (d : Downloader),
        Releases d (reqs.foldl (fun d req => onErase req d) d) := by
      intro reqs
      induction reqs with
      | nil => exact .refl
      | cons req reqs ih => exact fun d => (h req d).trans (ih _)
    rw [eraseRequests, eraseLoop_eq]
    exact (hfold _ d).ptrs
  pending := by
    intro req hreq
    rw [pendingRequests_eraseRequests] at hreq
    exact (List.mem_filter.1 hreq).1

theorem releases_eraseAnswered (d : Downloader) (pieceIndex offset ptr : ℕ) :
    Releases d (d.eraseAnswered pieceIndex offset ptr) :=
  ⟨rfl, fun _ h => List.mem_of_mem_eraseP h⟩

theorem releases_checkPiece (sha1 : Bytes → Bytes) (d : Downloader) (pieceIndex : ℕ) :
    Releases d (d.checkPiece sha1 pieceIndex) := by
  rcases checkPiece_eq sha1 d pieceIndex with ⟨-, heq⟩ | ⟨-, world, ⟨-, heq⟩ | ⟨-, heq⟩⟩
  · rw [heq]
    exact .refl d
  · rw [heq]
    exact ⟨rfl, fun _ h => h⟩
  -- a failed piece takes its own requests along
  · rw [heq]
    exact ⟨rfl, fun _ h => (List.mem_filter.1 h).1⟩

theorem releases_handleBlock (sha1 : Bytes → Bytes) (d : Downloader) (ptr : ℕ) (payload : Bytes)
    (failing : List ℕ) : Releases d (d.handleBlock sha1 ptr payload failing) := by
  rcases handleBlock_cases sha1 d ptr payload failing with
    heq | ⟨i, offset, blockData, req, -, ⟨-, heq⟩ | ⟨-, -, heq⟩ | ⟨-, -, -, heq⟩⟩ <;> rw [heq]
  · exact .refl d
  · exact (releases_clearRequested d i offset).trans (releases_eraseAnswered _ i offset ptr)
  · exact releases_eraseAnswered d i offset ptr
  · have haccept : Releases d (d.acceptBlock i offset ptr blockData) :=
      ⟨rfl, (releases_eraseAnswered d i offset ptr).pending⟩
    have hclear : ∀ (req : BlockRequest) (d : Downloader),
        Releases d ((d.sendCancel req.peer failing).clearRequested i offset) := fun req d =>
      (releases_sendCancel d req.peer failing).trans (releases_clearRequested _ i offset)
    exact (haccept.trans (releases_checkPiece sha1 _ i)).trans (releases_eraseRequests hclear _)

theorem releases_handleMessage (sha1 : Bytes → Bytes) (d : Downloader) (ptr : ℕ) (msg : PeerMessage)
    (failing : List ℕ) : Releases d (d.handleMessage sha1 ptr msg failing) := by
  unfold handleMessage
  split
  · exact releases_eraseRequests (fun req d => releases_clearRequested d _ _) d
  · exact releases_handleBlock sha1 d ptr msg.payload failing
  · exact .refl d

/-- Restoring looks at the disk, and at neither connections nor requests. -/
theorem restoreCompletedPieces_requests (sha1 : Bytes → Bytes) (d : Downloader) (rounds : ℕ) :
    (restoreCompletedPieces sha1 d rounds).peers = d.peers ∧
      (restoreCompletedPieces sha1 d rounds).pendingRequests = d.pendingRequests := by
  have hpiece : ∀ (d : Downloader) (i : ℕ), (restorePiece sha1 d i).peers = d.peers ∧
      (restorePiece sha1 d i).pendingRequests = d.pendingRequests := by
    intro d i
    rw [restorePiece]
    simp only
    split_ifs <;> exact ⟨rfl, rfl⟩
  have hfold : ∀ (pieces : List ℕ) (d : Downloader),
      (pieces.foldl (restorePiece sha1) d).peers = d.peers ∧
        (pieces.foldl (restorePiece sha1) d).pendingRequests = d.pendingRequests := by
    intro pieces
    induction pieces with
    | nil => exact fun d => ⟨rfl, rfl⟩
    | cons i pieces ih =>
      intro d
      obtain ⟨hpeers, hpending⟩ := ih (restorePiece sha1 d i)
      exact ⟨hpeers.trans (hpiece d i).1, hpending.trans (hpiece d i).2⟩
  exact hfold _ { d with piecesCompletedCount := 0, downloadedBytes := 0 }

/-- Nor does any other part of `start`. -/
theorem start_requests (sha1 : Bytes → Bytes) (d : Downloader) (faults : List Fault)
    (stopAfter : Option ℕ) : (d.start sha1 faults stopAfter).2.peers = d.peers ∧
      (d.start sha1 faults stopAfter).2.pendingRequests = d.pendingRequests := by
  unfold start
  split
  · exact ⟨rfl, rfl⟩
  · split
    · exact ⟨rfl, rfl⟩
    · exact restoreCompletedPieces_requests sha1 _ _

/-- A request that has lost its connection is still there after `start`, and so is the loss. -/
theorem owned_start_iff (sha1 : Bytes → Bytes) (d : Downloader) (faults : List Fault)
    (stopAfter : Option ℕ) : (d.start sha1 faults stopAfter).2.Owned ↔ d.Owned := by
  obtain ⟨hpeers, hpending⟩ := start_requests sha1 d faults stopAfter
  rw [Owned, Owned, hpeers, hpending]

/-! ### Making requests -/

/-- A peer is asked only if `peers_` owns it. -/
theorem mem_ptrs_of_requestTarget {d : Downloader} {ptr i : ℕ} (h : d.requestTarget ptr = some i) :
    ptr ∈ d.peers.map PeerConnection.ptr := by
  rw [requestTarget] at h
  cases hfind : d.findPeer ptr with
  | none =>
    rw [hfind] at h
    cases h
  | some peer =>
    rw [findPeer] at hfind
    exact List.mem_map.2 ⟨peer, List.mem_of_find?_eq_some hfind,
      by simpa using List.find?_some hfind⟩

theorem owned_requestLoop {pieceIndex ptr : ℕ} {now : ℤ} {blocks : List ℕ} :
    ∀ {currentRequests : ℤ} {sends : List Bool} {d : Downloader},
      ptr ∈ d.peers.map PeerConnection.ptr → d.Owned →
        (requestLoop pieceIndex ptr now blocks currentRequests sends d).Owned := by
  induction blocks with
  | nil => exact fun _ hd => hd
  | cons b blocks ih =>
    intro currentRequests sends d hptr hd
    have hadd : (d.addRequest pieceIndex b ptr now).Owned := by
      intro req hreq
      rcases List.mem_append.1 hreq with hreq | hreq
      · exact hd req hreq
      · rw [List.mem_singleton.1 hreq]
        exact hptr
    rw [requestLoop]
    split_ifs
    · exact hd
    · exact ih hptr hd
    · exact ih hptr hd
    · exact ih hptr hadd
    · exact (releases_disconnect d ptr).owned hd

theorem owned_requestBlocksFromPeer {d : Downloader} (hd : d.Owned) (ptr : ℕ) (sends : List Bool)
    (now : ℤ) : (d.requestBlocksFromPeer ptr sends now).Owned := by
  unfold requestBlocksFromPeer
  split
  · exact hd
  · exact owned_requestLoop (mem_ptrs_of_requestTarget ‹_›) hd

/-! ### Sessions -/

namespace Session

variable {sha1 : Bytes → Bytes} {s : Session}

/-- The invariant of a session: while the loop runs, its requests are owned. -/
def Sound (s : Session) : Prop := s.looping = true → s.downloader.Owned

theorem sound_event (hs : s.Sound) {event : Event} (h : s.Allowed (.event event)) :
    (s.step sha1 (.event event)).Sound := by
  intro hlooping
  have hd := hs hlooping
  cases event with
  | connections peers =>
    intro req hreq
    exact h.2.mem_iff.2 (hd req hreq)
  | message ptr msg faults failing =>
    have hfaults : Releases s.downloader
        { s.downloader with world := { s.downloader.world with faults } } := ⟨rfl, fun _ h => h⟩
    exact (hfaults.trans (releases_handleMessage sha1 _ ptr msg failing)).owned hd
  | request ptr sends now => exact owned_requestBlocksFromPeer hd ptr sends now
  | timeouts now =>
    exact (releases_eraseRequests (fun req d => releases_clearRequested d _ _) s.downloader).owned hd
  | endgame value => exact hd

theorem sound_step (hs : s.Sound) {call : Call} (hallowed : s.Allowed call)
    (hclean : StartsClean sha1 s call) : (s.step sha1 call).Sound := by
  cases call with
  | start faults stopAfter =>
    intro hlooping
    -- the requests of a new run are those of the last one, and there were none
    apply (owned_start_iff sha1 s.downloader faults stopAfter).2
    intro req hreq
    rw [hclean hlooping] at hreq
    cases hreq
  | stop => exact fun hlooping => Bool.noConfusion hlooping
  | addPeers added =>
    intro hlooping req hreq
    rw [step, addPeers, List.map_append]
    exact List.mem_append_left _ (hs hlooping req hreq)
  | event event => exact sound_event hs hallowed

end Session

/-- **Main result.** If the loop is only ever launched with no request pending, then in every state
of every session its requests have been sent to connections that are still owned. -/
theorem pendingRequests_owned (sha1 : Bytes → Bytes) (torrent : TorrentInfo) (savePath : Bytes)
    (options : DownloadOptions) (world : World) {calls : List Call}
    (hallowed : Run.Along (Session.step sha1) Session.Allowed
      { downloader := init torrent savePath options world } calls)
    (hclean : Run.Along (Session.step sha1) (Session.StartsClean sha1)
      { downloader := init torrent savePath options world } calls) :
    let s := calls.foldl (Session.step sha1) { downloader := init torrent savePath options world }
    s.looping = true → s.downloader.Owned := by
  have hboth := hallowed.and hclean
  exact hboth.invariant (P := Session.Sound) (fun _ _ hs h => Session.sound_step hs h.1 h.2)
    (fun hlooping => Bool.noConfusion hlooping)

/-- A run in which the only block is asked for. -/
def oneRun : List Call :=
  [.start [] none, .addPeers [seeder 1 false], .event (.request 1 [] 0)]

theorem looping_oneRun : ([.start [] none, .addPeers [seeder 1 false]].foldl
    (Session.step fun _ => []) { downloader := oneBlock }).looping = true := by
  decide +kernel

theorem pendingRequests_owned_oneRun :
    (oneRun.foldl (Session.step fun _ => []) { downloader := oneBlock }).downloader.Owned := by
  have hallowed : Run.Along (Session.step fun _ => []) Session.Allowed { downloader := oneBlock }
      oneRun := ⟨rfl, trivial, looping_oneRun, trivial⟩
  have hclean : Run.Along (Session.step fun _ => []) (Session.StartsClean fun _ => [])
      { downloader := oneBlock } oneRun := ⟨fun _ => rfl, trivial, trivial, trivial⟩
  exact pendingRequests_owned (fun _ => []) oneBlockTorrent (ascii "d") {} { fs := oneDirectory }
    hallowed hclean (by decide +kernel)

/-- The same run, stopped and started again with another peer. -/
def restarted : List Call := oneRun ++ [.stop, .addPeers [seeder 2 false], .start [] none]

/-- In the second run the request still names the connection of the first one. -/
theorem not_forall_pendingRequests_owned : ¬ ∀ (sha1 : Bytes → Bytes) (torrent : TorrentInfo)
    (savePath : Bytes) (options : DownloadOptions) (world : World) (calls : List Call),
      Run.Along (Session.step sha1) Session.Allowed
        { downloader := init torrent savePath options world } calls →
      let s := calls.foldl (Session.step sha1) { downloader := init torrent savePath options world }
      s.looping = true → s.downloader.Owned := by
  intro h
  have hallowed : Run.Along (Session.step fun _ => []) Session.Allowed { downloader := oneBlock }
      restarted := ⟨rfl, trivial, looping_oneRun, trivial, trivial, rfl, trivial⟩
  have howned := h (fun _ => []) oneBlockTorrent (ascii "d") {} { fs := oneDirectory } _ hallowed
    (by decide +kernel)
  have hstale : ¬ ∀ req ∈ (restarted.foldl (Session.step fun _ => [])
      { downloader := oneBlock }).downloader.pendingRequests, req.peer ∈ [2] := by decide +kernel
  exact hstale howned

end Downloader

end Gush
