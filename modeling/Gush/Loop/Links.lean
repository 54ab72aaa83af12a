import Gush.Loop.Sound

/-!
# What the loop does to a connection

All actions but two leave it to a connection to be opened or made: they sort the connections, receive
on them, send on them, take what they have discovered and close them. `rewired_act` says so for any
relation between connections that holds across these calls; what the relation says is then known of
every connection, wherever the loop gets.
-/

namespace Gush.Client

open Cxx FirstMatch Posix

/-- A relation between connections that holds across everything that is done to an open one, if all
messages that are sent are of a certain kind. -/
structure Follows (Msg : Wire.PeerMessage → Prop)
    (R : Wire.PeerConnection → Wire.PeerConnection → Prop) : Prop where
  refl : ∀ peer, R peer peer
  trans : ∀ {peer peer' peer''}, R peer peer' → R peer' peer'' → R peer peer''
  send : ∀ peer msg sent, Msg msg → R peer (peer.sendMessage msg sent).2
  receive : ∀ peer bytes fuel msg out,
    (peer.arrive bytes).receiveMessageNonBlocking fuel msg = some out → R peer out.2.1
  take : ∀ peer, R peer peer.takeDiscoveredPeers.2
  disconnect : ∀ peer, R peer peer.disconnect

/-- The requests and cancels that the loop may send are of a certain kind. -/
structure Asks (Msg : Wire.PeerMessage → Prop) (d : Downloader) : Prop where
  request : ∀ ptr i, d.requestTarget ptr = some i → ∀ b < d.blockCount i,
    Msg (.createRequest i (Downloader.requestedRange d.torrent i b).1
      (Downloader.requestedRange d.torrent i b).2)
  cancel : ∀ req ∈ d.pendingRequests, Msg (.createCancel req.pieceIndex req.offset req.length)

/-- The same pointers, with related connections behind them. -/
structure Rewired (R : Wire.PeerConnection → Wire.PeerConnection → Prop) (c c' : Client) : Prop where
  ptrs : c'.ptrs.Perm c.ptrs
  related : ∀ ptr peer', c'.connection ptr = some peer' →
    ∃ peer, c.connection ptr = some peer ∧ R peer peer'

/-- What receiving and asking leave alone. -/
structure SameBooks (c c' : Client) : Prop where
  loopOptions : c'.loopOptions = c.loopOptions
  recentlyRejected : c'.recentlyRejected = c.recentlyRejected
  announceList : c'.announceList = c.announceList
  trackerManager : c'.trackerManager = c.trackerManager

/-- What all actions but those on the trackers leave alone. -/
structure SameTrackers (c c' : Client) : Prop where
  loopOptions : c'.loopOptions = c.loopOptions
  announceList : c'.announceList = c.announceList
  trackerManager : c'.trackerManager = c.trackerManager

variable {Msg : Wire.PeerMessage → Prop} {R : Wire.PeerConnection → Wire.PeerConnection → Prop}
  {sha1 : Bytes → Bytes} {c c' c'' : Client} {ptr : ℕ} {peer peer' : Wire.PeerConnection}

/-! ### Connections -/

/-- With distinct pointers, every connection is found behind its pointer. -/
theorem Placed.mem_iff (h : c.Placed) {l : Link} :
    l ∈ c.links ↔ c.connection l.ptr = some l.connection := by
  rw [mem_iff_lookup h.nodup, connection, Option.map_eq_some_iff]
  refine ⟨fun hl => ⟨l, hl, rfl⟩, ?_⟩
  rintro ⟨⟨ptr, peer⟩, hl, rfl⟩
  obtain rfl := key_of_lookup hl
  exact hl

theorem exists_mem (hpeer : c.connection ptr = some peer) :
    ∃ l ∈ c.links, l.ptr = ptr ∧ l.connection = peer := by
  obtain ⟨l, hl, rfl⟩ := exists_link hpeer
  exact ⟨l, mem_of_lookup hl, key_of_lookup hl, rfl⟩

/-- The connected peers are counted by their pointers. -/
theorem Placed.connectedCount_eq (h : c.Placed) : c.connectedCount = c.ptrs.countP c.isConnected := by
  rw [connectedCount, ptrs, List.countP_map]
  refine List.countP_congr fun l hl => ?_
  rw [Function.comp_apply, isConnected, h.mem_iff.1 hl]
  rfl

theorem connection_congr (h : c'.links = c.links) (ptr : ℕ) : c'.connection ptr = c.connection ptr := by
  rw [connection, h, connection]

/-! ### Relations -/

theorem Rewired.of_links (hR : Follows Msg R) (h : c'.links = c.links) : Rewired R c c' where
  ptrs := .of_eq (congrArg (List.map Link.ptr) h)
  related ptr peer' hpeer := ⟨peer', connection_congr h ptr ▸ hpeer, hR.refl peer'⟩

theorem Rewired.refl (hR : Follows Msg R) (c : Client) : Rewired R c c := .of_links hR rfl

theorem Rewired.trans (hR : Follows Msg R) (h : Rewired R c c') (h' : Rewired R c' c'') :
    Rewired R c c'' where
  ptrs := h'.ptrs.trans h.ptrs
  related ptr peer'' hpeer'' := by
    obtain ⟨peer', hpeer', hlast⟩ := h'.related ptr peer'' hpeer''
    obtain ⟨peer, hpeer, hfirst⟩ := h.related ptr peer' hpeer'
    exact ⟨peer, hpeer, hR.trans hfirst hlast⟩

theorem rewired_setConnection (hR : Follows Msg R) (hpeer : c.connection ptr = some peer)
    (h : R peer peer') : Rewired R c (c.setConnection ptr peer') where
  ptrs := .of_eq ptrs_setConnection
  related ptr' new hnew := by
    rw [connection_setConnection] at hnew
    split_ifs at hnew with hptr
    · subst hptr
      rw [hpeer] at hnew
      obtain rfl := Option.some.inj hnew
      exact ⟨peer, hpeer, h⟩
    · exact ⟨new, hnew, hR.refl new⟩

theorem rewired_call (hR : Follows Msg R) {f : Wire.PeerConnection → Bool × Wire.PeerConnection}
    (h : ∀ peer, R peer (f peer).2) : Rewired R c (c.call ptr f).2 := by
  rw [call]
  cases hpeer : c.connection ptr with
  | none => exact .refl hR c
  | some peer => exact rewired_setConnection hR hpeer (h peer)

/-- Sorting relates every connection to itself. -/
theorem rewired_sort (hR : Follows Msg R) (hplaced : c.Placed) {links : List Link}
    (hperm : links.Perm c.links) : Rewired R c { c with links } where
  ptrs := hperm.map Link.ptr
  related ptr peer' hpeer' := by
    have hplaced' : ({ c with links } : Client).Placed := hplaced.of_perm (hperm.map Link.ptr)
    obtain ⟨l, hl, rfl, rfl⟩ := exists_mem hpeer'
    exact ⟨l.connection, hplaced.mem_iff.1 (hperm.mem_iff.1 hl), hR.refl _⟩

theorem SameBooks.refl (c : Client) : SameBooks c c := ⟨rfl, rfl, rfl, rfl⟩

theorem SameBooks.trans (h : SameBooks c c') (h' : SameBooks c' c'') : SameBooks c c'' :=
  ⟨h'.loopOptions.trans h.loopOptions, h'.recentlyRejected.trans h.recentlyRejected,
    h'.announceList.trans h.announceList, h'.trackerManager.trans h.trackerManager⟩

theorem SameBooks.sameTrackers (h : SameBooks c c') : SameTrackers c c' :=
  ⟨h.loopOptions, h.announceList, h.trackerManager⟩

theorem sameBooks_call (f : Wire.PeerConnection → Bool × Wire.PeerConnection) :
    SameBooks c (c.call ptr f).2 := by
  rw [call]
  split <;> exact ⟨rfl, rfl, rfl, rfl⟩

/-- Both at once. -/
structure Served (R : Wire.PeerConnection → Wire.PeerConnection → Prop) (c c' : Client) : Prop
    extends Rewired R c c', SameBooks c c'

theorem Served.refl (hR : Follows Msg R) (c : Client) : Served R c c := ⟨.refl hR c, .refl c⟩

theorem Served.trans (hR : Follows Msg R) (h : Served R c c') (h' : Served R c' c'') :
    Served R c c'' :=
  ⟨h.toRewired.trans hR h'.toRewired, h.toSameBooks.trans h'.toSameBooks⟩

/-- A change of the download, with or without one of the statistics. -/
theorem served_own (hR : Follows Msg R) (f : Downloader → Downloader) (stats : PeerSpeedStats →
    PeerSpeedStats) (c : Client) : Served R c ((c.change f).modifyStats ptr stats) :=
  ⟨.of_links hR rfl, rfl, rfl, rfl, rfl⟩

theorem served_change (hR : Follows Msg R) (f : Downloader → Downloader) (c : Client) :
    Served R c (c.change f) :=
  ⟨.of_links hR rfl, rfl, rfl, rfl, rfl⟩

/-! ### Asking for blocks -/

theorem served_requestLoop (hR : Follows Msg R) {pieceIndex : ℕ} {now : ℤ} {blocks : List ℕ} {n : ℤ}
    {sends : List Bool} {torrent : TorrentInfo} (htorrent : c.base.torrent = torrent)
    (hmsg : ∀ b ∈ blocks, Msg (.createRequest pieceIndex
      (Downloader.requestedRange torrent pieceIndex b).1
      (Downloader.requestedRange torrent pieceIndex b).2)) :
    Served R c (requestLoop pieceIndex ptr now blocks n sends c) := by
  induction blocks generalizing n sends c with
  | nil => exact .refl hR c
  | cons i blocks ih =>
    have hrest := fun b hb => hmsg b (List.mem_cons_of_mem i hb)
    have hsend : ∀ sent, Served R c (c.call ptr (c.sendFor pieceIndex i sent)).2 := by
      intro sent
      refine ⟨rewired_call hR fun peer => ?_, sameBooks_call _⟩
      have hone := hmsg i List.mem_cons_self
      rw [← htorrent] at hone
      exact hR.send peer _ sent hone
    have hbase : ∀ sent, (c.call ptr (c.sendFor pieceIndex i sent)).2.base = c.base := by
      intro sent
      rw [call]
      split <;> rfl
    rw [requestLoop_cons]
    split_ifs
    · exact .refl hR c
    · exact ih htorrent hrest
    · exact ih htorrent hrest
    · refine (hsend (sends.headD true)).trans hR (Served.trans hR (served_change hR _ _) (ih ?_ hrest))
      · show (c.call ptr (c.sendFor pieceIndex i (sends.headD true))).2.base.torrent = torrent
        rw [hbase]
        exact htorrent
    · exact hsend (sends.headD true)

theorem served_requestBlocksFromPeer (hR : Follows Msg R) (hc : Asks Msg c.downloader)
    (sends : List Bool) (now : ℤ) : Served R c (c.requestBlocksFromPeer ptr sends now) := by
  rw [requestBlocksFromPeer]
  split
  · exact .refl hR c
  · rename_i i htarget
    exact served_requestLoop hR rfl fun b hb => hc.request ptr i htarget b (List.mem_range.1 hb)

/-! ### Giving requests up -/

theorem served_eraseRequests (hR : Follows Msg R) {selected : BlockRequest → Bool}
    {onErase : BlockRequest → Client → Client}
    (h : ∀ req ∈ c.base.pendingRequests, selected req = true → ∀ c, Served R c (onErase req c)) :
    Served R c (c.eraseRequests selected onErase) := by
  have hloop : ∀ (reqs : List BlockRequest) (c : Client),
      (∀ req ∈ reqs, selected req = true → ∀ c, Served R c (onErase req c)) →
        Served R c (eraseLoop selected onErase reqs c).2 := by
    intro reqs
    induction reqs with
    | nil => exact fun c _ => .refl hR c
    | cons req rest ih =>
      intro c h
      have hrest := fun req' hreq' => h req' (List.mem_cons_of_mem req hreq')
      rw [eraseLoop]
      split_ifs with hselected
      · exact (h req List.mem_cons_self hselected c).trans hR (ih _ hrest)
      · exact ih c hrest
  exact (hloop c.base.pendingRequests c h).trans hR ⟨.of_links hR rfl, rfl, rfl, rfl, rfl⟩

/-! ### Messages -/

/-- Accepting a block and checking its piece only drops requests. -/
theorem pending_checked {d : Downloader} {pieceIndex offset : ℕ} {blockData : Bytes}
    {req : BlockRequest} (h : req ∈ ((d.acceptBlock pieceIndex offset ptr blockData).checkPiece sha1
      pieceIndex).pendingRequests) : req ∈ d.pendingRequests :=
  (Downloader.releases_eraseAnswered d pieceIndex offset ptr).pending req
    ((Downloader.releases_checkPiece sha1 (d.acceptBlock pieceIndex offset ptr blockData)
      pieceIndex).pending req h)

theorem served_handleBlock (hR : Follows Msg R) (hc : ∀ req ∈ c.base.pendingRequests,
    Msg (.createCancel req.pieceIndex req.offset req.length)) (payload : Bytes) (failing : List ℕ)
    (now : ℤ) : Served R c (c.handleBlock sha1 ptr payload failing now) := by
  rw [handleBlock]
  split_ifs
  · exact .refl hR c
  dsimp only
  split
  · exact .refl hR c
  · split_ifs
    · exact served_own hR _ _ c
    · exact served_own hR _ _ c
    · -- the duplicates that are cancelled were pending before
      refine ((served_own hR _ _ c).trans hR (served_change hR _ _)).trans hR
        (served_eraseRequests hR fun req hreq hselected c₁ => ?_)
      obtain ⟨hpiece, hoffset, -⟩ := of_decide_eq_true hselected
      refine Served.trans hR ⟨rewired_call hR fun peer => ?_, sameBooks_call _⟩ (served_change hR _ _)
      have hcancel := hc req (pending_checked (d := c.downloader) hreq)
      rw [hpiece, hoffset] at hcancel
      exact hR.send peer _ _ hcancel

theorem served_handleMessage (hR : Follows Msg R) (hc : ∀ req ∈ c.base.pendingRequests,
    Msg (.createCancel req.pieceIndex req.offset req.length)) (msg : PeerMessage)
    (failing : List ℕ) (now : ℤ) : Served R c (c.handleMessage sha1 ptr msg failing now) := by
  rw [handleMessage]
  split
  · exact (served_eraseRequests hR fun req _ _ c₁ => served_change hR _ c₁).trans hR
      ⟨.of_links hR rfl, rfl, rfl, rfl, rfl⟩
  · exact ⟨.of_links hR rfl, rfl, rfl, rfl, rfl⟩
  · exact served_handleBlock hR hc msg.payload failing now
  · exact .refl hR c

/-! ### Actions -/

theorem served_receive (hR : Follows Msg R) (hc : Asks Msg c.downloader) (r : Reception)
    (msg : Wire.PeerMessage) : Served R c (c.receive sha1 ptr r msg) := by
  rw [receive]
  split
  · exact .refl hR c
  · rename_i peer hpeer
    have hset : ∀ out, (peer.arrive r.arrived).receiveMessageNonBlocking r.fuel msg = some out →
        Served R c (c.setConnection ptr out.2.1) := fun out hout =>
      ⟨rewired_setConnection hR hpeer (hR.receive peer r.arrived r.fuel msg out hout), rfl, rfl, rfl,
        rfl⟩
    split
    · exact .refl hR c
    · rename_i hout
      exact hset _ hout
    · rename_i hout
      refine (hset _ hout).trans hR (Served.trans hR (served_change hR (fun d =>
        { d with world := { d.world with faults := r.faults } }) _) ?_)
      refine served_handleMessage hR ?_ _ _ _
      exact hc.cancel

theorem served_takePeers (hR : Follows Msg R) : Served R c (c.takePeers ptr) := by
  rw [takePeers]
  split
  · exact .refl hR c
  · rename_i peer hpeer
    exact ⟨rewired_setConnection hR hpeer (hR.take peer), rfl, rfl, rfl, rfl⟩

theorem sameTrackers_connectRound (a : Attempt) : SameTrackers c (c.connectRound ptr a).2 := by
  cases hpeer : c.connection ptr with
  | none =>
    rw [connectRound, hpeer]
    exact ⟨rfl, rfl, rfl⟩
  | some peer =>
    rcases connectRound_cases hpeer a with ⟨-, heq⟩ | ⟨-, -, heq⟩ | ⟨-, -, heq⟩ <;> rw [heq] <;>
      exact ⟨rfl, rfl, rfl⟩

theorem sameTrackers_addPeer (now : ℤ) (peer : Peer) : SameTrackers c (c.addPeer now peer) := by
  rcases c.addPeer_cases now peer with heq | ⟨-, -, heq⟩ <;> rw [heq] <;> exact ⟨rfl, rfl, rfl⟩

theorem sameTrackers_prunePeer (now : ℤ) (evicted : ℕ → ℤ) :
    SameTrackers c (c.prunePeer now evicted ptr) := by
  rw [prunePeer]
  split
  · exact ⟨rfl, rfl, rfl⟩
  · split_ifs <;> exact ⟨rfl, rfl, rfl⟩

/-- An action on the trackers. -/
def Action.Tracks : Action → Prop
  | .addTracker _ => True
  | .contact _ _ => True
  | _ => False

/-- **All other actions leave the trackers alone.** -/
theorem sameTrackers_act (hR : Follows Msg R) (hc : Asks Msg c.downloader) {a : Action}
    (h : ¬ a.Tracks) : SameTrackers c (c.act sha1 a) := by
  cases a with
  | sort links => exact ⟨rfl, rfl, rfl⟩
  | connect ptr a => exact sameTrackers_connectRound a
  | receive ptr r msg => exact (served_receive hR hc r msg).toSameBooks.sameTrackers
  | takePeers ptr => exact (served_takePeers hR).toSameBooks.sameTrackers
  | addPeer now peer => exact sameTrackers_addPeer now peer
  | request ptr sends now =>
    exact (served_requestBlocksFromPeer hR hc sends now).toSameBooks.sameTrackers
  | timeouts now =>
    exact (served_eraseRequests hR fun req _ _ c₁ =>
      served_own hR _ _ c₁).toSameBooks.sameTrackers
  | endgame => exact ⟨rfl, rfl, rfl⟩
  | prune ptr now evicted => exact sameTrackers_prunePeer now evicted
  | addTracker tracker => exact absurd trivial h
  | contact S trackers => exact absurd trivial h

/-- An action that neither opens a connection nor makes one. -/
def Action.Serves : Action → Prop
  | .connect _ _ => False
  | .addPeer _ _ => False
  | _ => True

/-- **Such an action relates the connections.** -/
theorem rewired_act (hR : Follows Msg R) (hplaced : c.Placed) (hc : Asks Msg c.downloader) {a : Action}
    (henabled : c.Enabled a) (h : a.Serves) : Rewired R c (c.act sha1 a) := by
  cases a with
  | sort links => exact rewired_sort hR hplaced henabled
  | connect ptr a => exact h.elim
  | receive ptr r msg => exact (served_receive hR hc r msg).toRewired
  | takePeers ptr => exact (served_takePeers hR).toRewired
  | addPeer now peer => exact h.elim
  | request ptr sends now => exact (served_requestBlocksFromPeer hR hc sends now).toRewired
  | timeouts now =>
    exact (served_eraseRequests hR fun req _ _ c₁ => served_own hR _ _ c₁).toRewired
  | endgame => exact .of_links hR rfl
  | prune ptr now evicted =>
    show Rewired R c (c.prunePeer now evicted ptr)
    rw [prunePeer]
    split
    · exact .refl hR c
    · rename_i peer hpeer
      split_ifs
      · exact (rewired_setConnection hR hpeer (hR.disconnect peer)).trans hR (.of_links hR rfl)
      · exact .refl hR c
  | addTracker tracker =>
    show Rewired R c (c.addTracker tracker)
    rw [addTracker]
    split_ifs
    · exact .refl hR c
    · exact .of_links hR rfl
  | contact S trackers => exact .of_links hR rfl

end Gush.Client
