import Gush.Downloader.Lifecycle
import Gush.Loop.Actions

/-!
# The loop refines the download

A client on real connections against the model of the download, which knows of a connection only
whether it is open, whether it chokes and which pieces it has. Forgetting the rest (`downloader`)
turns every action of the loop into a run of the download's events, so whatever holds in every run
of events holds wherever the loop gets.

The events are those of the code: connections are never destroyed, and the endgame flag says whether
few blocks are missing.
-/

namespace Gush.Client

open Cxx FirstMatch Posix
open Downloader (blockSize)

variable {sha1 : Bytes → Bytes} {T : ℤ → Prop} {plain : Prop} {c c' : Client} {ptr : ℕ}
  {peer peer' : Wire.PeerConnection}

/-! ### Pointers -/

/-- The pointers in `peers_`. -/
def ptrs (c : Client) : List ℕ := c.links.map Link.ptr

/-- No two connections have one address, and the next one gets a new one. -/
structure Placed (c : Client) : Prop where
  nodup : c.ptrs.Nodup
  lt : ∀ ptr ∈ c.ptrs, ptr < c.links.length

theorem ptrs_setConnection : (c.setConnection ptr peer).ptrs = c.ptrs :=
  map_key_modifyFirst fun _ => rfl

theorem Placed.of_perm (h : c.Placed) (hperm : c'.ptrs.Perm c.ptrs) : c'.Placed where
  nodup := hperm.nodup_iff.2 h.nodup
  lt ptr hptr := by
    have hlength : c'.links.length = c.links.length := by
      simpa [ptrs] using hperm.length_eq
    rw [hlength]
    exact h.lt ptr (hperm.mem_iff.1 hptr)

theorem Placed.of_eq (h : c.Placed) (hptrs : c'.ptrs = c.ptrs) : c'.Placed := h.of_perm (.of_eq hptrs)

theorem ptrs_call (c : Client) (ptr : ℕ) (f : Wire.PeerConnection → Bool × Wire.PeerConnection) :
    (c.call ptr f).2.ptrs = c.ptrs := by
  rw [call]
  cases c.connection ptr with
  | none => rfl
  | some peer => exact ptrs_setConnection

/-! ### The view of the connections -/

theorem map_ptr_peers (c : Client) : c.downloader.peers.map PeerConnection.ptr = c.ptrs := by
  rw [downloader, List.map_map]
  rfl

theorem findPeer_downloader (c : Client) (ptr : ℕ) :
    c.downloader.findPeer ptr = (c.connection ptr).map fun peer => peer.asPeer ptr := by
  have hsearch : ∀ links : List Link,
      (links.map fun l => l.connection.asPeer l.ptr).find? (fun peer => peer.ptr = ptr) =
        ((lookup Link.ptr ptr links).map Link.connection).map fun peer => peer.asPeer ptr := by
    intro links
    induction links with
    | nil => rfl
    | cons l links ih =>
      rw [lookup_cons]
      by_cases hptr : l.ptr = ptr
      · subst hptr
        simp [Wire.PeerConnection.asPeer]
      · rw [if_neg hptr, ← ih, List.map_cons, List.find?_cons_of_neg]
        exact fun h => hptr (of_decide_eq_true h)
  exact hsearch c.links

/-- A change that the download does not see. -/
theorem downloader_setConnection (h : c.connection ptr = some peer)
    (hpeer : peer'.asPeer ptr = peer.asPeer ptr) :
    (c.setConnection ptr peer').downloader = c.downloader := by
  have hpeers : (c.setConnection ptr peer').downloader.peers = c.downloader.peers := by
    refine map_modifyFirst_of_eq fun l hl => ?_
    obtain ⟨l', hl', rfl⟩ := exists_link h
    obtain rfl := Option.some.inj (hl.symm.trans hl')
    rw [key_of_lookup hl]
    exact hpeer
  exact congrArg (fun peers => { c.base with peers }) hpeers

/-- A connection that is closed, and nothing else. -/
theorem downloader_disconnect (hplaced : c.Placed) (h : c.connection ptr = some peer)
    (hpeer : peer'.asPeer ptr = { peer.asPeer ptr with connected := false }) :
    (c.setConnection ptr peer').downloader = c.downloader.disconnect ptr := by
  have hpeers : (c.setConnection ptr peer').downloader.peers =
      (c.downloader.disconnect ptr).peers := by
    show (modifyFirst Link.ptr ptr _ c.links).map _ = (c.links.map _).map _
    rw [modifyFirst_eq_map hplaced.nodup, List.map_map, List.map_map]
    refine List.map_congr_left fun l hl => ?_
    simp only [Function.comp_apply]
    by_cases hptr : l.ptr = ptr
    · obtain ⟨l', hl', rfl⟩ := exists_link h
      have hfound := (mem_iff_lookup hplaced.nodup).1 hl
      rw [hptr] at hfound
      obtain rfl := Option.some.inj (hfound.symm.trans hl')
      rw [if_pos hptr, if_pos (show (l.connection.asPeer l.ptr).ptr = ptr from hptr), hptr]
      exact hpeer
    · rw [if_neg hptr, if_neg (show ¬ (l.connection.asPeer l.ptr).ptr = ptr from hptr)]
  exact congrArg (fun peers => { c.base with peers }) hpeers

/-- A change of the download that leaves the connections alone. -/
theorem downloader_change {f : Downloader → Downloader}
    (hf : (f c.downloader).peers = c.downloader.peers) : (c.change f).downloader = f c.downloader :=
  congrArg (fun peers => { f c.downloader with peers }) hf.symm

/-! ### Sending -/

/-- A message that is sent leaves the view as it is, and one that is not closes the connection. -/
theorem asPeer_sendMessage (ptr : ℕ) (peer : Wire.PeerConnection) (msg : Wire.PeerMessage) (sent : Bool) :
    (peer.sendMessage msg sent).2.asPeer ptr =
      if sent then peer.asPeer ptr else { peer.asPeer ptr with connected := false } := by
  have hstate := peer.sendMessage_state msg sent
  have hview : ∀ peer' : Wire.PeerConnection, peer'.toPeerState = peer.toPeerState →
      peer'.asPeer ptr = { peer.asPeer ptr with connected := peer'.isConnected } := by
    intro peer' h
    rw [Wire.PeerConnection.asPeer, h]
    rfl
  rw [hview _ hstate]
  unfold Wire.PeerConnection.sendMessage Wire.PeerConnection.asPeer
    Wire.PeerConnection.isConnected Wire.PeerConnection.disconnect
  cases hsocket : peer.socket <;> cases sent <;> simp [hsocket]

/-- What a send does to the client: it fails, or the message goes out. -/
theorem call_sendMessage (hplaced : c.Placed) (hpeer : c.connection ptr = some peer)
    (hconnected : peer.isConnected = true)
    (f : Wire.PeerConnection → Bool × Wire.PeerConnection) {msg : Wire.PeerMessage} {sent : Bool}
    (hf : f peer = peer.sendMessage msg sent) :
    (c.call ptr f).1 = sent ∧ (c.call ptr f).2.downloader =
      if sent then c.downloader else c.downloader.disconnect ptr := by
  have hcall : c.call ptr f = ((f peer).1, c.setConnection ptr (f peer).2) := by
    rw [call, hpeer]
  obtain ⟨s, hs⟩ := Option.isSome_iff_exists.1 hconnected
  have hview := asPeer_sendMessage ptr peer msg sent
  rw [hcall, hf]
  refine ⟨(peer.sendMessage_sent hs msg sent).1, ?_⟩
  cases sent with
  | true => exact downloader_setConnection hpeer hview
  | false => exact downloader_disconnect hplaced hpeer hview

/-! ### Asking for blocks -/

/-- A peer that is asked is connected. -/
theorem connected_of_requestTarget {d : Downloader} {i : ℕ} (h : d.requestTarget ptr = some i) :
    ∃ peer, d.findPeer ptr = some peer ∧ peer.connected = true ∧ peer.peerChoking = false := by
  rw [Downloader.requestTarget] at h
  cases hfind : d.findPeer ptr with
  | none =>
    rw [hfind] at h
    cases h
  | some peer =>
    rw [hfind] at h
    dsimp only at h
    refine ⟨peer, rfl, ?_⟩
    by_cases hskip : (!peer.connected || peer.peerChoking) = true
    · rw [if_pos hskip] at h
      cases h
    · simpa using hskip

theorem connection_setConnection {ptr' : ℕ} : (c.setConnection ptr peer).connection ptr' =
    if ptr' = ptr then (c.connection ptr').map fun _ => peer else c.connection ptr' := by
  have hlookup : lookup Link.ptr ptr' (c.setConnection ptr peer).links =
      if ptr' = ptr then (lookup Link.ptr ptr' c.links).map fun l => { l with connection := peer }
      else lookup Link.ptr ptr' c.links := lookup_modifyFirst fun _ => rfl
  rw [connection, hlookup]
  split_ifs
  · rw [Option.map_map, connection, Option.map_map]
    rfl
  · rfl

/-- The request for a block, as it is sent. -/
def sendFor (c : Client) (pieceIndex i : ℕ) (sent : Bool) (peer : Wire.PeerConnection) :
    Bool × Wire.PeerConnection :=
  peer.sendRequest pieceIndex (uint32 (i * blockSize))
    (Downloader.requestLength c.base.torrent pieceIndex (uint32 (i * blockSize))) sent

theorem requestLoop_cons (pieceIndex ptr : ℕ) (now : ℤ) (i : ℕ) (blocks : List ℕ) (n : ℤ)
    (sends : List Bool) (c : Client) : requestLoop pieceIndex ptr now (i :: blocks) n sends c =
      if n ≥ c.base.options.maxRequestsPerPeer then c
      else if c.downloader.blockReceived pieceIndex i then
        requestLoop pieceIndex ptr now blocks n sends c
      else if c.downloader.blockRequested pieceIndex i && c.downloader.skipsInFlight pieceIndex i ptr
        then requestLoop pieceIndex ptr now blocks n sends c
      else if (c.call ptr (c.sendFor pieceIndex i (sends.headD true))).1 then
        requestLoop pieceIndex ptr now blocks (n + 1) sends.tail
          ((c.call ptr (c.sendFor pieceIndex i (sends.headD true))).2.change fun d =>
            d.addRequest pieceIndex i ptr now)
      else (c.call ptr (c.sendFor pieceIndex i (sends.headD true))).2 := rfl

/-- The loop over the blocks is the one of the download, as long as the peer is connected. -/
theorem refines_requestLoop {pieceIndex : ℕ} {now : ℤ} {blocks : List ℕ} {n : ℤ}
    {sends : List Bool} (hplaced : c.Placed) (hpeer : c.connection ptr = some peer)
    (hconnected : peer.isConnected = true) :
    (requestLoop pieceIndex ptr now blocks n sends c).downloader =
      Downloader.requestLoop pieceIndex ptr now blocks n sends c.downloader ∧
    (requestLoop pieceIndex ptr now blocks n sends c).ptrs = c.ptrs := by
  induction blocks generalizing n sends c peer with
  | nil => exact ⟨rfl, rfl⟩
  | cons i blocks ih =>
    rw [requestLoop_cons, Downloader.requestLoop]
    by_cases hfull : n ≥ c.base.options.maxRequestsPerPeer
    · rw [if_pos hfull, if_pos (show n ≥ c.downloader.options.maxRequestsPerPeer from hfull)]
      exact ⟨rfl, rfl⟩
    rw [if_neg hfull, if_neg (show ¬ n ≥ c.downloader.options.maxRequestsPerPeer from hfull)]
    by_cases hreceived : c.downloader.blockReceived pieceIndex i = true
    · rw [if_pos hreceived, if_pos hreceived]
      exact ih hplaced hpeer hconnected
    rw [if_neg hreceived, if_neg hreceived]
    by_cases hskip :
        (c.downloader.blockRequested pieceIndex i && c.downloader.skipsInFlight pieceIndex i ptr) = true
    · rw [if_pos hskip, if_pos hskip]
      exact ih hplaced hpeer hconnected
    rw [if_neg hskip, if_neg hskip]
    obtain ⟨hsent, hview⟩ := call_sendMessage hplaced hpeer hconnected
      (c.sendFor pieceIndex i (sends.headD true)) rfl
    have hptrs := ptrs_call c ptr (c.sendFor pieceIndex i (sends.headD true))
    rw [hsent]
    cases hhead : sends.headD true with
    | false =>
      rw [hhead, if_neg (by decide)] at hview
      rw [hhead] at hptrs
      rw [if_neg (by decide), if_neg (by decide)]
      exact ⟨hview, hptrs⟩
    | true =>
      rw [hhead, if_pos rfl] at hview
      rw [hhead] at hptrs
      rw [if_pos rfl, if_pos rfl]
      -- the state in which the loop goes on
      have hadd : ((c.call ptr (c.sendFor pieceIndex i true)).2.change fun d =>
          d.addRequest pieceIndex i ptr now).downloader =
            c.downloader.addRequest pieceIndex i ptr now := by
        rw [downloader_change rfl, hview]
      obtain ⟨s, hs⟩ := Option.isSome_iff_exists.1 hconnected
      obtain ⟨s', hs'⟩ := (peer.sendMessage_sent hs (.createRequest pieceIndex (uint32 (i * blockSize))
        (Downloader.requestLength c.base.torrent pieceIndex (uint32 (i * blockSize)))) true).2 rfl
      have hstill : ((c.call ptr (c.sendFor pieceIndex i true)).2.change fun d =>
          d.addRequest pieceIndex i ptr now).connection ptr =
            some (c.sendFor pieceIndex i true peer).2 := by
        show (c.call ptr (c.sendFor pieceIndex i true)).2.connection ptr = _
        rw [call, hpeer, connection_setConnection, if_pos rfl, hpeer]
        rfl
      have hplaced' : ((c.call ptr (c.sendFor pieceIndex i true)).2.change fun d =>
          d.addRequest pieceIndex i ptr now).Placed := hplaced.of_eq hptrs
      obtain ⟨hloop, hkept⟩ := ih hplaced' hstill (Option.isSome_iff_exists.2 ⟨s', hs'⟩)
      rw [hloop, hadd]
      exact ⟨rfl, hkept.trans hptrs⟩

/-- Asking a peer is asking it in the view. -/
theorem refines_requestBlocksFromPeer (hplaced : c.Placed) (ptr : ℕ) (sends : List Bool) (now : ℤ) :
    (c.requestBlocksFromPeer ptr sends now).downloader =
      c.downloader.requestBlocksFromPeer ptr sends now ∧
    (c.requestBlocksFromPeer ptr sends now).ptrs = c.ptrs := by
  rw [requestBlocksFromPeer, Downloader.requestBlocksFromPeer]
  cases htarget : c.downloader.requestTarget ptr with
  | none => exact ⟨rfl, rfl⟩
  | some pieceIndex =>
    obtain ⟨view, hfind, hconnected, -⟩ := connected_of_requestTarget htarget
    rw [findPeer_downloader] at hfind
    obtain ⟨peer, hpeer, rfl⟩ := Option.map_eq_some_iff.1 hfind
    exact refines_requestLoop hplaced hpeer hconnected

/-! ### Giving requests up -/

/-- What a function does for a request that goes, it does in the view. -/
structure Mirrors (onErase : BlockRequest → Client → Client)
    (onErase' : BlockRequest → Downloader → Downloader) : Prop where
  view : ∀ req c, c.Placed → (onErase req c).downloader = onErase' req c.downloader
  ptrs : ∀ req c, (onErase req c).ptrs = c.ptrs

variable {selected : BlockRequest → Bool} {onErase : BlockRequest → Client → Client}
  {onErase' : BlockRequest → Downloader → Downloader}

theorem Mirrors.eraseLoop (h : Mirrors onErase onErase') (selected : BlockRequest → Bool) (reqs : List BlockRequest)
    (hplaced : c.Placed) :
    (eraseLoop selected onErase reqs c).1 =
        (Downloader.eraseLoop selected onErase' reqs c.downloader).1 ∧
      (eraseLoop selected onErase reqs c).2.downloader =
        (Downloader.eraseLoop selected onErase' reqs c.downloader).2 ∧
      (eraseLoop selected onErase reqs c).2.ptrs = c.ptrs := by
  induction reqs generalizing c with
  | nil => exact ⟨rfl, rfl, rfl⟩
  | cons req rest ih =>
    rw [Client.eraseLoop, Downloader.eraseLoop]
    split_ifs
    · obtain ⟨hkept, hview, hptrs⟩ := ih (hplaced.of_eq (h.ptrs req c))
      rw [h.view req c hplaced] at hkept hview
      exact ⟨hkept, hview, hptrs.trans (h.ptrs req c)⟩
    · obtain ⟨hkept, hview, hptrs⟩ := ih hplaced
      exact ⟨congrArg (req :: ·) hkept, hview, hptrs⟩

theorem Mirrors.eraseRequests (h : Mirrors onErase onErase') (selected : BlockRequest → Bool)
    (hplaced : c.Placed) :
    (c.eraseRequests selected onErase).downloader = c.downloader.eraseRequests selected onErase' ∧
      (c.eraseRequests selected onErase).ptrs = c.ptrs := by
  obtain ⟨hkept, hview, hptrs⟩ := h.eraseLoop selected c.base.pendingRequests hplaced
  refine ⟨?_, hptrs⟩
  rw [Client.eraseRequests, downloader_change rfl, hview, hkept]
  rfl

theorem peers_clearRequested (d : Downloader) (pieceIndex offset : ℕ) :
    (d.clearRequested pieceIndex offset).peers = d.peers := by
  rw [Downloader.clearRequested]
  split_ifs <;> rfl

/-- Clearing the flag of the block, with or without a mark in the statistics. -/
theorem mirrors_own (mark : BlockRequest → Client → Client)
    (hmark : ∀ req c, (mark req c).downloader = c.downloader ∧ (mark req c).ptrs = c.ptrs) :
    Mirrors (fun req c => mark req (c.change fun d => d.clearRequested req.pieceIndex req.offset))
      fun req d => d.clearRequested req.pieceIndex req.offset where
  view req c _ := by
    rw [(hmark _ _).1]
    exact downloader_change (peers_clearRequested _ _ _)
  ptrs req c := (hmark _ _).2

/-- A cancel message is sent before the flag is cleared. -/
theorem refines_sendCancel (hplaced : c.Placed) (pieceIndex offset length : ℕ) (failing : List ℕ) :
    (c.call ptr fun peer => peer.sendCancel pieceIndex offset length (decide (ptr ∉ failing))).2.downloader =
      c.downloader.sendCancel ptr failing := by
  rw [Downloader.sendCancel]
  cases hpeer : c.connection ptr with
  | none =>
    -- the view has no such peer either
    have hdisconnect : c.downloader.disconnect ptr = c.downloader := by
      have hpeers : (c.downloader.disconnect ptr).peers = c.downloader.peers := by
        refine (List.map_congr_left fun peer hmem => ?_).trans (List.map_id _)
        have hfind : c.downloader.findPeer ptr = none := by
          rw [findPeer_downloader, hpeer]
          rfl
        rw [if_neg (by simpa using List.find?_eq_none.1 hfind peer hmem)]
        rfl
      exact congrArg (fun peers => { c.base with peers }) hpeers
    rw [call, hpeer, hdisconnect, ite_self]
  | some peer =>
    have hview : (peer.sendCancel pieceIndex offset length (decide (ptr ∉ failing))).2.asPeer ptr =
        if decide (ptr ∉ failing) then peer.asPeer ptr
        else { peer.asPeer ptr with connected := false } := asPeer_sendMessage ptr peer _ _
    rw [call, hpeer]
    by_cases hfailing : ptr ∈ failing
    · rw [if_pos hfailing]
      refine downloader_disconnect hplaced hpeer ?_
      simpa [hfailing] using hview
    · rw [if_neg hfailing]
      refine downloader_setConnection hpeer ?_
      simpa [hfailing] using hview

theorem mirrors_duplicates (pieceIndex offset : ℕ) (failing : List ℕ) :
    Mirrors (fun req c =>
        (c.call req.peer fun peer =>
          peer.sendCancel pieceIndex offset req.length (decide (req.peer ∉ failing))).2.change
            fun d => d.clearRequested pieceIndex offset)
      fun req d => (d.sendCancel req.peer failing).clearRequested pieceIndex offset where
  view req c hplaced := by
    refine (downloader_change (f := fun d => d.clearRequested pieceIndex offset)
      (peers_clearRequested _ _ _)).trans ?_
    rw [refines_sendCancel hplaced]
  ptrs req c := ptrs_call c _ _

/-! ### Messages -/

theorem peers_checkPiece (d : Downloader) (pieceIndex : ℕ) :
    (d.checkPiece sha1 pieceIndex).peers = d.peers := by
  rcases Downloader.checkPiece_eq sha1 d pieceIndex with ⟨-, heq⟩ | ⟨-, world, ⟨-, heq⟩ | ⟨-, heq⟩⟩
  · rw [heq]
  · rw [heq]
  · rw [heq]
    rfl

theorem refines_handleBlock (hplaced : c.Placed) (ptr : ℕ) (payload : Bytes) (failing : List ℕ)
    (now : ℤ) : (c.handleBlock sha1 ptr payload failing now).downloader =
      c.downloader.handleBlock sha1 ptr payload failing ∧
    (c.handleBlock sha1 ptr payload failing now).ptrs = c.ptrs := by
  rw [handleBlock, Downloader.handleBlock]
  split_ifs with hshort
  · exact ⟨rfl, rfl⟩
  dsimp only
  have hpending : c.downloader.pendingRequests = c.base.pendingRequests := rfl
  rw [hpending]
  cases hfind : c.base.pendingRequests.find? (Downloader.answers (Downloader.bytesToInt payload)
      (Downloader.bytesToInt (payload.drop 4)) ptr) with
  | none => exact ⟨rfl, rfl⟩
  | some req =>
    dsimp only
    split_ifs with hlength hdone
    · have hchange := downloader_change (c := c) (f := fun d =>
        (d.clearRequested (Downloader.bytesToInt payload)
          (Downloader.bytesToInt (payload.drop 4))).eraseAnswered (Downloader.bytesToInt payload)
            (Downloader.bytesToInt (payload.drop 4)) ptr) (peers_clearRequested _ _ _)
      exact ⟨hchange, rfl⟩
    · exact ⟨rfl, rfl⟩
    · -- the block is accepted
      have hplaced' : (((c.change fun d => d.acceptBlock (Downloader.bytesToInt payload)
          (Downloader.bytesToInt (payload.drop 4)) ptr (payload.drop 8)).modifyStats ptr fun stats =>
            stats.updateSpeed (payload.drop 8).length now).change fun d =>
              d.checkPiece sha1 (Downloader.bytesToInt payload)).Placed := hplaced.of_eq rfl
      obtain ⟨hview, hptrs⟩ := (mirrors_duplicates (Downloader.bytesToInt payload)
        (Downloader.bytesToInt (payload.drop 4)) failing).eraseRequests
          (fun req => decide (req.pieceIndex = Downloader.bytesToInt payload ∧
            req.offset = Downloader.bytesToInt (payload.drop 4) ∧ req.peer ≠ ptr)) hplaced'
      have haccept : (c.change fun d => d.acceptBlock (Downloader.bytesToInt payload)
          (Downloader.bytesToInt (payload.drop 4)) ptr (payload.drop 8)).downloader =
            c.downloader.acceptBlock (Downloader.bytesToInt payload)
              (Downloader.bytesToInt (payload.drop 4)) ptr (payload.drop 8) := downloader_change rfl
      refine ⟨hview.trans ?_, hptrs⟩
      rw [downloader_change (f := fun d => d.checkPiece sha1 (Downloader.bytesToInt payload))
        (peers_checkPiece _ _), Downloader.cancelDuplicateRequests, ← haccept]
      rfl

theorem refines_handleMessage (sha1 : Bytes → Bytes) (hplaced : c.Placed) (ptr : ℕ) (msg : PeerMessage) (failing : List ℕ)
    (now : ℤ) : (c.handleMessage sha1 ptr msg failing now).downloader =
      c.downloader.handleMessage sha1 ptr msg failing ∧
    (c.handleMessage sha1 ptr msg failing now).ptrs = c.ptrs := by
  obtain ⟨id, payload⟩ := msg
  cases id with
  | choke => exact (mirrors_own (fun _ c => c) fun _ _ => ⟨rfl, rfl⟩).eraseRequests _ hplaced
  | block => exact refines_handleBlock hplaced ptr payload failing now
  | _ => exact ⟨rfl, rfl⟩

/-! ### Actions -/

/-- What adding a peer does: nothing but forgetting that it was rejected, or there is one more
connection. -/
theorem addPeer_cases (c : Client) (now : ℤ) (peer : Peer) :
    c.addPeer now peer = (c.isPeerRejected peer.ip peer.port now).2 ∨
    (c.isPeerRejected peer.ip peer.port now).1 = false ∧
      (∀ l ∈ c.links, ¬ (l.connection.ip = peer.ip ∧ l.connection.port = peer.port)) ∧
      c.addPeer now peer = { (c.isPeerRejected peer.ip peer.port now).2 with
        links := c.links ++ [⟨c.links.length, c.swarm.connectionTo peer⟩] } := by
  rw [addPeer]
  dsimp only
  split_ifs with hrejected hknown
  · exact .inl rfl
  · exact .inl rfl
  · refine .inr ⟨Bool.eq_false_of_not_eq_true hrejected, fun l hl h => hknown ?_, rfl⟩
    exact List.any_eq_true.2 ⟨l, hl, decide_eq_true h⟩

theorem Placed.addPeer (h : c.Placed) (now : ℤ) (peer : Peer) : (c.addPeer now peer).Placed := by
  rcases c.addPeer_cases now peer with heq | ⟨-, -, heq⟩ <;> rw [heq]
  · exact h.of_eq rfl
  · have hptrs : c.links.length ∉ c.ptrs := fun hmem => absurd (h.lt _ hmem) (lt_irrefl _)
    refine ⟨?_, fun ptr hptr => ?_⟩
    · show (List.map Link.ptr (c.links ++ _)).Nodup
      rw [List.map_append]
      exact h.nodup.append (List.nodup_singleton _) (by simpa using hptrs)
    · show ptr < (c.links ++ _).length
      have hmem : ptr ∈ List.map Link.ptr (c.links ++ [⟨c.links.length, c.swarm.connectionTo peer⟩]) :=
        hptr
      rw [List.map_append, List.mem_append] at hmem
      rw [List.length_append, List.length_singleton]
      rcases hmem with hmem | hmem
      · exact Nat.lt_succ_of_lt (h.lt ptr hmem)
      · rw [List.mem_singleton.1 hmem]
        exact Nat.lt_succ_self _

/-- The events of the loop. -/
structure LoopEvent (plain : Prop) (d : Downloader) (e : Downloader.Event) : Prop where
  keeps : ∀ peers, e = .connections peers →
    ∀ ptr ∈ d.peers.map PeerConnection.ptr, ptr ∈ peers.map PeerConnection.ptr
  endgame : ∀ value, e = .endgame value →
    ¬ plain ∧ value = decide (d.remainingBlocks ≤ Downloader.endgameBlockThreshold)

/-- Events of the loop lead from one state of the download to another. -/
def Runs (sha1 : Bytes → Bytes) (plain : Prop) (d d' : Downloader) : Prop :=
  Run.Reaches (Downloader.step sha1) (LoopEvent plain) d d'

/-- A change of the connections alone. -/
theorem runs_connections (hbase : c'.base = c.base) (hptrs : ∀ ptr ∈ c.ptrs, ptr ∈ c'.ptrs) :
    Runs sha1 plain c.downloader c'.downloader := by
  have hstep : c'.downloader = c.downloader.step sha1 (.connections c'.downloader.peers) := by
    rw [downloader, hbase]
    rfl
  rw [hstep]
  refine Run.Reaches.single ⟨fun peers h ptr hptr => ?_, fun value h => by cases h⟩
  cases h
  rw [map_ptr_peers] at hptr ⊢
  exact hptrs ptr hptr

/-- An action that changes the connections alone, and keeps the pointers. -/
theorem refines_of_ptrs (hplaced : c.Placed) (hbase : c'.base = c.base) (hptrs : c'.ptrs = c.ptrs) :
    c'.Placed ∧ Runs sha1 plain c.downloader c'.downloader :=
  ⟨hplaced.of_eq hptrs, runs_connections hbase fun _ h => hptrs ▸ h⟩

theorem runs_step {d : Downloader} {e : Downloader.Event} (hkeeps : ∀ peers, e ≠ .connections peers)
    (hendgame : ∀ value, e ≠ .endgame value) : Runs sha1 plain d (d.step sha1 e) :=
  Run.Reaches.single ⟨fun peers h => absurd h (hkeeps peers), fun value h => absurd h (hendgame value)⟩

/-- What is received arrives at the connection first, and then the message is handled. -/
theorem refines_hear (hplaced : c.Placed) (r : Reception) (msg : Wire.PeerMessage) :
    (c.hear sha1 ptr r peer msg).Placed ∧
      Runs sha1 plain c.downloader (c.hear sha1 ptr r peer msg).downloader := by
  obtain ⟨hset, hruns⟩ : (c.setConnection ptr peer).Placed ∧
      Runs sha1 plain c.downloader (c.setConnection ptr peer).downloader :=
    refines_of_ptrs hplaced rfl ptrs_setConnection
  have hplaced' : ((c.setConnection ptr peer).change fun d =>
      { d with world := { d.world with faults := r.faults } }).Placed := hset.of_eq rfl
  obtain ⟨hview, hptrs⟩ := refines_handleMessage sha1 hplaced' ptr msg.toPeerMessage
    r.failing r.now
  refine ⟨hplaced'.of_eq hptrs, hruns.trans ?_⟩
  rw [hear, hview]
  exact runs_step (e := .message ptr msg.toPeerMessage r.faults r.failing) (fun _ => nofun)
    fun _ => nofun

/-- **Every action is a run of events.** -/
theorem refines_act (hplaced : c.Placed) {a : Action} (h : Allowed T plain c a) :
    (c.act sha1 a).Placed ∧ Runs sha1 plain c.downloader (c.act sha1 a).downloader := by
  cases a with
  | sort links =>
    have hperm : ({ c with links } : Client).ptrs.Perm c.ptrs := h.enabled.map Link.ptr
    exact ⟨hplaced.of_perm hperm, runs_connections rfl fun ptr hptr => hperm.mem_iff.2 hptr⟩
  | connect ptr a =>
    show (c.connectRound ptr a).2.Placed ∧ Runs _ _ _ (c.connectRound ptr a).2.downloader
    cases hpeer : c.connection ptr with
    | none =>
      have hsame : (c.connectRound ptr a).2 = c := by rw [connectRound, hpeer]
      rw [hsame]
      exact ⟨hplaced, .refl _⟩
    | some peer =>
      rcases connectRound_cases hpeer a with ⟨-, heq⟩ | ⟨-, -, heq⟩ | ⟨-, -, heq⟩ <;> rw [heq]
      · exact refines_of_ptrs hplaced rfl rfl
      · exact refines_of_ptrs hplaced rfl ptrs_setConnection
      · exact refines_of_ptrs hplaced rfl ptrs_setConnection
  | receive ptr r msg =>
    show (c.receive sha1 ptr r msg).Placed ∧ Runs _ _ _ (c.receive sha1 ptr r msg).downloader
    rw [receive]
    split
    · exact ⟨hplaced, .refl _⟩
    · split
      · exact ⟨hplaced, .refl _⟩
      · exact refines_of_ptrs hplaced rfl ptrs_setConnection
      · exact refines_hear hplaced r _
  | takePeers ptr =>
    show (c.takePeers ptr).Placed ∧ Runs _ _ _ (c.takePeers ptr).downloader
    rw [takePeers]
    split
    · exact ⟨hplaced, .refl _⟩
    · exact refines_of_ptrs hplaced rfl ptrs_setConnection
  | addPeer now peer =>
    refine ⟨hplaced.addPeer now peer, runs_connections ?_ fun ptr hptr => ?_⟩
    · show (c.addPeer now peer).base = c.base
      rcases c.addPeer_cases now peer with heq | ⟨-, -, heq⟩ <;> rw [heq] <;> rfl
    · show ptr ∈ (c.addPeer now peer).ptrs
      rcases c.addPeer_cases now peer with heq | ⟨-, -, heq⟩ <;> rw [heq]
      · exact hptr
      · show ptr ∈ List.map Link.ptr (c.links ++ _)
        rw [List.map_append]
        exact List.mem_append_left _ hptr
  | request ptr sends now =>
    obtain ⟨hview, hptrs⟩ := refines_requestBlocksFromPeer hplaced ptr sends now
    refine ⟨hplaced.of_eq hptrs, ?_⟩
    show Runs _ _ _ (c.requestBlocksFromPeer ptr sends now).downloader
    rw [hview]
    exact runs_step (e := .request ptr sends now) (fun _ h => by cases h) fun _ h => by cases h
  | timeouts now =>
    obtain ⟨hview, hptrs⟩ := (mirrors_own
      (fun req c => c.modifyStats req.peer PeerSpeedStats.fail) fun _ _ => ⟨rfl, rfl⟩).eraseRequests
        (fun req => decide (now - req.requestTime > 15000)) hplaced
    refine ⟨hplaced.of_eq hptrs, ?_⟩
    show Runs _ _ _ (c.cleanupTimedOutRequests now).downloader
    rw [cleanupTimedOutRequests, hview]
    exact runs_step (e := .timeouts now) (fun _ h => by cases h) fun _ h => by cases h
  | endgame =>
    refine ⟨hplaced.of_eq rfl, ?_⟩
    have hstep : (c.act sha1 .endgame).downloader = c.downloader.step sha1
        (.endgame (decide (c.downloader.remainingBlocks ≤ Downloader.endgameBlockThreshold))) := rfl
    rw [hstep]
    refine Run.Reaches.single ⟨fun _ h => (by cases h), fun value hvalue => ⟨fun hplain => ?_, ?_⟩⟩
    · exact h.plain hplain rfl
    · exact (Downloader.Event.endgame.inj hvalue).symm
  | prune ptr now evicted =>
    show (c.prunePeer now evicted ptr).Placed ∧ Runs _ _ _ (c.prunePeer now evicted ptr).downloader
    rw [prunePeer]
    split
    · exact ⟨hplaced, .refl _⟩
    · split_ifs
      · exact refines_of_ptrs hplaced rfl ptrs_setConnection
      · exact ⟨hplaced, .refl _⟩
  | addTracker tracker =>
    show (c.addTracker tracker).Placed ∧ Runs _ _ _ (c.addTracker tracker).downloader
    rw [addTracker]
    split_ifs
    · exact ⟨hplaced, .refl _⟩
    · exact refines_of_ptrs hplaced rfl rfl
  | contact S trackers => exact refines_of_ptrs hplaced rfl rfl

/-- Whatever actions lead to, events lead to in the view. -/
theorem Leads.refines (h : Leads sha1 T plain c c') (hplaced : c.Placed) :
    c'.Placed ∧ Runs sha1 plain c.downloader c'.downloader :=
  ⟨Run.Reaches.invariant (fun _ _ hs ha => (refines_act hs ha).1) h hplaced,
    Run.Reaches.simulates (fun _ _ hs ha => refines_act hs ha) h hplaced⟩

/-! ### Executions -/

/-- The iterations end with a complete download if they say so. -/
theorem isComplete_of_rounds {S : (α : Type) → Sorting.Sorter α} {msg : Wire.PeerMessage}
    {rs : List Round} {l l' : Loop} (h : l.rounds sha1 S msg rs = some (true, l')) :
    l'.client.downloader.isComplete = true := by
  induction rs generalizing l with
  | nil => cases h
  | cons r rest ih =>
    rw [Loop.rounds] at h
    rcases hiterate : l.iterate sha1 S msg r with - | ⟨_ | _, l₁⟩ <;> rw [hiterate] at h
    · cases h
    · exact ih h
    · obtain rfl := (Prod.mk.inj (Option.some.inj h)).2
      obtain ⟨c, -, hfinish⟩ := Option.map_eq_some_iff.1 hiterate
      rw [Loop.finish] at hfinish
      split_ifs at hfinish with hcomplete
      · rw [← (Prod.mk.inj hfinish).2]
        exact hcomplete
      · cases hfinish

theorem isComplete_of_downloadLoop {S : (α : Type) → Sorting.Sorter α} {o : Opening}
    {msg : Wire.PeerMessage} {rs : List Round} (h : c.downloadLoop S o sha1 msg rs = some (true, c')) :
    c'.downloader.isComplete = true := by
  rw [downloadLoop] at h
  rcases hopening : c.opening S o with - | c₁ | l <;> rw [hopening] at h
  · cases h
  · cases h
  · obtain ⟨⟨complete, l'⟩, hrounds, hout⟩ := Option.map_eq_some_iff.1 h
    obtain ⟨rfl, rfl⟩ := Prod.mk.inj hout
    exact isComplete_of_rounds hrounds

theorem round_clocked_true (r : Round) : r.Clocked fun _ => True :=
  ⟨fun _ => ⟨trivial, trivial⟩, fun _ _ _ => trivial, fun _ => trivial, fun _ => trivial, trivial,
    trivial, fun _ => trivial, fun _ => trivial⟩

theorem clocked_true (o : Opening) (rs : List Round) : Clocked (fun _ => True) o rs :=
  ⟨fun _ => trivial, fun _ => trivial, fun r _ => round_clocked_true r⟩

/-- An execution in the view: events of the loop, in a run that keeps every connection. -/
theorem runs_downloadLoop {S : (α : Type) → Sorting.Sorter α} {o : Opening} {msg : Wire.PeerMessage}
    {rs : List Round} (hplaced : c.Placed) {out : Bool × Client}
    (h : c.downloadLoop S o sha1 msg rs = some out) :
    out.2.Placed ∧ Runs sha1 False c.downloader out.2.downloader :=
  (downloadLoop_leads (clocked_true o rs) h).refines hplaced

end Gush.Client
