import Gush.Loop.Links
import Gush.Wire.RoundTrip

/-!
# What the loop sends

Everything that has been sent on an open connection: the handshake, the greeting, and then requests
for whole blocks of the torrent and cancels of such requests, each in a frame of its own
(`sent_bytes`). So a peer that reads the stream reads just these messages, however it arrives.
-/

namespace Gush

open Cxx Posix

/-! ### The greeting -/

namespace Wire

/-- The extended handshake of the client. -/
def PeerMessage.createExtensionHandshake : PeerMessage :=
  let payload : Bytes := 0 :: Bencode.encode (.dict PeerConnection.extensionHandshake)
  { id := .extended, payload, length := 1 + payload.length }

namespace PeerState

/-- What is sent behind the handshake before the first block is asked for. -/
def greeting (peer : PeerState) : List PeerMessage :=
  .createInterested :: ((if peer.peerSupportsExtensions then [.createExtensionHandshake] else []) ++
    [.createUnchoke])

/-- What the greeting and the handshake depend on. -/
structure SameSession (peer peer' : PeerState) : Prop where
  torrent : peer'.torrent = peer.torrent
  peerId : peer'.peerId = peer.peerId
  extensions : peer'.peerSupportsExtensions = peer.peerSupportsExtensions

theorem sameSession_update {peer peer' : PeerState} {fuel : ℕ} {msg : PeerMessage}
    (h : peer.update fuel msg = some peer') : SameSession peer peer' := by
  obtain ⟨⟨id, payload⟩, length⟩ := msg
  cases id with
  | extended =>
    rcases process_cases h with rfl | ⟨id, encoded, value, p, -, -, rfl⟩
    · exact ⟨rfl, rfl, rfl⟩
    · unfold processExtension
      split_ifs
      · split <;> exact ⟨rfl, rfl, rfl⟩
      · exact ⟨rfl, rfl, rfl⟩
      · split <;> exact ⟨rfl, rfl, rfl⟩
  | havePiece =>
    obtain rfl := Option.some.inj h
    rw [setHave]
    split_ifs <;> exact ⟨rfl, rfl, rfl⟩
  | _ =>
    obtain rfl := Option.some.inj h
    exact ⟨rfl, rfl, rfl⟩

end PeerState

namespace PeerConnection

theorem outgoing_recvAll (s : Socket) (size : ℕ) : (s.recvAll size).2.outgoing = s.outgoing := by
  rw [Socket.recvAll]
  split_ifs <;> rfl

theorem outgoing_receiveBody {peer : PeerConnection} {fuel : ℕ} {s s' : Socket} {msg : PeerMessage}
    {out : Bool × PeerConnection × PeerMessage} (h : peer.receiveBody fuel s msg = some out)
    (hs' : out.2.1.socket = some s') : s'.outgoing = s.outgoing := by
  have hid := outgoing_recvAll s 1
  rw [receiveBody] at h
  split_ifs at h
  · obtain rfl := Option.some.inj h
    exact congrArg Socket.outgoing (Option.some.inj hs').symm
  · rcases hread : s.recvAll 1 with ⟨_ | idBuf, s₁⟩ <;> rw [hread] at h hid
    · obtain rfl := Option.some.inj h
      exact (congrArg Socket.outgoing (Option.some.inj hs').symm).trans hid
    dsimp only at h hid
    split_ifs at h
    · have hrest := outgoing_recvAll s₁ (msg.length - 1)
      rcases hread' : s₁.recvAll (msg.length - 1) with ⟨_ | payload, s₂⟩ <;> rw [hread'] at h hrest
      · obtain rfl := Option.some.inj h
        exact (congrArg Socket.outgoing (Option.some.inj hs').symm).trans (hrest.trans hid)
      · obtain ⟨state, -, rfl⟩ := Option.map_eq_some_iff.1 h
        exact (congrArg Socket.outgoing (Option.some.inj hs').symm).trans (hrest.trans hid)
    · obtain ⟨state, -, rfl⟩ := Option.map_eq_some_iff.1 h
      exact (congrArg Socket.outgoing (Option.some.inj hs').symm).trans hid

/-- Receiving sends nothing and keeps the session. -/
theorem receive_spec {peer : PeerConnection} {fuel : ℕ} {msg : PeerMessage}
    {out : Bool × PeerConnection × PeerMessage}
    (h : peer.receiveMessageNonBlocking fuel msg = some out) :
    peer.toPeerState.SameSession out.2.1.toPeerState ∧ ∀ s', out.2.1.socket = some s' →
      ∃ s, peer.socket = some s ∧ s'.outgoing = s.outgoing := by
  refine ⟨?_, ?_⟩
  · rcases peer.receiveMessageNonBlocking_hears h with ⟨-, hstate⟩ | ⟨-, fuel', hstate⟩
    · rw [hstate]
      exact ⟨rfl, rfl, rfl⟩
    · exact PeerState.sameSession_update hstate
  · intro s' hs'
    rw [receiveMessageNonBlocking] at h
    cases hsocket : peer.socket with
    | none =>
      rw [hsocket] at h
      obtain rfl := Option.some.inj h
      rw [hsocket] at hs'
      cases hs'
    | some s =>
      rw [hsocket] at h
      refine ⟨s, rfl, ?_⟩
      have hsame : peer.socket = some s' → s'.outgoing = s.outgoing := fun hself => by
        rw [Option.some.inj (hself.symm.trans hsocket)]
      have hread := outgoing_recvAll s 4
      dsimp only at h
      split_ifs at h
      · obtain rfl := Option.some.inj h
        exact hsame hs'
      · obtain rfl := Option.some.inj h
        cases hs'
      · obtain rfl := Option.some.inj h
        exact hsame hs'
      · rcases hout : s.recvAll 4 with ⟨_ | lengthBuf, s₁⟩ <;> rw [hout] at h hread
        · obtain rfl := Option.some.inj h
          exact (congrArg Socket.outgoing (Option.some.inj hs').symm).trans hread
        · exact (outgoing_receiveBody h hs').trans hread

/-! ### Opening a session -/

/-- The stream of an open connection: the handshake and some messages, each in its frame. -/
def Sent (peer : PeerConnection) (msgs : List PeerMessage) : Prop :=
  ∀ s, peer.socket = some s → s.outgoing =
    handshake peer.torrent.infoHash peer.peerId ++ (msgs.map PeerMessage.bytes).flatten

/-- A message that is sent comes behind the others. -/
theorem Sent.send {peer : PeerConnection} {msgs : List PeerMessage} (h : peer.Sent msgs)
    (msg : PeerMessage) (sent : Bool) : (peer.sendMessage msg sent).2.Sent (msgs ++ [msg]) := by
  intro s' hs'
  rw [sendMessage_state]
  rw [sendMessage] at hs'
  cases hsocket : peer.socket with
  | none =>
    rw [hsocket] at hs'
    cases hsocket.symm.trans hs'
  | some s =>
    rw [hsocket] at hs'
    dsimp only at hs'
    split_ifs at hs'
    · obtain rfl := Option.some.inj hs'
      show s.outgoing ++ msg.bytes = _
      rw [h s hsocket, List.map_append, List.flatten_append, List.append_assoc]
      simp
    · cases hs'

theorem Sent.of_closed {peer : PeerConnection} (h : peer.socket = none) (msgs : List PeerMessage) :
    peer.Sent msgs := by
  intro s hs
  cases h.symm.trans hs

/-- A change of the state that keeps the session. -/
theorem Sent.of_same {peer peer' : PeerConnection} {msgs : List PeerMessage} (h : peer.Sent msgs)
    (hsame : peer.toPeerState.SameSession peer'.toPeerState)
    (hsocket : ∀ s', peer'.socket = some s' → ∃ s, peer.socket = some s ∧ s'.outgoing = s.outgoing) :
    peer'.Sent msgs := by
  intro s' hs'
  obtain ⟨s, hs, hout⟩ := hsocket s' hs'
  rw [hout, h s hs, hsame.torrent, hsame.peerId]

theorem sent_greet {peer : PeerConnection} (h : peer.Sent []) {net : Network}
    (hopen : (peer.greet net).1 = true) : (peer.greet net).2.Sent (.createInterested ::
      if peer.peerSupportsExtensions then [.createExtensionHandshake] else []) := by
  have hquiet : Sent { peer with amInterested := true } [] := h
  have hfirst : (peer.sendInterested net.sendsInterested).2.Sent [.createInterested] :=
    hquiet.send .createInterested _
  have hstate := sendInterested_state peer net.sendsInterested
  rw [greet] at hopen ⊢
  rcases hout : peer.sendInterested net.sendsInterested with ⟨_ | _, peer₁⟩ <;>
    rw [hout] at hopen hfirst hstate
  · cases hopen
  · have hext : peer₁.peerSupportsExtensions = peer.peerSupportsExtensions := by
      rw [show peer₁.toPeerState = _ from hstate]
    dsimp only at hopen hfirst ⊢
    rw [hext] at hopen ⊢
    split_ifs
    · exact hfirst.send .createExtensionHandshake _
    · exact hfirst

/-- A handshake that succeeds ends with the greeting. -/
theorem greet_of_performHandshake {peer : PeerConnection} {net : Network}
    (h : (peer.performHandshake { incoming := net.incoming } net).1 = true) :
    ∃ peer' : PeerConnection, peer'.Sent [] ∧
      peer.performHandshake { incoming := net.incoming } net = peer'.greet net := by
  rw [performHandshake] at h ⊢
  by_cases hsends : net.sendsHandshake = true
  · rw [if_pos hsends] at h ⊢
    dsimp only at h ⊢
    have hout := outgoing_recvAll
      { incoming := net.incoming, outgoing := [] ++ handshake peer.torrent.infoHash peer.peerId } 68
    generalize Socket.recvAll
      ⟨net.incoming, [] ++ handshake peer.torrent.infoHash peer.peerId⟩ 68 = read at h hout ⊢
    obtain ⟨_ | received, s⟩ := read
    · cases h
    dsimp only at h hout ⊢
    split_ifs at h ⊢
    refine ⟨_, fun s' hs' => ?_, rfl⟩
    obtain rfl := Option.some.inj hs'
    rw [hout]
    simp
  · rw [if_neg hsends] at h
    cases h

/-- An attempt that succeeds sends the handshake and the greeting. -/
theorem sent_connect {peer : PeerConnection} (hclosed : peer.isConnected = false) (net : Network)
    (hopen : (peer.connect net).1 = true) (sent : Bool) :
    ((peer.connect net).2.sendUnchoke sent).2.Sent
      ((peer.connect net).2.sendUnchoke sent).2.greeting := by
  -- behind the greeting there is only the unchoke message
  have hunchoke : ∀ peer' : PeerConnection, peer'.Sent (.createInterested ::
      (if peer'.peerSupportsExtensions then [.createExtensionHandshake] else [])) →
      (peer'.sendUnchoke sent).2.Sent (peer'.sendUnchoke sent).2.greeting := by
    intro peer' h
    have hstate : (peer'.sendUnchoke sent).2.toPeerState = { peer'.toPeerState with amChoking := false } :=
      sendMessage_state { peer' with amChoking := false } .createUnchoke sent
    have hgreeted : Sent { peer' with amChoking := false } (.createInterested ::
        if peer'.peerSupportsExtensions then [.createExtensionHandshake] else []) := h
    rw [hstate]
    exact hgreeted.send .createUnchoke sent
  have hstart : ∃ peer' : PeerConnection, peer'.Sent [] ∧ peer.connect net = peer'.greet net := by
    rw [connect, hclosed, if_neg (by decide)] at hopen ⊢
    by_cases hopens : net.opens = true
    · rw [if_pos hopens] at hopen ⊢
      rcases hout : peer.performHandshake { incoming := net.incoming } net with ⟨_ | _, peer'⟩ <;>
        rw [hout] at hopen
      · cases hopen
      · obtain ⟨peer₁, hsent, heq⟩ := greet_of_performHandshake (by rw [hout])
        exact ⟨peer₁, hsent, hout.symm.trans heq⟩
    · rw [if_neg hopens] at hopen
      cases hopen
  obtain ⟨peer', hsent, heq⟩ := hstart
  rw [heq] at hopen ⊢
  have hgreeted := sent_greet hsent hopen
  have hext : (peer'.greet net).2.peerSupportsExtensions = peer'.peerSupportsExtensions := by
    rw [greet_state]
  rw [← hext] at hgreeted
  exact hunchoke _ hgreeted

/-- An attempt keeps the torrent and the identifier of the client. -/
theorem connect_keeps (peer : PeerConnection) (net : Network) :
    (peer.connect net).2.torrent = peer.torrent ∧ (peer.connect net).2.peerId = peer.peerId := by
  have hshake : ∀ s : Socket, (peer.performHandshake s net).2.torrent = peer.torrent ∧
      (peer.performHandshake s net).2.peerId = peer.peerId := by
    intro s
    rw [performHandshake]
    split_ifs
    · dsimp only
      split
      · exact ⟨rfl, rfl⟩
      · split_ifs
        · rw [greet_state]
          exact ⟨rfl, rfl⟩
        · exact ⟨rfl, rfl⟩
    · exact ⟨rfl, rfl⟩
  rw [connect]
  split_ifs
  · exact ⟨rfl, rfl⟩
  · have hend := hshake { incoming := net.incoming }
    split <;> rename_i hout <;> rw [hout] at hend <;> exact hend
  · exact ⟨rfl, rfl⟩

end PeerConnection

end Wire

/-! ### Requests -/

namespace Downloader

/-- A whole block of the torrent: from a multiple of the block size up to the next one, or up to the
end of the piece. -/
structure IsBlock (torrent : TorrentInfo) (i offset length : ℕ) : Prop where
  piece : i < torrent.numPieces
  aligned : offset % blockSize = 0
  inside : (offset : ℤ) < pieceSize torrent i
  whole : (length : ℤ) = min (blockSize : ℤ) (pieceSize torrent i - offset)

/-- A message that asks for a block of the torrent, or cancels that. -/
inductive Asked (torrent : TorrentInfo) : Wire.PeerMessage → Prop
  | request {i offset length : ℕ} (h : IsBlock torrent i offset length) :
      Asked torrent (.createRequest i offset length)
  | cancel {i offset length : ℕ} (h : IsBlock torrent i offset length) :
      Asked torrent (.createCancel i offset length)

variable {torrent : TorrentInfo} {d : Downloader}

/-- What has the length of a block and stands where a block begins is a block. -/
theorem isBlock_of_length (hd : d.WellFormed) (ht : Fitting d.torrent) {i b length : ℕ}
    (hb : b < d.blockCount i) (hlength : (length : ℤ) = blockLength d.torrent i b) :
    IsBlock d.torrent i (b * blockSize) length := by
  have hi := hd.lt_numPieces hb
  have hstart := block_start_lt hd ht hi b hb
  rw [blockLength, Chunks.size] at hlength
  have hoffset : ((b * blockSize : ℕ) : ℤ) = b * blockSize := Nat.cast_mul b blockSize
  refine ⟨hi, Nat.mul_mod_left b blockSize, ?_, ?_⟩ <;> rw [hoffset]
  · exact hstart
  · exact hlength

/-- Where the counters are right, only blocks are asked for. -/
theorem asks_of_tracked (h : Tracked torrent d) (ht : Fitting torrent) :
    Client.Asks (Asked torrent) d := by
  obtain rfl := h.torrent_eq
  have hd := h.orderly.wellFormed
  refine ⟨fun ptr i _ b hb => .request ?_, fun req hreq => .cancel ?_⟩
  · have hlength := requestLength_eq hd ht (hd.lt_numPieces hb) hb
    have hoffset := uint32_block h.orderly hb
    rw [Nat.cast_mul] at hoffset
    rw [requestedRange, hoffset]
    exact isBlock_of_length hd ht hb hlength
  · obtain ⟨haligned, hb⟩ := h.orderly.pending req hreq
    have hlength := h.counted.measured req hreq
    have hblock := isBlock_of_length hd ht hb hlength
    rwa [Nat.div_mul_cancel (Nat.dvd_of_mod_eq_zero haligned)] at hblock

end Downloader

/-! ### Connections -/

namespace Client

/-- A connection for a torrent on which, if it is open, only the handshake, the greeting and messages
about blocks have been sent. -/
structure Speaks (torrent : TorrentInfo) (peer : Wire.PeerConnection) : Prop where
  torrent_eq : peer.torrent = torrent
  peerId_eq : peer.peerId = torrent.peerId
  sent : ∃ asks, (∀ msg ∈ asks, Downloader.Asked torrent msg) ∧ peer.Sent (peer.greeting ++ asks)

variable {torrent : TorrentInfo} {peer peer' : Wire.PeerConnection}

/-- A change that keeps the session and sends nothing. -/
theorem Speaks.of_same (h : Speaks torrent peer) (hsame : peer.SameSession peer'.toPeerState)
    (hsocket : ∀ s', peer'.socket = some s' → ∃ s, peer.socket = some s ∧ s'.outgoing = s.outgoing) :
    Speaks torrent peer' := by
  obtain ⟨asks, hasks, hsent⟩ := h.sent
  refine ⟨hsame.torrent.trans h.torrent_eq, hsame.peerId.trans h.peerId_eq, asks, hasks, ?_⟩
  rw [Wire.PeerState.greeting, hsame.extensions]
  exact hsent.of_same hsame hsocket

theorem follows_speaks (torrent : TorrentInfo) : Follows (Downloader.Asked torrent)
    fun peer peer' => Speaks torrent peer → Speaks torrent peer' where
  refl _ := id
  trans h h' := h' ∘ h
  send peer msg sent hmsg h := by
    have hstate := peer.sendMessage_state msg sent
    obtain ⟨asks, hasks, hsent⟩ := h.sent
    refine ⟨?_, ?_, asks ++ [msg], fun m hm => ?_, ?_⟩
    · rw [hstate]
      exact h.torrent_eq
    · rw [hstate]
      exact h.peerId_eq
    · rcases List.mem_append.1 hm with hm | hm
      · exact hasks m hm
      · exact List.mem_singleton.1 hm ▸ hmsg
    · rw [hstate, ← List.append_assoc]
      exact hsent.send msg sent
  receive peer bytes fuel msg out hout h := by
    obtain ⟨hsame, hsocket⟩ := Wire.PeerConnection.receive_spec hout
    refine h.of_same hsame fun s' hs' => ?_
    obtain ⟨s, hs, houtgoing⟩ := hsocket s' hs'
    obtain ⟨s₀, hs₀, rfl⟩ := Option.map_eq_some_iff.1 hs
    exact ⟨s₀, hs₀, houtgoing⟩
  take peer h := h.of_same ⟨rfl, rfl, rfl⟩ fun s' hs' => ⟨s', hs', rfl⟩
  disconnect peer h := h.of_same ⟨rfl, rfl, rfl⟩ nofun

/-! ### Executions -/

variable {sha1 : Bytes → Bytes} {T : ℤ → Prop} {plain : Prop} {c c' : Client}

/-- An attempt opens a session of which all is known. -/
theorem speaks_connectRound {ptr : ℕ} {a : Attempt} (hfree : c.isConnected ptr = false)
    (hc : ∀ ptr peer, c.connection ptr = some peer → Speaks torrent peer) (ptr' : ℕ)
    (peer' : Wire.PeerConnection) (hpeer' : (c.connectRound ptr a).2.connection ptr' = some peer') :
    Speaks torrent peer' := by
  cases hpeer : c.connection ptr with
  | none =>
    rw [connectRound, hpeer] at hpeer'
    exact hc ptr' peer' hpeer'
  | some peer =>
    have hclosed : peer.isConnected = false := by
      rw [isConnected, hpeer] at hfree
      exact hfree
    have hold := hc ptr peer hpeer
    obtain ⟨htorrent, hpeerId⟩ := peer.connect_keeps a.net
    have hset : ∀ new : Wire.PeerConnection, Speaks torrent new →
        (c.setConnection ptr new).connection ptr' = some peer' → Speaks torrent peer' := by
      intro new hnew hfound
      rw [connection_setConnection] at hfound
      split_ifs at hfound
      · obtain ⟨-, -, rfl⟩ := Option.map_eq_some_iff.1 hfound
        exact hnew
      · exact hc ptr' peer' hfound
    rcases connectRound_cases hpeer a with ⟨-, heq⟩ | ⟨-, hopen, heq⟩ | ⟨-, hfailed, heq⟩ <;>
      rw [heq] at hpeer'
    · exact hc ptr' peer' hpeer'
    · have hstate := Wire.PeerConnection.sendMessage_state
        { (peer.connect a.net).2 with amChoking := false } .createUnchoke a.sent
      refine hset _ ⟨?_, ?_, [], List.forall_mem_nil _, ?_⟩ hpeer'
      · exact (congrArg Wire.PeerState.torrent hstate).trans (htorrent.trans hold.torrent_eq)
      · exact (congrArg Wire.PeerState.peerId hstate).trans (hpeerId.trans hold.peerId_eq)
      · rw [List.append_nil]
        exact Wire.PeerConnection.sent_connect hclosed a.net hopen a.sent
    · have hsocket := Option.isNone_iff_eq_none.1
        (Option.isSome_eq_false_iff.1 (isConnected_of_connect_false hfailed))
      exact hset _ ⟨htorrent.trans hold.torrent_eq, hpeerId.trans hold.peerId_eq, [], List.forall_mem_nil _,
        .of_closed hsocket _⟩ hpeer'

/-- A new connection has sent nothing. -/
theorem speaks_addPeer {now : ℤ} {peer : Peer} (htorrent : c.base.torrent = torrent)
    (hc : ∀ ptr peer, c.connection ptr = some peer → Speaks torrent peer) (ptr : ℕ)
    (peer' : Wire.PeerConnection) (hpeer' : (c.addPeer now peer).connection ptr = some peer') :
    Speaks torrent peer' := by
  rcases c.addPeer_cases now peer with heq | ⟨-, -, heq⟩ <;> rw [heq] at hpeer'
  · exact hc ptr peer' hpeer'
  · rw [connection, FirstMatch.lookup_append_singleton] at hpeer'
    cases hold : FirstMatch.lookup Link.ptr ptr c.links with
    | some l =>
      rw [hold] at hpeer'
      exact hc ptr peer' ((congrArg (Option.map Link.connection) hold).trans hpeer')
    | none =>
      rw [hold, Option.none_or] at hpeer'
      split_ifs at hpeer'
      · obtain rfl := Option.some.inj hpeer'
        exact ⟨htorrent, congrArg TorrentInfo.peerId htorrent, [], List.forall_mem_nil _,
          .of_closed rfl _⟩
      · cases hpeer'

/-- Wherever the loop gets, it has sent nothing else. -/
theorem Launched.speaks {options : DownloadOptions} (h : Launched sha1 torrent options c)
    (ht : Downloader.Fitting torrent)
    (hc : ∀ ptr peer, c.connection ptr = some peer → Speaks torrent peer)
    (hleads : Leads sha1 T plain c c') :
    ∀ ptr peer, c'.connection ptr = some peer → Speaks torrent peer := by
  suffices hall : c'.Placed ∧ Runs sha1 plain c.downloader c'.downloader ∧
      ∀ ptr peer, c'.connection ptr = some peer → Speaks torrent peer from hall.2.2
  refine Run.Reaches.invariant (P := fun s : Client => s.Placed ∧ Runs sha1 plain c.downloader
    s.downloader ∧ ∀ ptr peer, s.connection ptr = some peer → Speaks torrent peer) ?_ hleads
      ⟨h.placed, .refl _, hc⟩
  rintro s a ⟨hplaced, hruns, hs⟩ ha
  obtain ⟨hplaced', hmore⟩ := refines_act hplaced ha
  have htracked := h.tracked ht hruns
  have hasks := Downloader.asks_of_tracked htracked ht
  have hserve : a.Serves → ∀ ptr peer, (s.act sha1 a).connection ptr = some peer →
      Speaks torrent peer := by
    intro hserves ptr peer' hpeer'
    obtain ⟨peer, hpeer, hrelated⟩ :=
      (rewired_act (follows_speaks torrent) hplaced hasks ha.enabled hserves).related ptr peer' hpeer'
    exact hrelated (hs ptr peer hpeer)
  refine ⟨hplaced', hruns.trans hmore, ?_⟩
  cases a with
  | connect ptr a => exact speaks_connectRound ha.enabled.1 hs
  | addPeer now peer => exact speaks_addPeer htracked.torrent_eq hs
  | _ => exact hserve trivial

variable {savePath : Bytes} {options : DownloadOptions} {loopOptions : LoopOptions} {world : World}
  {known : List ((ℕ → ℤ) × List Peer)} {faults : List Fault} {stopAfter : Option ℕ}

/-- Before the loop nothing has been sent. -/
theorem speaks_start (hstart : ((init torrent savePath options loopOptions world).addKnown
      known).start sha1 faults stopAfter = (true, c)) (ptr : ℕ) (peer : Wire.PeerConnection)
    (hpeer : c.connection ptr = some peer) : Speaks torrent peer := by
  have hknown : ((init torrent savePath options loopOptions world).addKnown known).base.torrent =
      torrent ∧ ∀ ptr peer, ((init torrent savePath options loopOptions world).addKnown
        known).connection ptr = some peer → Speaks torrent peer := by
    refine Run.invariant (P := fun c : Client => c.base.torrent = torrent ∧
      ∀ ptr peer, c.connection ptr = some peer → Speaks torrent peer) ?_ known
        ⟨rfl, fun _ _ => nofun⟩
    intro c call hc
    refine Run.invariant (P := fun c : Client => c.base.torrent = torrent ∧
      ∀ ptr peer, c.connection ptr = some peer → Speaks torrent peer) ?_ call.2.zipIdx hc
    rintro c entry ⟨htorrent, hc⟩
    refine ⟨?_, speaks_addPeer htorrent hc⟩
    rcases c.addPeer_cases (call.1 entry.2) entry.1 with heq | ⟨-, -, heq⟩ <;> rw [heq] <;>
      exact htorrent
  obtain ⟨-, rfl⟩ := Prod.mk.inj hstart
  exact hknown.2 ptr peer hpeer

/-- Every message of a session fits its frame. -/
theorem sendable_session (peer : Wire.PeerState) {asks : List Wire.PeerMessage}
    (hasks : ∀ msg ∈ asks, Downloader.Asked torrent msg) :
    ∀ msg ∈ peer.greeting ++ asks, Wire.Sendable msg := by
  obtain ⟨-, -, hunchoke, hinterested, -, hrequest, hcancel⟩ := Wire.sendable_created
  have hextended : Wire.Sendable .createExtensionHandshake :=
    .message (b := 20) (by decide) (by decide +kernel)
  intro msg hmsg
  rcases List.mem_append.1 hmsg with hmsg | hmsg
  · rw [Wire.PeerState.greeting] at hmsg
    rcases List.mem_cons.1 hmsg with rfl | hmsg
    · exact hinterested
    rcases List.mem_append.1 hmsg with hmsg | hmsg
    · split_ifs at hmsg
      · exact List.mem_singleton.1 hmsg ▸ hextended
      · cases hmsg
    · exact List.mem_singleton.1 hmsg ▸ hunchoke
  · cases hasks msg hmsg with
    | request h => exact hrequest _ _ _
    | cancel h => exact hcancel _ _ _

/-- **What is sent.** Take a torrent within the limits. On a connection that is open when the loop
returns, the client has sent its handshake, the greeting, and then only requests for whole blocks of
the torrent and cancels of these; and whoever reads frames behind the handshake reads just these
messages. -/
theorem sent_bytes (ht : Downloader.Fitting torrent)
    (hstart : ((init torrent savePath options loopOptions world).addKnown known).start sha1 faults
      stopAfter = (true, c))
    {S : (α : Type) → Sorting.Sorter α} {o : Opening} {msg : Wire.PeerMessage} {rs : List Round}
    {complete : Bool} (hloop : c.downloadLoop S o sha1 msg rs = some (complete, c')) {l : Link}
    (hl : l ∈ c'.links) {s : Wire.Socket} (hs : l.connection.socket = some s) :
    ∃ asks, (∀ msg ∈ asks, Downloader.Asked torrent msg) ∧
      s.outgoing = Wire.handshake torrent.infoHash torrent.peerId ++
        ((l.connection.greeting ++ asks).map Wire.PeerMessage.bytes).flatten ∧
      ∀ fuel, (Wire.reader fuel).frames (s.outgoing.drop 68) =
        (l.connection.greeting ++ asks).map Wire.PeerMessage.frame := by
  have hleads := downloadLoop_leads (clocked_true o rs) hloop
  have hlaunched := launched_start ht hstart
  have hplaced := (hleads.refines hlaunched.placed).1
  have hspeaks := hlaunched.speaks ht (speaks_start hstart) hleads l.ptr l.connection
    (hplaced.mem_iff.1 hl)
  obtain ⟨asks, hasks, hsent⟩ := hspeaks.sent
  have hstream := hsent s hs
  rw [hspeaks.torrent_eq, hspeaks.peerId_eq] at hstream
  refine ⟨asks, hasks, hstream, fun fuel => ?_⟩
  -- behind the 68 bytes of the handshake stands what a sender of the messages emits
  have hlength : (Wire.handshake torrent.infoHash torrent.peerId).length = 68 := by
    simp [Wire.handshake, Wire.protocol, Wire.cstr20, ascii]
  have hframes := Wire.frames_emitted fuel l.connection.toPeerState
    (sendable_session l.connection.toPeerState hasks)
  rw [Wire.emitted_eq] at hframes
  rw [hstream, ← hlength, List.drop_left]
  exact hframes

/-- The connection of the session is still open at its end. -/
theorem sent_bytes_oneBlock : ∃ c', oneEnd oneSession = some (true, c') ∧ ∃ l ∈ c'.links, ∃ s,
    l.connection.socket = some s ∧ ∃ asks,
      (∀ msg ∈ asks, Downloader.Asked Downloader.oneBlockTorrent msg) ∧
      s.outgoing = Wire.handshake Downloader.oneBlockTorrent.infoHash
          Downloader.oneBlockTorrent.peerId ++
        ((l.connection.greeting ++ asks).map Wire.PeerMessage.bytes).flatten ∧
      ∀ fuel, (Wire.reader fuel).frames (s.outgoing.drop 68) =
        (l.connection.greeting ++ asks).map Wire.PeerMessage.frame := by
  have hopen : (oneEnd oneSession).map (fun out =>
      (out.1, out.2.links.any fun l => l.connection.socket.isSome)) = some (true, true) := by
    decide +kernel
  obtain ⟨⟨complete, c'⟩, hloop, hout⟩ := Option.map_eq_some_iff.1 hopen
  obtain ⟨rfl, hany⟩ := Prod.mk.inj hout
  obtain ⟨l, hl, hsome⟩ := List.any_eq_true.1 hany
  obtain ⟨s, hs⟩ := Option.isSome_iff_exists.1 hsome
  exact ⟨c', hloop, l, hl, s, hs, sent_bytes
    ⟨Downloader.startable_oneBlock.accepted, by decide, by decide, by decide⟩
    (Prod.ext oneKnown_start rfl) hloop hl hs⟩

end Client

end Gush
