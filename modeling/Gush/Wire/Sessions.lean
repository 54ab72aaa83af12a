import Gush.Downloader.Requests
import Gush.Lib.Run
import Gush.Wire.Connection

/-!
# Sessions of a connection

A connection object is used for one session after the other. A run is any sequence of calls on one
object, with what the network does during each of them; next to the object, a run keeps the messages
that have been received since the last `connect` that has opened a session.

`connect` resets the bitfield and the support for extensions, but neither the choking flag, nor the
interested flag of the peer, nor the support for PEX. `sessions_fresh` says what holds as long as
these three have their initial values whenever a session is opened.
-/

namespace Gush.Wire

open Bencode
open Downloader (bytesToInt)

/-! ### Runs -/

/-- A call on the object, or bytes that arrive at its socket. -/
inductive Event where
  | connect (net : PeerConnection.Network)
  | disconnect
  | sendChoke (sent : Bool)
  | sendUnchoke (sent : Bool)
  | sendInterested (sent : Bool)
  | sendHave (pieceIndex : ℕ) (sent : Bool)
  | sendRequest (piece offset length : ℕ) (sent : Bool)
  | sendCancel (piece offset length : ℕ) (sent : Bool)
  | setAmChoking (choke : Bool)
  | setAmInterested (interested : Bool)
  | takeDiscoveredPeers
  | arrive (bytes : Bytes)
  | receiveMessage (fuel : ℕ) (msg : PeerMessage)
  | receiveMessageNonBlocking (fuel : ℕ) (msg : PeerMessage)

/-- An object and the messages that it has received in its last session; `none` before the first
one. -/
structure History where
  connection : PeerConnection
  session : Option (List PeerMessage) := none

namespace History

variable (h : History)

/-- `connect` opens a session: the object is not connected, and the result is true. -/
def opens (net : PeerConnection.Network) : Bool :=
  !h.connection.isConnected && (h.connection.connect net).1

/-- What a receiving function leaves behind. -/
def received (out : Bool × PeerConnection × PeerMessage) : History where
  connection := out.2.1
  session := if out.1 then h.session.map fun msgs => msgs ++ [out.2.2] else h.session

/-- One call; `none` if it does not return. -/
def call : Event → Option History
  | .connect net => some {
      connection := (h.connection.connect net).2
      session := if h.opens net then some [] else h.session }
  | .disconnect => some { h with connection := h.connection.disconnect }
  | .sendChoke sent => some { h with connection := (h.connection.sendChoke sent).2 }
  | .sendUnchoke sent => some { h with connection := (h.connection.sendUnchoke sent).2 }
  | .sendInterested sent => some { h with connection := (h.connection.sendInterested sent).2 }
  | .sendHave i sent => some { h with connection := (h.connection.sendHave i sent).2 }
  | .sendRequest p o l sent => some { h with connection := (h.connection.sendRequest p o l sent).2 }
  | .sendCancel p o l sent => some { h with connection := (h.connection.sendCancel p o l sent).2 }
  | .setAmChoking choke => some { h with connection := { h.connection with amChoking := choke } }
  | .setAmInterested interested =>
    some { h with connection := { h.connection with amInterested := interested } }
  | .takeDiscoveredPeers => some { h with connection := h.connection.takeDiscoveredPeers.2 }
  | .arrive bytes => some { h with connection := h.connection.arrive bytes }
  | .receiveMessage fuel msg => (h.connection.receiveMessage fuel msg).map h.received
  | .receiveMessageNonBlocking fuel msg =>
    (h.connection.receiveMessageNonBlocking fuel msg).map h.received

end History

/-- A step of a run, which ends with a call that does not return. -/
def step (h : Option History) (e : Event) : Option History := h.bind fun h => h.call e

/-- The constructor of `PeerConnection`. -/
def History.init (ip : Bytes) (port : UInt16) (torrent : TorrentInfo) (peerId : Bytes) : History where
  connection := { ip, port, torrent, peerId }

/-! ### What a fresh session looks like -/

/-- The connection as the downloader sees it. -/
def PeerConnection.asPeer (c : PeerConnection) (ptr : ℕ) : Gush.PeerConnection where
  ptr
  connected := c.isConnected
  peerChoking := c.peerChoking
  bitfield := c.bitfield

/-- An extended handshake that gives `ut_pex` an identifier. -/
def NegotiatesPex (msg : PeerMessage) : Prop :=
  msg.id = .extended ∧ ∃ encoded value p mapping id, msg.payload = 0 :: encoded ∧
    Parses encoded 0 (.ok (.dict value, p)) ∧ dictGet value (ascii "m") = some (.dict mapping) ∧
    dictGetInt mapping (ascii "ut_pex") = some id ∧ 0 < id ∧ id ≤ 255

/-- What a session must not inherit: until the peer has sent an unchoke message, it counts as
choking, so that it is asked for no block; until it has sent an interested message, it does not count
as interested; and until `ut_pex` is negotiated, PEX messages change nothing. -/
structure History.Fresh (h : History) : Prop where
  choking : ∀ msgs, h.session = some msgs → (∀ msg ∈ msgs, msg.id ≠ .unchoke) →
    h.connection.peerChoking = true ∧
      ∀ (d : Downloader) ptr sends now, d.findPeer ptr = some (h.connection.asPeer ptr) →
        d.requestBlocksFromPeer ptr sends now = d
  interested : ∀ msgs, h.session = some msgs → (∀ msg ∈ msgs, msg.id ≠ .interested) →
    h.connection.peerInterested = false
  pex : ∀ msgs, h.session = some msgs → (∀ msg ∈ msgs, ¬ NegotiatesPex msg) →
    ∀ fuel encoded state,
      h.connection.processExtendedMessage fuel (1 :: encoded) = some state →
        state = h.connection.toPeerState

/-- The three flags that a connection keeps when a session ends have their initial values. -/
structure PeerState.Initial (c : PeerState) : Prop where
  choking : c.peerChoking = true
  interested : c.peerInterested = false
  pex : c.peerSupportsPex = false

/-- What the network has to do for a session to open: there is a connection, an acceptable handshake
arrives, and everything is sent. -/
structure PeerConnection.Network.Opens (net : PeerConnection.Network) (c : PeerState) : Prop where
  opens : net.opens = true
  handshake : net.sendsHandshake = true
  length : 68 ≤ net.incoming.length
  accepted : handshakeAccepted c.torrent.infoHash (net.incoming.take 68) = true
  interested : net.sendsInterested = true
  extensions : (net.incoming.take 68).getD 25 0 &&& 0x10 ≠ 0 → net.sendsExtensions = true

/-- Sessions are only opened while the flags have their initial values. -/
def Reset (h : Option History) (e : Event) : Prop :=
  ∀ h' net, h = some h' → e = .connect net → h'.connection.isConnected = false →
    net.Opens h'.connection.toPeerState → h'.connection.toPeerState.Initial

/-! ### Sending and connecting -/

namespace PeerState

/-- The three flags are the same. -/
structure SameFlags (c c' : PeerState) : Prop where
  choking : c'.peerChoking = c.peerChoking
  interested : c'.peerInterested = c.peerInterested
  pex : c'.peerSupportsPex = c.peerSupportsPex

variable {c c' : PeerState}

theorem SameFlags.refl (c : PeerState) : SameFlags c c := ⟨rfl, rfl, rfl⟩

end PeerState

namespace PeerConnection

variable (c : PeerConnection)

theorem sendMessage_state (msg : PeerMessage) (sent : Bool) :
    (c.sendMessage msg sent).2.toPeerState = c.toPeerState := by
  unfold sendMessage
  split
  · rfl
  · split_ifs <;> rfl

theorem sendMessage_flags {c : PeerState} {c' : PeerConnection} (h : c.SameFlags c'.toPeerState)
    (msg : PeerMessage) (sent : Bool) :
    c.SameFlags (c'.sendMessage msg sent).2.toPeerState := by
  rw [sendMessage_state]
  exact h

/-- With a socket, sending succeeds if `sendAll` does, and then the socket stays. -/
theorem sendMessage_sent {s : Socket} (h : c.socket = some s) (msg : PeerMessage) (sent : Bool) :
    (c.sendMessage msg sent).1 = sent ∧
      (sent = true → ∃ s', (c.sendMessage msg sent).2.socket = some s') := by
  unfold sendMessage
  rw [h]
  cases sent with
  | false => exact ⟨rfl, nofun⟩
  | true => exact ⟨rfl, fun _ => ⟨_, rfl⟩⟩

theorem sendInterested_state (sent : Bool) :
    (c.sendInterested sent).2.toPeerState = { c.toPeerState with amInterested := true } :=
  sendMessage_state { c with amInterested := true } _ _

theorem sendExtensionHandshake_state (sent : Bool) :
    (c.sendExtensionHandshake sent).2.toPeerState = c.toPeerState := sendMessage_state c _ _

/-- The greeting only sends. -/
theorem greet_state (net : Network) :
    (c.greet net).2.toPeerState = { c.toPeerState with amInterested := true } := by
  have hstate := c.sendInterested_state net.sendsInterested
  rw [greet]
  rcases hout : c.sendInterested net.sendsInterested with ⟨ok, c'⟩
  rw [hout] at hstate
  cases ok with
  | false => exact hstate
  | true =>
    dsimp only
    split_ifs
    · exact (c'.sendExtensionHandshake_state net.sendsExtensions).trans hstate
    · exact hstate

/-- What the greeting changes, and what it takes. -/
theorem greet_spec {s : Socket} (h : c.socket = some s) (net : Network) :
    c.SameFlags (c.greet net).2.toPeerState ∧ ((c.greet net).1 = true →
      net.sendsInterested = true ∧
        (c.peerSupportsExtensions = true → net.sendsExtensions = true)) := by
  have hstate := c.sendInterested_state net.sendsInterested
  obtain ⟨hsent, hsocket⟩ : (c.sendInterested net.sendsInterested).1 = net.sendsInterested ∧
      (net.sendsInterested = true →
        ∃ s', (c.sendInterested net.sendsInterested).2.socket = some s') :=
    sendMessage_sent { c with amInterested := true } h _ _
  rw [greet]
  rcases hout : c.sendInterested net.sendsInterested with ⟨ok, c'⟩
  rw [hout] at hstate hsent hsocket
  replace hstate : c'.toPeerState = { c.toPeerState with amInterested := true } := hstate
  have hflags : c.SameFlags c'.toPeerState := by
    rw [hstate]
    exact ⟨rfl, rfl, rfl⟩
  have hsupports : c'.peerSupportsExtensions = c.peerSupportsExtensions := by
    rw [hstate]
  cases ok with
  | false => exact ⟨hflags, nofun⟩
  | true =>
    obtain ⟨s', hs'⟩ := hsocket hsent.symm
    dsimp only
    rw [hsupports]
    split_ifs with hext
    · have hstate' := c'.sendExtensionHandshake_state net.sendsExtensions
      have hsent' : (c'.sendExtensionHandshake net.sendsExtensions).1 = net.sendsExtensions :=
        (sendMessage_sent c' hs' _ _).1
      rw [hstate']
      exact ⟨hflags, fun h => ⟨hsent.symm, fun _ => hsent'.symm.trans h⟩⟩
    · exact ⟨hflags, fun _ => ⟨hsent.symm, fun h => absurd h hext⟩⟩

theorem performHandshake_spec (net : Network) :
    c.SameFlags (c.performHandshake { incoming := net.incoming } net).2.toPeerState ∧
      (net.opens = true → (c.performHandshake { incoming := net.incoming } net).1 = true →
        net.Opens c.toPeerState) := by
  unfold performHandshake
  split_ifs with hsend
  · dsimp only [Socket.recvAll]
    split_ifs with hlen
    · dsimp only
      split_ifs with haccepted
      · obtain ⟨hflags, hgreet⟩ := greet_spec { c with
          socket := some { incoming := net.incoming.drop 68,
                           outgoing := [] ++ handshake c.torrent.infoHash c.peerId }
          peerSupportsExtensions := (net.incoming.take 68).getD 25 0 &&& 0x10 ≠ 0
          bitfield := List.replicate c.torrent.numPieces false } rfl net
        refine ⟨⟨hflags.choking, hflags.interested, hflags.pex⟩, fun hopens htrue => ?_⟩
        obtain ⟨hinterested, hextensions⟩ := hgreet htrue
        exact {
          opens := hopens
          handshake := hsend
          length := hlen
          accepted := haccepted
          interested := hinterested
          extensions := fun h => hextensions (decide_eq_true h) }
      · exact ⟨⟨rfl, rfl, rfl⟩, fun _ => nofun⟩
    · exact ⟨⟨rfl, rfl, rfl⟩, fun _ => nofun⟩
  · exact ⟨⟨rfl, rfl, rfl⟩, fun _ => nofun⟩

/-- `connect` touches none of the flags; and it opens a session only if the network does its part. -/
theorem connect_spec (net : Network) :
    c.SameFlags (c.connect net).2.toPeerState ∧
      (c.isConnected = false → (c.connect net).1 = true → net.Opens c.toPeerState) := by
  rw [connect]
  split_ifs with hconnected hopens
  · rw [hconnected]
    exact ⟨.refl _, nofun⟩
  · obtain ⟨hflags, htrue⟩ := c.performHandshake_spec net
    rcases hout : c.performHandshake { incoming := net.incoming } net with ⟨ok, c'⟩
    rw [hout] at hflags htrue
    cases ok with
    | false => exact ⟨hflags, fun _ => nofun⟩
    | true => exact ⟨hflags, fun _ _ => htrue hopens rfl⟩
  · exact ⟨⟨rfl, rfl, rfl⟩, fun _ => nofun⟩

/-! ### Receiving -/

/-- What a receiving function does to the state of the peer: nothing if it returns false, and
otherwise what the message says. -/
def Hears (c : PeerConnection) (out : Bool × PeerConnection × PeerMessage) : Prop :=
  (out.1 = false ∧ out.2.1.toPeerState = c.toPeerState) ∨
    (out.1 = true ∧ ∃ fuel, c.update fuel out.2.2 = some out.2.1.toPeerState)

theorem receiveBody_hears {fuel : ℕ} {s : Socket} {msg : PeerMessage}
    {out : Bool × PeerConnection × PeerMessage} (h : c.receiveBody fuel s msg = some out) :
    c.Hears out := by
  unfold receiveBody at h
  split_ifs at h with hlen
  · cases h
    exact .inr ⟨rfl, fuel, rfl⟩
  · rcases hid : s.recvAll 1 with ⟨- | idBuf, s'⟩ <;> rw [hid] at h
    · cases h
      exact .inl ⟨rfl, rfl⟩
    · dsimp only at h
      split_ifs at h with hlong
      · rcases hpayload : s'.recvAll (msg.length - 1) with ⟨- | payload, s''⟩ <;>
          rw [hpayload] at h
        · cases h
          exact .inl ⟨rfl, rfl⟩
        · obtain ⟨state, hstate, rfl⟩ := Option.map_eq_some_iff.1 h
          exact .inr ⟨rfl, fuel, hstate⟩
      · obtain ⟨state, hstate, rfl⟩ := Option.map_eq_some_iff.1 h
        exact .inr ⟨rfl, fuel, hstate⟩

theorem receiveMessage_hears {fuel : ℕ} {msg : PeerMessage}
    {out : Bool × PeerConnection × PeerMessage} (h : c.receiveMessage fuel msg = some out) :
    c.Hears out := by
  unfold receiveMessage at h
  cases hsocket : c.socket with
  | none =>
    rw [hsocket] at h
    cases h
    exact .inl ⟨rfl, rfl⟩
  | some s =>
    rw [hsocket] at h
    dsimp only at h
    rcases hlength : s.recvAll 4 with ⟨- | lengthBuf, s'⟩ <;> rw [hlength] at h
    · cases h
      exact .inl ⟨rfl, rfl⟩
    · dsimp only at h
      split_ifs at h with hlarge
      · cases h
        exact .inl ⟨rfl, rfl⟩
      · exact receiveBody_hears c h

theorem receiveMessageNonBlocking_hears {fuel : ℕ} {msg : PeerMessage}
    {out : Bool × PeerConnection × PeerMessage}
    (h : c.receiveMessageNonBlocking fuel msg = some out) : c.Hears out := by
  unfold receiveMessageNonBlocking at h
  cases hsocket : c.socket with
  | none =>
    rw [hsocket] at h
    cases h
    exact .inl ⟨rfl, rfl⟩
  | some s =>
    rw [hsocket] at h
    dsimp only at h
    split_ifs at h with hshort hlarge hcut
    · cases h
      exact .inl ⟨rfl, rfl⟩
    · cases h
      exact .inl ⟨rfl, rfl⟩
    · cases h
      exact .inl ⟨rfl, rfl⟩
    · rcases hlength : s.recvAll 4 with ⟨- | lengthBuf, s'⟩ <;> rw [hlength] at h
      · cases h
        exact .inl ⟨rfl, rfl⟩
      · exact receiveBody_hears c h

end PeerConnection

namespace PeerState

variable {c c' : PeerState}

/-- What an extended message does: nothing, unless its payload is a dictionary. -/
theorem process_cases {fuel : ℕ} {payload : Bytes}
    (h : c.processExtendedMessage fuel payload = some c') :
    c' = c ∨ ∃ extensionId encoded value p, payload = extensionId :: encoded ∧
      Parses encoded 0 (.ok (.dict value, p)) ∧ c' = c.processExtension extensionId value := by
  match payload with
  | [] => exact .inl (Option.some.inj h).symm
  | [_] => exact .inl (Option.some.inj h).symm
  | extensionId :: b :: encoded =>
    rw [processExtendedMessage] at h
    rcases hparse : parseImpl fuel (b :: encoded) 0 with - | e | ⟨_ | _ | _ | value, p⟩ <;>
      rw [hparse] at h
    · cases h
    · exact .inl (Option.some.inj h).symm
    · exact .inl (Option.some.inj h).symm
    · exact .inl (Option.some.inj h).symm
    · exact .inl (Option.some.inj h).symm
    · exact .inr ⟨extensionId, b :: encoded, value, p, rfl, ⟨fuel, hparse⟩,
        (Option.some.inj h).symm⟩

/-- What a handshake and a PEX message do to the flags. -/
theorem processExtension_flags (extensionId : UInt8) (value : BencodeDict) :
    c.SameFlags (c.processExtension extensionId value) ∨
      extensionId = 0 ∧ ∃ mapping, dictGet value (ascii "m") = some (.dict mapping) ∧
        (c.processExtension extensionId value).peerChoking = c.peerChoking ∧
        (c.processExtension extensionId value).peerInterested = c.peerInterested ∧
        ((c.processExtension extensionId value).peerSupportsPex = true →
          ∃ id, dictGetInt mapping (ascii "ut_pex") = some id ∧ 0 < id ∧ id ≤ 255) := by
  unfold processExtension
  split_ifs with hzero hignored
  · rcases hm : dictGet value (ascii "m") with - | _ | _ | _ | mapping
    · exact .inl (.refl c)
    · exact .inl (.refl c)
    · exact .inl (.refl c)
    · exact .inl (.refl c)
    · refine .inr ⟨hzero, mapping, rfl, rfl, rfl, fun htrue => ?_⟩
      dsimp only at htrue
      cases hid : dictGetInt mapping (ascii "ut_pex") with
      | none =>
        rw [hid] at htrue
        cases htrue
      | some id =>
        rw [hid] at htrue
        exact ⟨id, rfl, of_decide_eq_true htrue⟩
  · exact .inl (.refl c)
  · rcases dictGetString value (ascii "added") with - | compact
    · exact .inl (.refl c)
    · exact .inl ⟨rfl, rfl, rfl⟩

/-- What a message can do to the flags. -/
structure FlagChange (msg : PeerMessage) (c c' : PeerState) : Prop where
  choking : msg.id ≠ .unchoke → c.peerChoking = true → c'.peerChoking = true
  interested : msg.id ≠ .interested → c.peerInterested = false → c'.peerInterested = false
  pex : ¬ NegotiatesPex msg → c.peerSupportsPex = false → c'.peerSupportsPex = false

theorem SameFlags.flagChange (h : c.SameFlags c') (msg : PeerMessage) : FlagChange msg c c' where
  choking _ hc := h.choking.trans hc
  interested _ hc := h.interested.trans hc
  pex _ hc := h.pex.trans hc

theorem update_flags {fuel : ℕ} {msg : PeerMessage} (h : c.update fuel msg = some c') :
    FlagChange msg c c' := by
  obtain ⟨⟨id, payload⟩, length⟩ := msg
  cases id with
  | choke =>
    cases h
    exact ⟨fun _ _ => rfl, fun _ hc => hc, fun _ hc => hc⟩
  | unchoke =>
    cases h
    exact ⟨fun hne => absurd rfl hne, fun _ hc => hc, fun _ hc => hc⟩
  | interested =>
    cases h
    exact ⟨fun _ hc => hc, fun hne => absurd rfl hne, fun _ hc => hc⟩
  | notInterested =>
    cases h
    exact ⟨fun _ hc => hc, fun _ _ => rfl, fun _ hc => hc⟩
  | havePiece =>
    have hc' : c.setHave payload = c' := Option.some.inj h
    unfold setHave at hc'
    refine SameFlags.flagChange ?_ _
    split_ifs at hc' <;> subst hc' <;> exact ⟨rfl, rfl, rfl⟩
  | extended =>
    rcases process_cases h with rfl | ⟨extensionId, encoded, value, p, rfl, hparse, rfl⟩
    · exact (SameFlags.refl _).flagChange _
    rcases processExtension_flags extensionId value with
      hsame | ⟨rfl, mapping, hm, hchoking, hinterested, hid⟩
    · exact hsame.flagChange _
    · refine ⟨fun _ hc => hchoking.trans hc, fun _ hc => hinterested.trans hc, fun hnot _ => ?_⟩
      by_contra htrue
      obtain ⟨id, hget, hpos, hle⟩ := hid (Bool.eq_true_of_not_eq_false htrue)
      exact hnot ⟨rfl, encoded, value, p, mapping, id, rfl, hparse, hm, hget, hpos, hle⟩
  | _ =>
    cases h
    refine SameFlags.flagChange ?_ _
    exact ⟨rfl, rfl, rfl⟩

/-- Without the support for PEX, a PEX message changes nothing. -/
theorem process_pex {fuel : ℕ} {encoded : Bytes} (hpex : c.peerSupportsPex = false)
    (h : c.processExtendedMessage fuel (1 :: encoded) = some c') : c' = c := by
  rcases process_cases h with rfl | ⟨extensionId, encoded', value, p, hpayload, -, rfl⟩
  · rfl
  · obtain ⟨rfl, -⟩ := List.cons.inj hpayload
    rw [processExtension, if_neg (by decide), if_pos (.inr hpex)]

end PeerState

/-! ### Fresh sessions -/

/-- The invariant behind `Fresh`: as long as the messages that change them have not come, the flags
have their initial values. -/
structure History.Inv (h : History) : Prop where
  choking : ∀ msgs, h.session = some msgs → (∀ msg ∈ msgs, msg.id ≠ .unchoke) →
    h.connection.peerChoking = true
  interested : ∀ msgs, h.session = some msgs → (∀ msg ∈ msgs, msg.id ≠ .interested) →
    h.connection.peerInterested = false
  pex : ∀ msgs, h.session = some msgs → (∀ msg ∈ msgs, ¬ NegotiatesPex msg) →
    h.connection.peerSupportsPex = false

namespace History

variable {h : History}

/-- A call that touches none of the flags and receives nothing. -/
theorem Inv.of_sameFlags {c : PeerConnection} (hinv : h.Inv)
    (hc : h.connection.SameFlags c.toPeerState) : Inv { h with connection := c } where
  choking msgs hs hm := hc.choking.trans (hinv.choking msgs hs hm)
  interested msgs hs hm := hc.interested.trans (hinv.interested msgs hs hm)
  pex msgs hs hm := hc.pex.trans (hinv.pex msgs hs hm)

theorem sameFlags_of_eq {c c' : PeerState} (h : c' = c) : c.SameFlags c' := h ▸ .refl c

/-- What holds of the state until a certain message comes, still holds behind another message. -/
theorem kept_until {trigger : PeerMessage → Prop} {flag : PeerState → Prop} {c : PeerConnection}
    {msg : PeerMessage}
    (hkept : ∀ msgs, h.session = some msgs → (∀ m ∈ msgs, ¬ trigger m) →
      flag h.connection.toPeerState)
    (hchange : ¬ trigger msg → flag h.connection.toPeerState → flag c.toPeerState) :
    ∀ msgs, (h.received (true, c, msg)).session = some msgs → (∀ m ∈ msgs, ¬ trigger m) →
      flag c.toPeerState := by
  intro msgs hs hm
  obtain ⟨msgs', hs', rfl⟩ := Option.map_eq_some_iff.1 hs
  have hmsg : ¬ trigger msg := hm msg (List.mem_append_right _ (List.mem_singleton_self msg))
  exact hchange hmsg (hkept msgs' hs' fun m hm' => hm m (List.mem_append_left _ hm'))

/-- A call of a receiving function. -/
theorem Inv.received {out : Bool × PeerConnection × PeerMessage} (hinv : h.Inv)
    (hears : h.connection.Hears out) : (h.received out).Inv := by
  obtain ⟨ok, c, msg⟩ := out
  rcases hears with ⟨rfl, hc⟩ | ⟨rfl, fuel, hupdate⟩
  · exact hinv.of_sameFlags (sameFlags_of_eq hc)
  · have hchange := PeerState.update_flags hupdate
    exact {
      choking := @kept_until h (·.id = .unchoke) (·.peerChoking = true) c msg hinv.choking
        hchange.choking
      interested := @kept_until h (·.id = .interested) (·.peerInterested = false) c msg
        hinv.interested hchange.interested
      pex := @kept_until h NegotiatesPex (·.peerSupportsPex = false) c msg hinv.pex hchange.pex }

/-- A `connect`; a session that it opens starts with the flags as they are. -/
theorem Inv.connect (hinv : h.Inv) (net : PeerConnection.Network)
    (hreset : h.connection.isConnected = false → net.Opens h.connection.toPeerState →
      h.connection.toPeerState.Initial) :
    Inv { connection := (h.connection.connect net).2
          session := if h.opens net then some [] else h.session } := by
  obtain ⟨hflags, hopens⟩ := h.connection.connect_spec net
  by_cases hnew : h.opens net = true
  · obtain ⟨hconnected, htrue⟩ := (Bool.and_eq_true _ _).mp hnew
    have hdisconnected : h.connection.isConnected = false := by simpa using hconnected
    have hinitial := hreset hdisconnected (hopens hdisconnected htrue)
    exact {
      choking := fun _ _ _ => hflags.choking.trans hinitial.choking
      interested := fun _ _ _ => hflags.interested.trans hinitial.interested
      pex := fun _ _ _ => hflags.pex.trans hinitial.pex }
  · rw [if_neg hnew]
    exact hinv.of_sameFlags hflags

/-- What a call keeps. -/
theorem Inv.call {h' : History} {e : Event} (hinv : h.Inv) (hreset : Reset (some h) e)
    (hcall : h.call e = some h') : h'.Inv := by
  cases e with
  | connect net =>
    cases hcall
    exact hinv.connect net fun hconnected hopens => hreset h net rfl rfl hconnected hopens
  | receiveMessage fuel msg =>
    obtain ⟨out, hout, rfl⟩ := Option.map_eq_some_iff.1 hcall
    exact hinv.received (h.connection.receiveMessage_hears hout)
  | receiveMessageNonBlocking fuel msg =>
    obtain ⟨out, hout, rfl⟩ := Option.map_eq_some_iff.1 hcall
    exact hinv.received (h.connection.receiveMessageNonBlocking_hears hout)
  | disconnect => cases hcall; exact hinv.of_sameFlags (.refl _)
  | setAmChoking choke => cases hcall; exact hinv.of_sameFlags ⟨rfl, rfl, rfl⟩
  | setAmInterested interested => cases hcall; exact hinv.of_sameFlags ⟨rfl, rfl, rfl⟩
  | takeDiscoveredPeers => cases hcall; exact hinv.of_sameFlags ⟨rfl, rfl, rfl⟩
  | arrive bytes => cases hcall; exact hinv.of_sameFlags (.refl _)
  -- sending changes at most what the client says of itself
  | sendHave i sent =>
    cases hcall
    exact hinv.of_sameFlags (PeerConnection.sendMessage_flags (.refl _) _ _)
  | sendRequest p o l sent =>
    cases hcall
    exact hinv.of_sameFlags (PeerConnection.sendMessage_flags (.refl _) _ _)
  | sendCancel p o l sent =>
    cases hcall
    exact hinv.of_sameFlags (PeerConnection.sendMessage_flags (.refl _) _ _)
  | sendChoke sent =>
    cases hcall
    refine hinv.of_sameFlags (PeerConnection.sendMessage_flags ?_ _ _)
    exact ⟨rfl, rfl, rfl⟩
  | sendUnchoke sent =>
    cases hcall
    refine hinv.of_sameFlags (PeerConnection.sendMessage_flags ?_ _ _)
    exact ⟨rfl, rfl, rfl⟩
  | sendInterested sent =>
    cases hcall
    refine hinv.of_sameFlags (PeerConnection.sendMessage_flags ?_ _ _)
    exact ⟨rfl, rfl, rfl⟩

/-- The downloader asks a choking peer for nothing. -/
theorem requestBlocks_choking (d : Downloader) {ptr : ℕ} {peer : Gush.PeerConnection}
    (hfind : d.findPeer ptr = some peer) (hchoking : peer.peerChoking = true) (sends : List Bool)
    (now : ℤ) : d.requestBlocksFromPeer ptr sends now = d := by
  have htarget : d.requestTarget ptr = none := by
    rw [Downloader.requestTarget, hfind]
    simp [hchoking]
  rw [Downloader.requestBlocksFromPeer, htarget]

theorem Inv.fresh (hinv : h.Inv) : h.Fresh where
  choking msgs hs hm := by
    have hchoking := hinv.choking msgs hs hm
    exact ⟨hchoking, fun d ptr sends now hfind => requestBlocks_choking d hfind hchoking sends now⟩
  interested := hinv.interested
  pex msgs hs hm _ _ _ h := PeerState.process_pex (hinv.pex msgs hs hm) h

end History

/-- **Sessions that start afresh**: in every run of one connection object in which the flags have
their initial values whenever a session is opened, no session inherits anything from the one before
it, in any state that is reached. -/
theorem sessions_fresh (ip : Bytes) (port : UInt16) (torrent : TorrentInfo) (peerId : Bytes)
    (events : List Event)
    (hreset : Run.Along step Reset (some (.init ip port torrent peerId)) events) {h : History}
    (hrun : events.foldl step (some (.init ip port torrent peerId)) = some h) : h.Fresh := by
  have hkeeps : ∀ (h h' : History) (e : Event), h.Inv → Reset (some h) e → h.call e = some h' →
      h'.Inv := fun h h' e hinv hguard hcall => hinv.call hguard hcall
  have hinit : (History.init ip port torrent peerId).Inv := ⟨nofun, nofun, nofun⟩
  exact (hreset.invariant_bind (fun s e => rfl) hkeeps hinit hrun).fresh

/-- What the network does for a peer that answers the handshake of an empty torrent. -/
def answering : PeerConnection.Network where
  incoming := handshake [] []

/-- A session in which the peer unchokes the client. -/
def unchokedSession : List Event :=
  [.connect answering, .arrive PeerMessage.createUnchoke.bytes,
    .receiveMessageNonBlocking 0 .createKeepAlive]

/-- `sessions_fresh` for one session. -/
theorem sessions_fresh_unchoked :
    ∃ h, unchokedSession.foldl step (some (.init [] 0 {} [])) = some h ∧ h.Fresh := by
  refine ⟨_, rfl, sessions_fresh [] 0 {} [] unchokedSession ⟨?_, ?_, ?_, trivial⟩ rfl⟩
  · rintro h net hh - - -
    cases hh
    exact ⟨rfl, rfl, rfl⟩
  · exact fun _ _ _ => nofun
  · exact fun _ _ _ => nofun

/-! ### A second session -/

/-- A connection that has been unchoked counts as unchoked in the next session too. -/
theorem not_forall_fresh :
    ¬ ∀ (ip : Bytes) (port : UInt16) (torrent : TorrentInfo) (peerId : Bytes) (events : List Event)
      (h : History), events.foldl step (some (.init ip port torrent peerId)) = some h → h.Fresh := by
  intro hall
  have hrun : ∃ h, (unchokedSession ++ [Event.disconnect, Event.connect answering]).foldl step
      (some (.init [] 0 {} [])) = some h ∧ h.session = some [] ∧
        h.connection.peerChoking = false := by
    refine ⟨_, rfl, ?_, ?_⟩ <;> rfl
  obtain ⟨h, hh, hsession, hunchoked⟩ := hrun
  obtain ⟨hchoking, -⟩ := (hall _ _ _ _ _ h hh).choking [] hsession nofun
  rw [hunchoked] at hchoking
  cases hchoking

end Gush.Wire
