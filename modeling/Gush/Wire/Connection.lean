import Gush.Bencode.Parse
import Gush.Tracker.Udp
import Gush.Wire.Message

/-!
# Connections to peers

`PeerConnection` with its socket. A socket is the queue of the bytes that have arrived and the bytes
that have been sent; `connected_` and `socket_` change together, so the connection is connected if
it has a socket. What the network does (whether a connection comes about, what arrives, whether a
send succeeds) is an argument of the functions.

An extended payload is parsed as bencode, so receiving takes fuel: `none` means that the parse has
not come to its end.
-/

namespace Gush.Wire

open Bencode
open Downloader (bytesToInt)

/-- A connected stream socket: what has arrived and is not read yet, and what has been sent. The queue
of the kernel has no limit here, so `FIONREAD` counts all that has arrived. -/
structure Socket where
  incoming : Bytes := []
  outgoing : Bytes := []

/-- `PeerConnection` without its socket. -/
structure PeerState where
  ip : Bytes
  port : UInt16
  torrent : TorrentInfo
  peerId : Bytes
  amChoking : Bool := true
  amInterested : Bool := false
  peerChoking : Bool := true
  peerInterested : Bool := false
  peerSupportsExtensions : Bool := false
  peerSupportsPex : Bool := false
  bitfield : List Bool := []
  discoveredPeers : List Peer := []

/-- `PeerConnection`. -/
structure PeerConnection extends PeerState where
  socket : Option Socket := none

/-! ### Messages and the state -/

namespace PeerState

/-- `MAX_PEX_PEERS_PER_MESSAGE`. -/
def maxPexPeersPerMessage : ℕ := 200

variable (c : PeerState)

/-- The body of the loop over the peers of a PEX message. Once there are enough peers, the loop is
left. -/
def discover (discoveredPeers : List Peer) (peer : Peer) : List Peer :=
  if discoveredPeers.length ≥ maxPexPeersPerMessage then discoveredPeers
  else if peer.port = 0 ∨ (peer.ip = c.ip ∧ peer.port = c.port) then discoveredPeers
  else if discoveredPeers.any fun existing => existing.ip = peer.ip ∧ existing.port = peer.port then
    discoveredPeers
  else discoveredPeers ++ [peer]

/-- What an extended message does whose payload is a dictionary. -/
def processExtension (extensionId : UInt8) (value : BencodeDict) : PeerState :=
  if extensionId = 0 then
    match dictGet value (ascii "m") with
    | some (.dict mapping) =>
      { c with peerSupportsPex := match dictGetInt mapping (ascii "ut_pex") with
          | some id => 0 < id ∧ id ≤ 255
          | none => false }
    | _ => c
  else if extensionId ≠ 1 ∨ c.peerSupportsPex = false then c
  else
    match dictGetString value (ascii "added") with
    | none => c
    | some compact => { c with discoveredPeers :=
        (Tracker.parseCompactPeers compact).foldl c.discover c.discoveredPeers }

/-- `processExtendedMessage`; malformed data are ignored. -/
def processExtendedMessage (fuel : ℕ) (payload : Bytes) : Option PeerState :=
  match payload with
  | extensionId :: b :: encoded =>
    match parseImpl fuel (b :: encoded) 0 with
    | none => none
    | some (.ok (.dict value, _)) => some (c.processExtension extensionId value)
    | some _ => some c
  | _ => some c

/-- The inner loop of `updateBitfield`: the bits of a byte, from the highest one on. -/
def setBits (bitfield : List Bool) (entry : UInt8 × ℕ) : List Bool :=
  (List.range 8).foldl (fun bitfield j =>
    if entry.2 * 8 + j < bitfield.length ∧ entry.1 &&& (0x80 >>> UInt8.ofNat j) ≠ 0 then
      bitfield.set (entry.2 * 8 + j) true
    else bitfield) bitfield

def updateBitfield (data : Bytes) : PeerState :=
  { c with bitfield := data.zipIdx.foldl setBits (List.replicate c.torrent.numPieces false) }

/-- The case `MessageId::Have`. -/
def setHave (payload : Bytes) : PeerState :=
  if payload.length ≥ 4 then { c with bitfield := c.bitfield.set (bytesToInt payload) true } else c

/-- "Update state based on message". -/
def update (fuel : ℕ) (msg : PeerMessage) : Option PeerState :=
  match msg.id with
  | .choke => some { c with peerChoking := true }
  | .unchoke => some { c with peerChoking := false }
  | .interested => some { c with peerInterested := true }
  | .notInterested => some { c with peerInterested := false }
  | .havePiece => some (c.setHave msg.payload)
  | .bitfield => some (c.updateBitfield msg.payload)
  | .extended => c.processExtendedMessage fuel msg.payload
  | _ => some c

end PeerState

/-- `recvAll`. If the queue does not hold enough, all of it is consumed. -/
def Socket.recvAll (s : Socket) (size : ℕ) : Option Bytes × Socket :=
  if size ≤ s.incoming.length then
    (some (s.incoming.take size), { s with incoming := s.incoming.drop size })
  else (none, { s with incoming := [] })

namespace PeerConnection

variable (c : PeerConnection)

def isConnected : Bool := c.socket.isSome

def hasPiece (index : ℕ) : Bool := c.bitfield.getD index false

def disconnect : PeerConnection := { c with socket := none }

/-- `takeDiscoveredPeers`. -/
def takeDiscoveredPeers : List Peer × PeerConnection :=
  (c.discoveredPeers, { c with discoveredPeers := [] })

/-! ### Receiving -/

/-- The payload after a `recvAll` that has failed: what has come overwrites the start. -/
def partialPayload (payload received : Bytes) (size : ℕ) : Bytes :=
  received ++ ((payload ++ List.replicate size 0).take size).drop received.length

/-- What both receiving functions do once they have read a length: they read the identifier and the
payload and update the state. A payload is only read for a length above one. -/
def receiveBody (fuel : ℕ) (s : Socket) (msg : PeerMessage) :
    Option (Bool × PeerConnection × PeerMessage) :=
  if msg.length = 0 then
    some (true, { c with socket := some s }, { msg with id := .keepAlive })
  else
    match s.recvAll 1 with
    | (none, s) => some (false, { c with socket := some s }, msg)
    | (some idBuf, s) =>
      let msg := { msg with id := .ofByte (idBuf.headD 0) }
      if msg.length > 1 then
        match s.recvAll (msg.length - 1) with
        | (none, s') => some (false, { c with socket := some s' },
            { msg with payload := partialPayload msg.payload s.incoming (msg.length - 1) })
        | (some payload, s) =>
          let msg := { msg with payload }
          (c.update fuel msg).map fun state => (true, { state with socket := some s }, msg)
      else (c.update fuel msg).map fun state => (true, { state with socket := some s }, msg)

/-- `receiveMessage`. The queue is all that the peer will ever send. -/
def receiveMessage (fuel : ℕ) (msg : PeerMessage) : Option (Bool × PeerConnection × PeerMessage) :=
  match c.socket with
  | none => some (false, c, msg)
  | some s =>
    match s.recvAll 4 with
    | (none, s) => some (false, { c with socket := some s }, msg)
    | (some lengthBuf, s) =>
      let msg := { msg with length := bytesToInt lengthBuf }
      if msg.length > maxPeerMessageSize then some (false, c.disconnect, msg)
      else c.receiveBody fuel s msg

/-- `receiveMessageNonBlocking`. The queue is what has arrived; a partial frame is only peeked at. -/
def receiveMessageNonBlocking (fuel : ℕ) (msg : PeerMessage) :
    Option (Bool × PeerConnection × PeerMessage) :=
  match c.socket with
  | none => some (false, c, msg)
  | some s =>
    let available := s.incoming.length
    if available < 4 then some (false, c, msg)
    else
      let msg := { msg with length := bytesToInt (s.incoming.take 4) }
      if msg.length > maxPeerMessageSize then some (false, c.disconnect, msg)
      else if available < Cxx.uint32 (4 + msg.length) then some (false, c, msg)
      else
        match s.recvAll 4 with
        | (none, s) => some (false, { c with socket := some s }, msg)
        | (some _, s) => c.receiveBody fuel s msg

/-- Bytes that arrive. Without a socket they are lost. -/
def arrive (bytes : Bytes) : PeerConnection :=
  { c with socket := c.socket.map fun s => { s with incoming := s.incoming ++ bytes } }

/-! ### Sending -/

/-- `sendMessage`; `sent` is the outcome of `sendAll`. -/
def sendMessage (msg : PeerMessage) (sent : Bool) : Bool × PeerConnection :=
  match c.socket with
  | none => (false, c)
  | some s =>
    if sent then (true, { c with socket := some { s with outgoing := s.outgoing ++ msg.bytes } })
    else (false, c.disconnect)

def sendChoke (sent : Bool) : Bool × PeerConnection :=
  { c with amChoking := true }.sendMessage .createChoke sent

def sendUnchoke (sent : Bool) : Bool × PeerConnection :=
  { c with amChoking := false }.sendMessage .createUnchoke sent

def sendInterested (sent : Bool) : Bool × PeerConnection :=
  { c with amInterested := true }.sendMessage .createInterested sent

def sendHave (pieceIndex : ℕ) (sent : Bool) : Bool × PeerConnection :=
  c.sendMessage (.createHave pieceIndex) sent

def sendRequest (piece offset length : ℕ) (sent : Bool) : Bool × PeerConnection :=
  c.sendMessage (.createRequest piece offset length) sent

def sendCancel (piece offset length : ℕ) (sent : Bool) : Bool × PeerConnection :=
  c.sendMessage (.createCancel piece offset length) sent

/-- The dictionary of the extended handshake. -/
def extensionHandshake : BencodeDict :=
  dictInsert (ascii "m") (.dict (dictInsert (ascii "ut_pex") (.int 1) [])) []

def sendExtensionHandshake (sent : Bool) : Bool × PeerConnection :=
  let payload := 0 :: encode (.dict extensionHandshake)
  c.sendMessage { id := .extended, payload, length := 1 + payload.length } sent

/-! ### Connecting -/

/-- What the network does during a `connect`: whether there is a TCP connection, what the peer has
sent when the call returns, and which sends succeed. -/
structure Network where
  opens : Bool := true
  incoming : Bytes := []
  sendsHandshake : Bool := true
  sendsInterested : Bool := true
  sendsExtensions : Bool := true

end PeerConnection

/-- The 20 bytes at `s.c_str()`. What stands behind a shorter string is taken for zero bytes. -/
def cstr20 (s : Bytes) : Bytes := (s ++ List.replicate 20 0).take 20

/-- The protocol string with its length. -/
def protocol : Bytes := 19 :: ascii "BitTorrent protocol"

/-- The handshake: the protocol, the reserved bytes with the bit of the extension protocol, the info
hash and the peer id. -/
def handshake (infoHash peerId : Bytes) : Bytes :=
  protocol ++ [0, 0, 0, 0, 0, 0x10, 0, 0] ++ cstr20 infoHash ++ cstr20 peerId

/-- The checks of a received handshake. -/
def handshakeAccepted (infoHash received : Bytes) : Bool :=
  received.take 20 = protocol ∧ (received.drop 28).take 20 = cstr20 infoHash

namespace PeerConnection

variable (c : PeerConnection)

/-- The end of `performHandshake`: the client is interested, and a peer that supports extensions
gets the extended handshake. -/
def greet (net : Network) : Bool × PeerConnection :=
  match c.sendInterested net.sendsInterested with
  | (false, c) => (false, c)
  | (true, c) =>
    if c.peerSupportsExtensions then c.sendExtensionHandshake net.sendsExtensions else (true, c)

/-- `performHandshake`, on a socket that has just been connected. -/
def performHandshake (s : Socket) (net : Network) : Bool × PeerConnection :=
  if net.sendsHandshake then
    let s := { s with outgoing := s.outgoing ++ handshake c.torrent.infoHash c.peerId }
    match s.recvAll 68 with
    | (none, s) => (false, { c with socket := some s })
    | (some received, s) =>
      if handshakeAccepted c.torrent.infoHash received then
        { c with
          socket := some s
          peerSupportsExtensions := (received.getD 25 0) &&& 0x10 ≠ 0
          bitfield := List.replicate c.torrent.numPieces false }.greet net
      else (false, { c with socket := some s })
  else (false, { c with socket := some s })

/-- `connect`. -/
def connect (net : Network) : Bool × PeerConnection :=
  if c.isConnected then (true, c)
  else if net.opens then
    match c.performHandshake { incoming := net.incoming } net with
    | (true, c) => (true, c)
    | (false, c) => (false, c.disconnect)
  else (false, c.disconnect)

end PeerConnection

end Gush.Wire
