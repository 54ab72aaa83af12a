import Gush.Downloader.Discovery
import Gush.Downloader.PeerOrder
import Gush.Downloader.Verified
import Gush.Tracker.Manager
import Gush.Wire.Sessions

/-!
# The downloader with its connections

`Downloader` as `downloadLoop` sees it: the fields that the model of a download has, with the real
connections in place of what it knows of them, and with the statistics, the rejected peers and the
trackers. The functions here are those that one iteration of the loop calls; what the network, the
clock and the disk do during a call is an argument.

`downloader` and `swarm` are the two views that forget the rest.
-/

namespace Gush

open Cxx FirstMatch Posix Sorting

/-- An element of `peers_`; `ptr` is the address of the connection. -/
structure Link where
  ptr : ℕ
  connection : Wire.PeerConnection

/-- `PeerSpeedStats`. Times are in nanoseconds from the epoch of the clock, speeds are rationals. -/
structure PeerSpeedStats where
  bytesDownloaded : ℤ := 0
  lastUpdateTime : ℤ := 0
  /-- Zero stands for a peer that has never been connected. -/
  connectedAt : ℤ := 0
  avgSpeed : ℚ := 0
  successfulRequests : ℕ := 0
  failedRequests : ℕ := 0

namespace PeerSpeedStats

variable (stats : PeerSpeedStats)

/-- A difference of times, in seconds. -/
def elapsedSeconds (now before : ℤ) : ℤ := (now - before).tdiv (10 ^ 9)

def updateSpeed (bytes : ℤ) (now : ℤ) : PeerSpeedStats :=
  let elapsed := elapsedSeconds now stats.lastUpdateTime
  { stats with
    bytesDownloaded := stats.bytesDownloaded + bytes
    successfulRequests := stats.successfulRequests + 1
    avgSpeed := if elapsed > 0 then (stats.bytesDownloaded + bytes : ℤ) / elapsed
      else stats.avgSpeed }

def fail : PeerSpeedStats := { stats with failedRequests := stats.failedRequests + 1 }

/-- The case `MessageId::Unchoke`. -/
def unchoked (now : ℤ) : PeerSpeedStats :=
  { stats with lastUpdateTime := now, bytesDownloaded := 0 }

/-- The end of a successful connection; the source reads the clock once more for the second time. -/
def connected (now : ℤ) : PeerSpeedStats := { stats with connectedAt := now, lastUpdateTime := now }

/-- The condition under which `pruneBadPeers` evicts a peer. -/
def isBad (now : ℤ) : Bool :=
  stats.failedRequests ≥ 5 ∧ stats.successfulRequests = 0 ∨
    stats.successfulRequests = 0 ∧ stats.connectedAt > 0 ∧ elapsedSeconds now stats.connectedAt > 60

end PeerSpeedStats

/-- The fields of `DownloadOptions` that only the loop reads. -/
structure LoopOptions where
  maxPeers : ℤ := 30
  refreshTrackers : Bool := true

/-- `Downloader`. The list of peers of `base` is not used: `links` is the one of `peers_`. Of
`torrent_` only the list of trackers changes, which is `announceList` here. -/
structure Client where
  base : Downloader
  loopOptions : LoopOptions := {}
  links : List Link := []
  peerSpeedStats : ℕ → PeerSpeedStats := fun _ => {}
  recentlyRejected : Bytes → Option ℤ := fun _ => none
  announceList : List Bytes := []
  trackerManager : TrackerManager := {}

namespace Client

variable (c : Client)

/-! ### The views -/

/-- The download. -/
def downloader : Downloader :=
  { c.base with peers := c.links.map fun l => l.connection.asPeer l.ptr }

/-- The peers. -/
def swarm : Swarm where
  torrent := c.base.torrent
  peerId := c.base.torrent.peerId
  peers := c.links.map Link.connection
  recentlyRejected := c.recentlyRejected

/-! ### Reading and changing the fields -/

/-- Changes the download. -/
def change (f : Downloader → Downloader) : Client := { c with base := f c.downloader }

/-- The connection behind a pointer. -/
def connection (ptr : ℕ) : Option Wire.PeerConnection :=
  (lookup Link.ptr ptr c.links).map Link.connection

def setConnection (ptr : ℕ) (peer : Wire.PeerConnection) : Client :=
  { c with links := modifyFirst Link.ptr ptr (fun l => { l with connection := peer }) c.links }

/-- Calls a function of the connection behind a pointer. -/
def call (ptr : ℕ) (f : Wire.PeerConnection → Bool × Wire.PeerConnection) : Bool × Client :=
  match c.connection ptr with
  | none => (false, c)
  | some peer => ((f peer).1, c.setConnection ptr (f peer).2)

/-- Changes `peerSpeedStats_[ptr]`. -/
def modifyStats (ptr : ℕ) (f : PeerSpeedStats → PeerSpeedStats) : Client :=
  { c with peerSpeedStats := Function.update c.peerSpeedStats ptr (f (c.peerSpeedStats ptr)) }

/-- The speeds that the peers are sorted by. -/
def speeds (ptr : ℕ) : Option ℚ := some (c.peerSpeedStats ptr).avgSpeed

/-! ### Adding and rejecting peers -/

def isPeerRejected (ip : Bytes) (port : UInt16) (now : ℤ) : Bool × Client :=
  let (rejected, s) := c.swarm.isPeerRejected ip port now
  (rejected, { c with recentlyRejected := s.recentlyRejected })

def rejectPeer (ip : Bytes) (port : UInt16) (now : ℤ) : Client :=
  { c with recentlyRejected := (c.swarm.rejectPeer ip port now).recentlyRejected }

/-- The body of the loop in `addPeers`. The address of a new connection is one that no other
connection has: connections are only destroyed when the loop has ended. -/
def addPeer (now : ℤ) (peer : Peer) : Client :=
  let (rejected, c) := c.isPeerRejected peer.ip peer.port now
  if rejected then c
  else if c.links.any fun l => l.connection.ip = peer.ip ∧ l.connection.port = peer.port then c
  else
    { c with links := c.links ++
        [{ ptr := c.links.length
           connection := { ip := peer.ip, port := peer.port, torrent := c.base.torrent,
                           peerId := c.base.torrent.peerId } }] }

/-- `addPeers`; the clock is read for each peer. -/
def addPeers (now : ℕ → ℤ) (peers : List Peer) : Client :=
  peers.zipIdx.foldl (fun c entry => c.addPeer (now entry.2) entry.1) c

/-! ### Connecting and evicting -/

/-- What happens in a round of the loop of `connectToPeers`: the clock where the rejected peers are
asked for, what the network does, whether the unchoke message is sent, and the clock at the end. -/
structure Attempt where
  now : ℤ
  net : Wire.PeerConnection.Network := {}
  sent : Bool := true
  done : ℤ

/-- A round of the loop of `connectToPeers`, for a peer that is not connected: whether it is now. -/
def connectRound (ptr : ℕ) (a : Attempt) : Bool × Client :=
  match c.connection ptr with
  | none => (false, c)
  | some peer =>
    let (rejected, c) := c.isPeerRejected peer.ip peer.port a.now
    if rejected then (false, c)
    else
      let (connected, peer) := peer.connect a.net
      if connected then
        (true, (c.setConnection ptr (peer.sendUnchoke a.sent).2).modifyStats ptr fun stats =>
          stats.connected a.done)
      else (false, (c.setConnection ptr peer).rejectPeer peer.ip peer.port a.done)

def isConnected (ptr : ℕ) : Bool := (c.connection ptr).any Wire.PeerConnection.isConnected

/-- The loop of `connectToPeers` over the connections. -/
def connectLoop (attempts : ℕ → Attempt) : List ℕ → ℤ → Client → Client
  | [], _, c => c
  | ptr :: ptrs, connectedCount, c =>
    if c.isConnected ptr then connectLoop attempts ptrs connectedCount c
    else if connectedCount ≥ c.loopOptions.maxPeers then c
    else
      let (connected, c) := c.connectRound ptr (attempts ptr)
      connectLoop attempts ptrs (if connected then connectedCount + 1 else connectedCount) c

/-- The number of connected peers. -/
def connectedCount : ℕ := c.links.countP fun l => l.connection.isConnected

/-- The comparison of `connectToPeers`: faster peers first. -/
def faster (a b : Link) : Bool := Downloader.avgSpeed c.speeds a.ptr > Downloader.avgSpeed c.speeds b.ptr

/-- `connectToPeers`; nothing reads the result. -/
def connectToPeers (S : Sorter Link) (attempts : ℕ → Attempt) : Client :=
  let sorted := S.sort c.faster c.links
  connectLoop attempts (sorted.map Link.ptr) c.connectedCount { c with links := sorted }

/-- The body of the loop in `pruneBadPeers`; a peer is rejected at its own time. -/
def prunePeer (now : ℤ) (evicted : ℕ → ℤ) (ptr : ℕ) : Client :=
  match c.connection ptr with
  | none => c
  | some peer =>
    if peer.isConnected && (c.peerSpeedStats ptr).isBad now then
      (c.setConnection ptr peer.disconnect).rejectPeer peer.ip peer.port (evicted ptr)
    else c

def pruneBadPeers (now : ℤ) (evicted : ℕ → ℤ) : Client :=
  (c.links.map Link.ptr).foldl (fun c ptr => c.prunePeer now evicted ptr) c

/-! ### Asking for blocks -/

/-- The loop of `requestBlocksFromPeer` over the block indices; `sends` holds the outcomes of the
sends. As in `Downloader.requestLoop` the clock is read once for the call, not for each block. -/
def requestLoop (pieceIndex ptr : ℕ) (now : ℤ) : List ℕ → ℤ → List Bool → Client → Client
  | [], _, _, c => c
  | i :: blocks, currentRequests, sends, c =>
    if currentRequests ≥ c.base.options.maxRequestsPerPeer then c
    else if c.downloader.blockReceived pieceIndex i then
      requestLoop pieceIndex ptr now blocks currentRequests sends c
    else if c.downloader.blockRequested pieceIndex i && c.downloader.skipsInFlight pieceIndex i ptr then
      requestLoop pieceIndex ptr now blocks currentRequests sends c
    else
      let offset := uint32 (i * Downloader.blockSize)
      let blockLen := Downloader.requestLength c.base.torrent pieceIndex offset
      let (sent, c) :=
        c.call ptr fun peer => peer.sendRequest pieceIndex offset blockLen (sends.headD true)
      if sent then
        requestLoop pieceIndex ptr now blocks (currentRequests + 1) sends.tail
          (c.change fun d => d.addRequest pieceIndex i ptr now)
      else c

def requestBlocksFromPeer (ptr : ℕ) (sends : List Bool) (now : ℤ) : Client :=
  match c.downloader.requestTarget ptr with
  | none => c
  | some pieceIndex =>
    requestLoop pieceIndex ptr now (List.range (c.downloader.blockCount pieceIndex))
      (c.downloader.currentRequests ptr) sends c

/-- The peers that `requestPieces` sorts. -/
def askablePeers : List ℕ :=
  (c.links.filter fun l => l.connection.isConnected && !l.connection.peerChoking).map Link.ptr

/-- `requestPieces`. The numbers of requests are counted once, before the first peer is asked. Where
the comparison is no strict weak ordering, `std::sort` is undefined; here the sorter permutes the peers
in any way. -/
def requestPieces (S : Sorter ℕ) (sends : ℕ → List Bool) (now : ℕ → ℤ) : Client :=
  let requestsPerPeer := c.downloader.currentRequests
  let sortedPeers := S.sort (Downloader.peerLess c.speeds requestsPerPeer) c.askablePeers
  sortedPeers.foldl (fun c ptr =>
    if requestsPerPeer ptr ≥ c.base.options.maxRequestsPerPeer then c
    else c.requestBlocksFromPeer ptr (sends ptr) (now ptr)) c

/-! ### Giving requests up -/

/-- The loop that the functions of this kind share. -/
def eraseLoop (selected : BlockRequest → Bool) (onErase : BlockRequest → Client → Client) :
    List BlockRequest → Client → List BlockRequest × Client
  | [], c => ([], c)
  | req :: rest, c =>
    if selected req then eraseLoop selected onErase rest (onErase req c)
    else
      let (kept, c) := eraseLoop selected onErase rest c
      (req :: kept, c)

def eraseRequests (selected : BlockRequest → Bool) (onErase : BlockRequest → Client → Client) :
    Client :=
  let (kept, c) := eraseLoop selected onErase c.base.pendingRequests c
  c.change fun d => { d with pendingRequests := kept }

def cleanupTimedOutRequests (now : ℤ) : Client :=
  c.eraseRequests (fun req => decide (now - req.requestTime > 15000)) fun req c =>
    (c.change fun d => d.clearRequested req.pieceIndex req.offset).modifyStats req.peer
      PeerSpeedStats.fail

def cancelRequestsForPeer (ptr : ℕ) : Client :=
  c.eraseRequests (fun req => decide (req.peer = ptr)) fun req c =>
    c.change fun d => d.clearRequested req.pieceIndex req.offset

/-- `cancelDuplicateRequests`; sends to the peers in `failing` fail. -/
def cancelDuplicateRequests (pieceIndex offset keep : ℕ) (failing : List ℕ) : Client :=
  c.eraseRequests
    (fun req => decide (req.pieceIndex = pieceIndex ∧ req.offset = offset ∧ req.peer ≠ keep))
    fun req c =>
      (c.call req.peer fun peer =>
        peer.sendCancel pieceIndex offset req.length (decide (req.peer ∉ failing))).2.change
          fun d => d.clearRequested pieceIndex offset

/-! ### Messages -/

/-- The case `MessageId::Block`. -/
def handleBlock (sha1 : Bytes → Bytes) (ptr : ℕ) (payload : Bytes) (failing : List ℕ) (now : ℤ) :
    Client :=
  if payload.length < 8 then c
  else
    let pieceIndex := Downloader.bytesToInt payload
    let offset := Downloader.bytesToInt (payload.drop 4)
    match c.base.pendingRequests.find? (Downloader.answers pieceIndex offset ptr) with
    | none => c
    | some req =>
      let blockData := payload.drop 8
      if blockData.length ≠ req.length then
        (c.change fun d => (d.clearRequested pieceIndex offset).eraseAnswered pieceIndex offset
          ptr).modifyStats ptr PeerSpeedStats.fail
      else if ((offset / Downloader.blockSize : ℕ) : ℤ) ≥ (c.downloader.pieceState pieceIndex).totalBlocks ∨
          c.downloader.blockReceived pieceIndex (offset / Downloader.blockSize) then
        (c.change fun d => d.eraseAnswered pieceIndex offset ptr).modifyStats ptr PeerSpeedStats.fail
      else
        let c := (c.change fun d => d.acceptBlock pieceIndex offset ptr blockData).modifyStats ptr
          fun stats => stats.updateSpeed blockData.length now
        (c.change fun d => d.checkPiece sha1 pieceIndex).cancelDuplicateRequests pieceIndex offset ptr
          failing

/-- What is done with a message of a peer. -/
def handleMessage (sha1 : Bytes → Bytes) (ptr : ℕ) (msg : PeerMessage) (failing : List ℕ) (now : ℤ) :
    Client :=
  match msg.id with
  | .choke => (c.cancelRequestsForPeer ptr).modifyStats ptr PeerSpeedStats.fail
  | .unchoke => c.modifyStats ptr fun stats => stats.unchoked now
  | .block => c.handleBlock sha1 ptr msg.payload failing now
  | _ => c

/-- What happens in a round of the loop over the messages of a peer: the bytes that have arrived
before it, the fuel for an extended message, the failures of the disk, the peers to which a send
fails, and the clock. -/
structure Reception where
  arrived : Bytes := []
  fuel : ℕ := 0
  faults : List Fault := []
  failing : List ℕ := []
  now : ℤ := 0

/-- The body of the loop over the messages of a peer. -/
def hear (sha1 : Bytes → Bytes) (ptr : ℕ) (r : Reception) (peer : Wire.PeerConnection)
    (msg : Wire.PeerMessage) : Client :=
  ((c.setConnection ptr peer).change fun d =>
    { d with world := { d.world with faults := r.faults } }).handleMessage sha1 ptr
      msg.toPeerMessage r.failing r.now

/-- The loop over the messages of a peer; `none` if it does not end with the last of the rounds. -/
def receiveLoop (sha1 : Bytes → Bytes) (ptr : ℕ) :
    List Reception → Client → Wire.PeerMessage → Option Client
  | [], _, _ => none
  | r :: rest, c, msg =>
    match c.connection ptr with
    | none => some c
    | some peer =>
      match (peer.arrive r.arrived).receiveMessageNonBlocking r.fuel msg with
      | none => none
      | some (false, peer, _) => some (c.setConnection ptr peer)
      | some (true, peer, msg) => receiveLoop sha1 ptr rest (c.hear sha1 ptr r peer msg) msg

/-- The loop over the peers, with the peers that have been discovered so far. -/
def processLoop (sha1 : Bytes → Bytes) (receptions : ℕ → List Reception) (msg : Wire.PeerMessage) :
    List ℕ → List Peer → Client → Option (List Peer × Client)
  | [], pexPeers, c => some (pexPeers, c)
  | ptr :: ptrs, pexPeers, c =>
    if !c.isConnected ptr then processLoop sha1 receptions msg ptrs pexPeers c
    else
      match receiveLoop sha1 ptr (receptions ptr) c msg with
      | none => none
      | some c =>
        match c.connection ptr with
        | none => processLoop sha1 receptions msg ptrs pexPeers c
        | some peer =>
          processLoop sha1 receptions msg ptrs (pexPeers ++ peer.takeDiscoveredPeers.1)
            (c.setConnection ptr peer.takeDiscoveredPeers.2)

/-- `processPeerMessages`; `msg` is what an unassigned message holds. -/
def processPeerMessages (sha1 : Bytes → Bytes) (receptions : ℕ → List Reception)
    (msg : Wire.PeerMessage) (now : ℕ → ℤ) : Option Client :=
  (processLoop sha1 receptions msg (c.links.map Link.ptr) [] c).map fun out =>
    if out.1 = [] then out.2 else out.2.addPeers now out.1

end Client

end Gush
