import Gush.Downloader.Disk

/-!
# Asking for blocks and giving requests up

`selectNextPiece`, `requestBlocksFromPeer` and the three functions that take entries out of
`pendingRequests_` and clear the flags of their blocks. `requestBlocksFromPeer` is cut in two:
`requestTarget` says which piece the call asks for, `requestLoop` asks for its blocks.
-/

namespace Gush

open Cxx Posix

namespace Downloader

/-! ### Choosing a piece -/

/-- `UINT32_MAX`, which stands for "no piece". -/
def noPiece : ℕ := 2 ^ 32 - 1

/-- The number of connected peers that have a piece, counted for incomplete pieces. -/
def peerCount (d : Downloader) (i : ℕ) : ℤ :=
  if d.pieceCompleted i then 0
  else d.peers.countP fun peer => peer.connected && peer.hasPiece (uint32 i)

/-- The score of a piece with some progress. -/
def pieceScore (d : Downloader) (i : ℕ) : ℤ :=
  let state := d.pieceState i
  let completionPct := Int.tdiv (int32 (state.receivedBlocks * 1000)) state.totalBlocks
  let rarityScore := if d.peerCount i > 0 then Int.tdiv 1000 (d.peerCount i) else 10000
  int32 (completionPct * 100 + rarityScore)

/-- A round of the first loop of `selectNextPiece`, on the best piece and its score. -/
def scoreRound (d : Downloader) (best : ℕ × ℤ) (i : ℕ) : ℕ × ℤ :=
  if d.pieceCompleted i then best
  else if (d.pieceState i).receivedBlocks = 0 then best
  else if d.pieceScore i > best.2 then (uint32 i, d.pieceScore i)
  else best

/-- A round of the second loop, on the best piece and the number of peers that have it. -/
def rarestRound (d : Downloader) (best : ℕ × ℤ) (i : ℕ) : ℕ × ℤ :=
  if d.pieceCompleted i then best
  else if d.peerCount i < best.2 then (uint32 i, d.peerCount i)
  else best

def selectNextPiece (d : Downloader) : ℕ :=
  let pieces := List.range d.torrent.numPieces
  let best := (pieces.foldl d.scoreRound (noPiece, -1)).1
  if best = noPiece then (pieces.foldl d.rarestRound (noPiece, 2 ^ 31 - 1)).1 else best

/-- The pieces that a peer has and that miss blocks. -/
def neededPieces (d : Downloader) (peer : PeerConnection) : List ℕ :=
  ((List.range d.torrent.numPieces).filter fun i =>
    !d.pieceCompleted i && peer.hasPiece (uint32 i) &&
      decide ((d.pieceState i).receivedBlocks < (d.pieceState i).totalBlocks)).map fun i : ℕ =>
    uint32 i

/-- The number of pending requests with a peer. -/
def currentRequests (d : Downloader) (ptr : ℕ) : ℤ :=
  d.pendingRequests.countP fun req => req.peer = ptr

/-- The piece whose blocks `requestBlocksFromPeer` goes through; `none` if it returns before. -/
def requestTarget (d : Downloader) (ptr : ℕ) : Option ℕ :=
  match d.findPeer ptr with
  | none => none
  | some peer =>
    if !peer.connected || peer.peerChoking then none
    else if d.currentRequests ptr ≥ d.options.maxRequestsPerPeer then none
    else if d.neededPieces peer = [] then none
    else
      let best := d.selectNextPiece
      let selectedPiece :=
        if best = noPiece || !peer.hasPiece best then
          ((d.neededPieces peer).find? fun p => peer.hasPiece p).getD best
        else best
      if selectedPiece = noPiece then none else some selectedPiece

/-! ### Asking for its blocks -/

/-- The scan of the pending requests for copies of a block: whether the peer has one, and how many
others were counted until then. -/
def scanCopies (pieceIndex offset ptr : ℕ) : List BlockRequest → ℕ → Bool × ℕ
  | [], dupCount => (false, dupCount)
  | req :: rest, dupCount =>
    if req.pieceIndex = pieceIndex ∧ req.offset = offset then
      if req.peer = ptr then (true, dupCount)
      else scanCopies pieceIndex offset ptr rest (dupCount + 1)
    else scanCopies pieceIndex offset ptr rest dupCount

/-- Whether a block that is in flight somewhere is skipped. -/
def skipsInFlight (d : Downloader) (pieceIndex i ptr : ℕ) : Bool :=
  let (requestedFromPeer, dupCount) :=
    scanCopies pieceIndex (uint32 (i * blockSize)) ptr d.pendingRequests 0
  !d.endgame || requestedFromPeer || decide (dupCount ≥ 2)

/-- The length that is asked for at an offset of a piece. -/
def requestLength (torrent : TorrentInfo) (pieceIndex offset : ℕ) : ℕ :=
  let pieceStart := int64 (pieceIndex * torrent.pieceLength.toInt)
  let pieceEnd := min (int64 (pieceStart + torrent.pieceLength.toInt)) torrent.totalLength
  let pieceSize := pieceEnd - pieceStart
  uint32 (min blockSize (pieceSize - offset))

/-- The offset and the length that `requestBlocksFromPeer` asks for at a block index. -/
def requestedRange (torrent : TorrentInfo) (i b : ℕ) : ℕ × ℕ :=
  let offset := uint32 (b * blockSize)
  (offset, requestLength torrent i offset)

/-- The request for a block. -/
def requestFor (torrent : TorrentInfo) (i ptr : ℕ) (now : ℤ) (b : ℕ) : BlockRequest where
  pieceIndex := i
  offset := (requestedRange torrent i b).1
  length := (requestedRange torrent i b).2
  peer := ptr
  requestTime := now

/-- A request for a block that was sent. -/
def addRequest (d : Downloader) (pieceIndex i ptr : ℕ) (now : ℤ) : Downloader :=
  let offset := uint32 (i * blockSize)
  let req : BlockRequest :=
    { pieceIndex, offset, length := requestLength d.torrent pieceIndex offset, peer := ptr,
      requestTime := now }
  let d := d.setRequested pieceIndex i true
  { d with pendingRequests := d.pendingRequests ++ [req] }

/-- `PeerConnection::disconnect`, as a failed send calls it. -/
def disconnect (d : Downloader) (ptr : ℕ) : Downloader :=
  { d with peers := d.peers.map fun peer =>
      if peer.ptr = ptr then { peer with connected := false } else peer }

/-- The loop over the block indices, with the running number of requests to the peer; `sends` holds
the outcomes of `sendRequest`. The requests of one call get the same time; the source reads the clock
for each of them. -/
def requestLoop (pieceIndex ptr : ℕ) (now : ℤ) :
    List ℕ → ℤ → List Bool → Downloader → Downloader
  | [], _, _, d => d
  | i :: blocks, currentRequests, sends, d =>
    if currentRequests ≥ d.options.maxRequestsPerPeer then d
    else if d.blockReceived pieceIndex i then
      requestLoop pieceIndex ptr now blocks currentRequests sends d
    else if d.blockRequested pieceIndex i && d.skipsInFlight pieceIndex i ptr then
      requestLoop pieceIndex ptr now blocks currentRequests sends d
    else if sends.headD true then
      requestLoop pieceIndex ptr now blocks (currentRequests + 1) sends.tail
        (d.addRequest pieceIndex i ptr now)
    else d.disconnect ptr

def requestBlocksFromPeer (d : Downloader) (ptr : ℕ) (sends : List Bool) (now : ℤ) : Downloader :=
  match d.requestTarget ptr with
  | none => d
  | some pieceIndex =>
    requestLoop pieceIndex ptr now (List.range (d.blockCount pieceIndex)) (d.currentRequests ptr)
      sends d

/-! ### Giving requests up -/

/-- Clears the flag of the block at an offset, if there is such a block. -/
def clearRequested (d : Downloader) (pieceIndex offset : ℕ) : Downloader :=
  let blockIndex := offset / blockSize
  if (blockIndex : ℤ) < (d.pieceState pieceIndex).totalBlocks then
    d.setRequested pieceIndex blockIndex false
  else d

/-- The loop that all functions of this kind share: every pending request that is selected is
erased, after something has been done for it. -/
def eraseLoop (selected : BlockRequest → Bool) (onErase : BlockRequest → Downloader → Downloader) :
    List BlockRequest → Downloader → List BlockRequest × Downloader
  | [], d => ([], d)
  | req :: rest, d =>
    if selected req then eraseLoop selected onErase rest (onErase req d)
    else
      let (kept, d) := eraseLoop selected onErase rest d
      (req :: kept, d)

def eraseRequests (d : Downloader) (selected : BlockRequest → Bool)
    (onErase : BlockRequest → Downloader → Downloader) : Downloader :=
  let (kept, d) := eraseLoop selected onErase d.pendingRequests d
  { d with pendingRequests := kept }

def cleanupTimedOutRequests (d : Downloader) (now : ℤ) : Downloader :=
  d.eraseRequests (fun req => decide (now - req.requestTime > 15000))
    fun req d => d.clearRequested req.pieceIndex req.offset

def cancelRequestsForPeer (d : Downloader) (ptr : ℕ) : Downloader :=
  d.eraseRequests (fun req => decide (req.peer = ptr))
    fun req d => d.clearRequested req.pieceIndex req.offset

/-- `sendCancel`, which disconnects a connected peer if the send fails. -/
def sendCancel (d : Downloader) (ptr : ℕ) (failing : List ℕ) : Downloader :=
  if ptr ∈ failing then d.disconnect ptr else d

/-- `cancelDuplicateRequests`; sends to the peers in `failing` fail. -/
def cancelDuplicateRequests (d : Downloader) (pieceIndex offset keep : ℕ) (failing : List ℕ) :
    Downloader :=
  d.eraseRequests
    (fun req => decide (req.pieceIndex = pieceIndex ∧ req.offset = offset ∧ req.peer ≠ keep))
    fun req d => (d.sendCancel req.peer failing).clearRequested pieceIndex offset

end Downloader

end Gush
