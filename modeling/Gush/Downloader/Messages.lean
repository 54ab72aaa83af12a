import Gush.Downloader.Requests
import Gush.Lib.BigEndian

/-!
# Messages and runs

What `processPeerMessages` does with one message, and the steps of the download loop. A run is any
sequence of steps: the loop's own order is one of them. Whatever happens to the connections between
two steps (connecting, disconnecting, choking, bitfields, new and evicted peers) is a step of its
own, and so is a change of the endgame flag.
-/

namespace Gush

open Cxx Posix

/-- `MessageId`. -/
inductive MessageId where
  | choke
  | unchoke
  | interested
  | notInterested
  | havePiece
  | bitfield
  | request
  | block
  | cancel
  | port
  | extended
  | keepAlive
  | other (id : UInt8)
  deriving DecidableEq

/-- `PeerMessage`. -/
structure PeerMessage where
  id : MessageId
  payload : Bytes := []

namespace Downloader

/-- `bytesToInt` at the start of some bytes. -/
def bytesToInt (bytes : Bytes) : ℕ := BigEndian.decode (bytes.take 4)

/-- The request that a block answers. -/
def answers (pieceIndex offset ptr : ℕ) (req : BlockRequest) : Bool :=
  req.pieceIndex = pieceIndex ∧ req.offset = offset ∧ req.peer = ptr

/-- Erases the first request that a block answers. -/
def eraseAnswered (d : Downloader) (pieceIndex offset ptr : ℕ) : Downloader :=
  { d with pendingRequests := d.pendingRequests.eraseP (answers pieceIndex offset ptr) }

/-- Writes an accepted block, counts its bytes and marks it as received. -/
def acceptBlock (d : Downloader) (pieceIndex offset ptr : ℕ) (blockData : Bytes) : Downloader :=
  let d := (d.eraseAnswered pieceIndex offset ptr).writePiece pieceIndex offset blockData
  let d := { d with downloadedBytes := int64 (d.downloadedBytes + blockData.length) }
  d.modifyPiece pieceIndex fun state => { state with
    blocksReceived := state.blocksReceived.set (offset / blockSize) true
    receivedBlocks := int32 (state.receivedBlocks + 1) }

/-- A piece that fails its hash check is reset, with its pending requests. -/
def failPiece (d : Downloader) (pieceIndex : ℕ) : Downloader :=
  let d := d.modifyPiece pieceIndex fun state => { state with
    blocksRequested := List.replicate state.totalBlocks.toNat false
    blocksReceived := List.replicate state.totalBlocks.toNat false
    receivedBlocks := 0 }
  { d with
    pendingRequests := d.pendingRequests.filter fun req => req.pieceIndex ≠ pieceIndex
    downloadedBytes := max 0 (int64 (d.downloadedBytes - pieceSize d.torrent pieceIndex)) }

/-- Checks a piece once all its blocks are there. -/
def checkPiece (sha1 : Bytes → Bytes) (d : Downloader) (pieceIndex : ℕ) : Downloader :=
  if (d.pieceState pieceIndex).receivedBlocks ≥ (d.pieceState pieceIndex).totalBlocks then
    match verifyPiece sha1 d pieceIndex with
    | (true, world) => { d with
        world
        piecesCompleted := d.piecesCompleted.set pieceIndex true
        piecesCompletedCount := d.piecesCompletedCount + 1 }
    | (false, world) => failPiece { d with world } pieceIndex
  else d

/-- The case `MessageId::Block`. -/
def handleBlock (sha1 : Bytes → Bytes) (d : Downloader) (ptr : ℕ) (payload : Bytes)
    (failing : List ℕ) : Downloader :=
  if payload.length < 8 then d
  else
    let pieceIndex := bytesToInt payload
    let offset := bytesToInt (payload.drop 4)
    match d.pendingRequests.find? (answers pieceIndex offset ptr) with
    | none => d
    | some req =>
      let blockData := payload.drop 8
      if blockData.length ≠ req.length then
        (d.clearRequested pieceIndex offset).eraseAnswered pieceIndex offset ptr
      else if ((offset / blockSize : ℕ) : ℤ) ≥ (d.pieceState pieceIndex).totalBlocks ∨
          d.blockReceived pieceIndex (offset / blockSize) then
        d.eraseAnswered pieceIndex offset ptr
      else
        ((d.acceptBlock pieceIndex offset ptr blockData).checkPiece sha1
          pieceIndex).cancelDuplicateRequests pieceIndex offset ptr failing

/-- What is done with a message of a peer. -/
def handleMessage (sha1 : Bytes → Bytes) (d : Downloader) (ptr : ℕ) (msg : PeerMessage)
    (failing : List ℕ) : Downloader :=
  match msg.id with
  | .choke => d.cancelRequestsForPeer ptr
  | .block => d.handleBlock sha1 ptr msg.payload failing
  | _ => d

/-! ### Runs -/

/-- A step of the download, with what the environment does during it: the outcomes of sends, the
time, and the failures that reads and writes meet. -/
inductive Event where
  | connections (peers : List PeerConnection)
  | message (ptr : ℕ) (msg : PeerMessage) (faults : List Fault) (failing : List ℕ)
  | request (ptr : ℕ) (sends : List Bool) (now : ℤ)
  | timeouts (now : ℤ)
  | endgame (value : Bool)

def step (sha1 : Bytes → Bytes) (d : Downloader) : Event → Downloader
  | .connections peers => { d with peers }
  | .message ptr msg faults failing =>
    { d with world := { d.world with faults } }.handleMessage sha1 ptr msg failing
  | .request ptr sends now => d.requestBlocksFromPeer ptr sends now
  | .timeouts now => d.cleanupTimedOutRequests now
  | .endgame value => { d with endgame := value }

/-- The state after some steps. -/
def run (sha1 : Bytes → Bytes) (d : Downloader) (events : List Event) : Downloader :=
  events.foldl (step sha1) d

end Downloader

end Gush
