import Gush.Downloader.OutputFiles

/-!
# The state of a download

The fields of `Downloader` that decide which blocks are requested, written and counted, and the
connections as far as they matter for that. Speeds, times of the last update and rejected peers are
left out; so is `torrent_` apart from its metadata.

`WellFormed` is the shape that the constructor gives to the piece states. Nothing ever changes it.
-/

namespace Gush

open Cxx Posix

/-- `DownloadOptions`. -/
structure DownloadOptions where
  maxRequestsPerPeer : ℤ := 5
  overwrite : Bool := false

/-- `PeerConnection`; `ptr` is the identity that a `PeerConnection*` stands for. -/
structure PeerConnection where
  ptr : ℕ
  connected : Bool := false
  peerChoking : Bool := true
  bitfield : List Bool := []

def PeerConnection.hasPiece (peer : PeerConnection) (index : ℕ) : Bool :=
  peer.bitfield.getD index false

/-- `BlockRequest`; the time is in milliseconds. -/
structure BlockRequest where
  pieceIndex : ℕ
  offset : ℕ
  length : ℕ
  peer : ℕ
  requestTime : ℤ
  deriving DecidableEq

/-- `PieceState`. -/
structure PieceState where
  blocksRequested : List Bool := []
  blocksReceived : List Bool := []
  totalBlocks : ℤ := 0
  receivedBlocks : ℤ := 0

/-- The constructor of `PieceState`. -/
def PieceState.ofBlocks (blocks : ℤ) : PieceState where
  blocksRequested := List.replicate blocks.toNat false
  blocksReceived := List.replicate blocks.toNat false
  totalBlocks := blocks

/-- `Downloader`. The world is what its output files live in. -/
structure Downloader where
  torrent : TorrentInfo
  savePath : Bytes := []
  options : DownloadOptions := {}
  peers : List PeerConnection := []
  piecesCompleted : List Bool
  pieceStates : List PieceState
  piecesCompletedCount : ℕ := 0
  downloadedBytes : ℤ := 0
  pendingRequests : List BlockRequest := []
  endgame : Bool := false
  outputFiles : List Downloader.OutputFile := []
  world : World

namespace Downloader

/-- 16 KB. -/
def blockSize : ℕ := 16384

/-- `pieceSize`, for a `uint32_t` index. -/
def pieceSize (torrent : TorrentInfo) (pieceIndex : ℕ) : ℤ :=
  let start := int64 (pieceIndex * torrent.pieceLength.toInt)
  min torrent.pieceLength.toInt (int64 (torrent.totalLength - start))

def calculateBlocksForPiece (torrent : TorrentInfo) (pieceIndex : ℕ) : ℤ :=
  let bytesInPiece := pieceSize torrent pieceIndex
  int32 (Int.tdiv (int64 (bytesInPiece + blockSize - 1)) blockSize)

/-- The constructor. -/
def init (torrent : TorrentInfo) (savePath : Bytes) (options : DownloadOptions) (world : World) :
    Downloader where
  torrent
  savePath
  options
  piecesCompleted := List.replicate torrent.numPieces false
  pieceStates := (List.range torrent.numPieces).map fun i : ℕ =>
    .ofBlocks (calculateBlocksForPiece torrent (uint32 i))
  world

/-! ### Reading and writing the piece states -/

variable (d : Downloader)

/-- `pieceStates_[i]`. -/
def pieceState (i : ℕ) : PieceState := d.pieceStates.getD i {}

/-- `piecesCompleted_[i]`. -/
def pieceCompleted (i : ℕ) : Bool := d.piecesCompleted.getD i false

/-- `pieceStates_[i].blocksRequested[b]`. -/
def blockRequested (i b : ℕ) : Bool := (d.pieceState i).blocksRequested.getD b false

/-- `pieceStates_[i].blocksReceived[b]`. -/
def blockReceived (i b : ℕ) : Bool := (d.pieceState i).blocksReceived.getD b false

/-- Changes `pieceStates_[i]`. -/
def modifyPiece (i : ℕ) (f : PieceState → PieceState) : Downloader :=
  { d with pieceStates := d.pieceStates.modify i f }

/-- `pieceStates_[i].blocksRequested[b] = value`. -/
def setRequested (i b : ℕ) (value : Bool) : Downloader :=
  d.modifyPiece i fun s => { s with blocksRequested := s.blocksRequested.set b value }

def findPeer (ptr : ℕ) : Option PeerConnection := d.peers.find? fun peer => peer.ptr = ptr

/-- The number of blocks of a piece, as an index bound. -/
def blockCount (i : ℕ) : ℕ := (d.pieceState i).totalBlocks.toNat

/-- The shape of the piece states: as many as the torrent has pieces, each with as many blocks as
the constructor has computed, and flags for just these blocks. -/
structure WellFormed : Prop where
  completed_length : d.piecesCompleted.length = d.torrent.numPieces
  states_length : d.pieceStates.length = d.torrent.numPieces
  totalBlocks : ∀ i < d.torrent.numPieces,
    (d.pieceState i).totalBlocks = calculateBlocksForPiece d.torrent (uint32 i)
  requested_length : ∀ i, (d.pieceState i).blocksRequested.length = d.blockCount i
  received_length : ∀ i, (d.pieceState i).blocksReceived.length = d.blockCount i

/-- The piece states that the constructor makes. -/
theorem pieceState_init (torrent : TorrentInfo) (savePath : Bytes) (options : DownloadOptions)
    (world : World) (i : ℕ) : (init torrent savePath options world).pieceState i =
      if i < torrent.numPieces then .ofBlocks (calculateBlocksForPiece torrent (uint32 i)) else {} := by
  rw [pieceState, init, List.getD_eq_getElem?_getD]
  split_ifs with hi <;> simp [hi]

/-- The constructor establishes the shape. -/
theorem wellFormed_init (torrent : TorrentInfo) (savePath : Bytes) (options : DownloadOptions)
    (world : World) : (init torrent savePath options world).WellFormed := by
  have hstate := pieceState_init torrent savePath options world
  have hshape : ∀ i, ((init torrent savePath options world).pieceState i).blocksRequested.length =
        (init torrent savePath options world).blockCount i ∧
      ((init torrent savePath options world).pieceState i).blocksReceived.length =
        (init torrent savePath options world).blockCount i := by
    intro i
    rw [blockCount, hstate]
    split_ifs <;> simp [PieceState.ofBlocks]
  constructor
  · simp [init]
  · simp [init]
  · intro i (hi : i < torrent.numPieces)
    rw [hstate, if_pos hi]
    rfl
  · exact fun i => (hshape i).1
  · exact fun i => (hshape i).2

/-! ### Piece sizes -/

section PieceSize

variable {torrent : TorrentInfo} (h : torrent.Accepted)

include h

theorem pieceStart_nonneg (i : ℕ) : 0 ≤ (i : ℤ) * torrent.pieceLength.toInt :=
  mul_nonneg (Int.natCast_nonneg i) h.pieceLength_pos.le

/-- The start of a piece is computed without overflow. -/
theorem int64_pieceStart {i : ℕ} (hi : i < torrent.numPieces) :
    int64 ((i : ℤ) * torrent.pieceLength.toInt) = i * torrent.pieceLength.toInt := by
  have hstart := h.piece_start_lt hi
  have htotal := h.totalLength_lt
  have hnonneg := pieceStart_nonneg h i
  exact int64_of_range (by omega) (by omega)

/-- The size of a piece: the piece length, or what is left for the last piece. -/
theorem pieceSize_eq {i : ℕ} (hi : i < torrent.numPieces) :
    pieceSize torrent i = min torrent.pieceLength.toInt
      (torrent.totalLength - i * torrent.pieceLength.toInt) := by
  have hstart := h.piece_start_lt hi
  have htotal := h.totalLength_lt
  have hnonneg := pieceStart_nonneg h i
  rw [pieceSize, int64_pieceStart h hi, int64_of_range (by omega) (by omega)]

theorem pieceSize_pos {i : ℕ} (hi : i < torrent.numPieces) : 0 < pieceSize torrent i := by
  have hstart := h.piece_start_lt hi
  have hpos := h.pieceLength_pos
  rw [pieceSize_eq h hi]
  omega

theorem pieceSize_le {i : ℕ} (hi : i < torrent.numPieces) :
    pieceSize torrent i ≤ torrent.pieceLength.toInt := by
  rw [pieceSize_eq h hi]
  exact min_le_left _ _

/-- The number of blocks of a piece, rounded up. -/
theorem calculateBlocksForPiece_of_le {i : ℕ} (hi : i < torrent.numPieces)
    (hsize : pieceSize torrent i ≤ 2 ^ 32) :
    calculateBlocksForPiece torrent i = (pieceSize torrent i + 16383) / 16384 := by
  have hpos := pieceSize_pos h hi
  have hsum : int64 (pieceSize torrent i + (blockSize : ℕ) - 1) = pieceSize torrent i + 16383 := by
    rw [int64_of_range] <;> unfold blockSize <;> omega
  rw [calculateBlocksForPiece, hsum, Int.tdiv_eq_ediv_of_nonneg (by omega), int32_of_range]
  · rfl
  · show _ ≤ (pieceSize torrent i + 16383) / 16384
    omega
  · show (pieceSize torrent i + 16383) / 16384 < _
    omega

theorem calculateBlocksForPiece_eq (hlength : torrent.pieceLength.toInt ≤ 2 ^ 32) {i : ℕ}
    (hi : i < torrent.numPieces) :
    calculateBlocksForPiece torrent i = (pieceSize torrent i + 16383) / 16384 :=
  calculateBlocksForPiece_of_le h hi ((pieceSize_le h hi).trans hlength)

/-- Pieces have between one and `2 ^ 18` blocks. -/
theorem calculateBlocksForPiece_bounds (hlength : torrent.pieceLength.toInt ≤ 2 ^ 32) {i : ℕ}
    (hi : i < torrent.numPieces) :
    0 < calculateBlocksForPiece torrent i ∧ calculateBlocksForPiece torrent i ≤ 2 ^ 18 := by
  have hpos := pieceSize_pos h hi
  have hle := pieceSize_le h hi
  rw [calculateBlocksForPiece_eq h hlength hi]
  omega

end PieceSize

theorem uint32_le (n : ℕ) : uint32 n ≤ n := by
  unfold uint32
  omega

/-- All pieces of an accepted torrent have block offsets that fit 32 bits. -/
theorem WellFormed.blockCount_le {d : Downloader} (hd : d.WellFormed)
    (h : validateTorrentInfo d.torrent = .ok ()) (hlength : d.torrent.pieceLength.toInt ≤ 2 ^ 32)
    (i : ℕ) : d.blockCount i ≤ 2 ^ 18 := by
  by_cases hi : i < d.torrent.numPieces
  · have hbounds := calculateBlocksForPiece_bounds (h) hlength
      ((uint32_le i).trans_lt hi)
    rw [blockCount, hd.totalBlocks i hi]
    omega
  · have hnone : d.pieceStates.length ≤ i := by
      rw [hd.states_length]
      omega
    simp [blockCount, pieceState, List.getD_eq_getElem?_getD, hnone]

end Downloader

end Gush
