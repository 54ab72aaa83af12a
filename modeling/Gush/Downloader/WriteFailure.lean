import Gush.Downloader.Written
import Gush.Downloader.Counters

/-!
# Blocks that could not be written

`writePiece` returns nothing, so a failing `fseeko` or `fwrite` never reaches the code that counts
the block and marks it as received. `keepsFailedBlock_iff` says for which accepted blocks this does
no harm: those that are written in full after all, and those that make up a piece of their own and
are thrown away again by its check.
-/

namespace Gush.Downloader

open Cxx Posix

variable {sha1 : Bytes → Bytes} {d d' : Downloader} {ptr : ℕ} {payload : Bytes} {failing : List ℕ}

/-- All bytes of the block are written, into however many files. -/
def AllWritten (d : Downloader) (pieceIndex offset : ℕ) (blockData : Bytes) : Prop :=
  writtenBytes d.outputFiles (int64 (pieceIndex * d.torrent.pieceLength.toInt + offset)) blockData
    d.world = blockData.length

instance (d : Downloader) (pieceIndex offset : ℕ) (blockData : Bytes) :
    Decidable (d.AllWritten pieceIndex offset blockData) := inferInstanceAs (Decidable (_ = _))

/-- A block is as it was before it arrived, as far as counting goes, and can be asked for. -/
structure BlockKept (d d' : Downloader) (i b : ℕ) : Prop where
  received : d'.blockReceived i b = false
  receivedBlocks : (d'.pieceState i).receivedBlocks = (d.pieceState i).receivedBlocks
  downloadedBytes : d'.downloadedBytes = d.downloadedBytes
  requested : d'.blockRequested i b = false

/-- What should hold of an accepted block: if it has not been written, it does not count. -/
def KeepsFailedBlock (sha1 : Bytes → Bytes) (d : Downloader) (ptr : ℕ) (payload : Bytes)
    (failing : List ℕ) : Prop :=
  ¬ d.AllWritten (bytesToInt payload) (bytesToInt (payload.drop 4)) (payload.drop 8) →
    BlockKept d (d.handleBlock sha1 ptr payload failing) (bytesToInt payload)
      (bytesToInt (payload.drop 4) / blockSize)

/-- The block is the whole piece, what is on disk then does not have the hash of the piece, and
taking the piece away undoes what the block has added. -/
structure CheckedAway (sha1 : Bytes → Bytes) (d : Downloader) (pieceIndex offset : ℕ)
    (blockData : Bytes) : Prop where
  single : (d.pieceState pieceIndex).totalBlocks = 1
  first : (d.pieceState pieceIndex).receivedBlocks = 0
  invalid : (verifyPiece sha1 (d.writePiece pieceIndex offset blockData) pieceIndex).1 = false
  counter : max 0 (int64 (int64 (d.downloadedBytes + blockData.length) -
    pieceSize d.torrent pieceIndex)) = d.downloadedBytes

/-- Checking looks at the torrent and its files only. -/
theorem verifyPiece_congr (htorrent : d'.torrent = d.torrent)
    (hfiles : d'.outputFiles = d.outputFiles) (hworld : d'.world = d.world) (i : ℕ) :
    verifyPiece sha1 d' i = verifyPiece sha1 d i := by
  unfold verifyPiece readPieceFromDisk
  rw [htorrent, hfiles, hworld]

/-- An accepted block is settled. -/
theorem Accepts.handleBlock_eq (hheader : 8 ≤ payload.length)
    (h : d.Accepts (bytesToInt payload) (bytesToInt (payload.drop 4)) ptr (payload.drop 8)) :
    d.handleBlock sha1 ptr payload failing = settled sha1 d (bytesToInt payload)
      (bytesToInt (payload.drop 4)) ptr (payload.drop 8) failing := by
  obtain ⟨req, hfind, hlength⟩ := h.answered
  exact handleBlock_of_missing hheader hfind hlength h.inside h.missing

/-- Cancelling duplicates changes nothing of what is asked of a kept block, but its flag. -/
theorem blockKept_cancelDuplicates_iff {s : Downloader} (hs : s.WellFormed) {i offset keep : ℕ}
    (hrequested : s.blockReceived i (offset / blockSize) = false →
      s.blockRequested i (offset / blockSize) = false) :
    BlockKept d (s.cancelDuplicateRequests i offset keep failing) i (offset / blockSize) ↔
      BlockKept d s i (offset / blockSize) := by
  have hclears := clears_duplicates i offset keep failing
  have hframe : Frame s (s.cancelDuplicateRequests i offset keep failing) :=
    hclears.frame_eraseRequests s
  have hflag : s.blockRequested i (offset / blockSize) = false →
      (s.cancelDuplicateRequests i offset keep failing).blockRequested i (offset / blockSize) =
        false := by
    intro hoff
    rw [cancelDuplicateRequests, hclears.blockRequested_eraseRequests hs, hoff, Bool.false_and]
  constructor
  · rintro ⟨hreceived, hcount, hbytes, -⟩
    rw [hframe.blockReceived] at hreceived
    rw [hframe.receivedBlocks] at hcount
    rw [hframe.downloadedBytes] at hbytes
    exact ⟨hreceived, hcount, hbytes, hrequested hreceived⟩
  · rintro ⟨hreceived, hcount, hbytes, hoff⟩
    refine ⟨?_, ?_, ?_, hflag hoff⟩
    · rw [hframe.blockReceived, hreceived]
    · rw [hframe.receivedBlocks, hcount]
    · rw [hframe.downloadedBytes, hbytes]

/-- A block that counts as received is not marked as asked for once its piece has failed. -/
theorem blockRequested_checkPiece {s : Downloader} {i b : ℕ} (hstates : i < s.pieceStates.length)
    (hreceived : s.blockReceived i b = true)
    (hoff : (s.checkPiece sha1 i).blockReceived i b = false) :
    (s.checkPiece sha1 i).blockRequested i b = false := by
  rcases checkPiece_cases sha1 s i with ⟨-, hsame, -⟩ | ⟨world, heq⟩
  · rw [blockReceived, pieceState, hsame] at hoff
    exact absurd (hreceived.symm.trans hoff) (by decide)
  · rw [heq, (flags_failPiece { s with world } i hstates i b).1, if_pos rfl]

theorem lt_length_acceptBlock {i offset : ℕ}
    (hblock : ((offset / blockSize : ℕ) : ℤ) < (d.pieceState i).totalBlocks) (ptr : ℕ)
    (blockData : Bytes) : i < (d.acceptBlock i offset ptr blockData).pieceStates.length := by
  have hlt : offset / blockSize < d.blockCount i := Int.lt_toNat.2 hblock
  simpa [acceptBlock, modifyPiece, writePiece, eraseAnswered] using lt_of_lt_blockCount d hlt

section Accept

variable (hd : d.WellFormed) {i offset : ℕ} {blockData : Bytes}
  (hblock : ((offset / blockSize : ℕ) : ℤ) < (d.pieceState i).totalBlocks)

include hd hblock

theorem acceptBlock_counts :
    ((d.acceptBlock i offset ptr blockData).pieceState i).receivedBlocks =
        int32 ((d.pieceState i).receivedBlocks + 1) ∧
      ((d.acceptBlock i offset ptr blockData).pieceState i).totalBlocks =
        (d.pieceState i).totalBlocks ∧
      (d.acceptBlock i offset ptr blockData).blockReceived i (offset / blockSize) = true := by
  have hlt : offset / blockSize < d.blockCount i := Int.lt_toNat.2 hblock
  have hstates := lt_of_lt_blockCount d hlt
  refine ⟨?_, ?_, ?_⟩
  · rw [acceptBlock, pieceState_modifyPiece, if_pos ⟨rfl, hstates⟩]
    rfl
  · rw [acceptBlock, pieceState_modifyPiece, if_pos ⟨rfl, hstates⟩]
    rfl
  · rw [blockReceived_acceptBlock i ptr blockData hd hlt]
    exact if_pos rfl

/-- The check of its piece decides what becomes of a block that counts as received. -/
theorem blockKept_checkPiece_iff :
    BlockKept d ((d.acceptBlock i offset ptr blockData).checkPiece sha1 i) i (offset / blockSize) ↔
      CheckedAway sha1 d i offset blockData := by
  obtain ⟨hcount, htotal, hreceived⟩ := @acceptBlock_counts d ptr hd i offset blockData hblock
  have hstates := lt_length_acceptBlock hblock ptr blockData
  have hbytes : (d.acceptBlock i offset ptr blockData).downloadedBytes =
      int64 (d.downloadedBytes + blockData.length) := rfl
  have htorrent : (d.acceptBlock i offset ptr blockData).torrent = d.torrent := rfl
  have hverify : verifyPiece sha1 (d.acceptBlock i offset ptr blockData) i =
      verifyPiece sha1 (d.writePiece i offset blockData) i := verifyPiece_congr rfl rfl rfl i
  have hone : int32 (0 + 1) = 1 := int32_of_range (by norm_num) (by norm_num)
  have hpos : 0 ≤ ((offset / blockSize : ℕ) : ℤ) := Int.natCast_nonneg _
  generalize d.acceptBlock i offset ptr blockData = accepted at *
  rcases checkPiece_eq sha1 accepted i with
    ⟨hmore, heq⟩ | ⟨hfull, world, ⟨hvalid, heq⟩ | ⟨hinvalid, heq⟩⟩
  -- other blocks of the piece are missing, so the block stays
  · rw [heq, hcount, htotal] at *
    constructor
    · rintro ⟨hoff, -, -, -⟩
      rw [hreceived] at hoff
      cases hoff
    · rintro ⟨hsingle, hfirst, -, -⟩
      rw [hsingle, hfirst, hone] at hmore
      exact absurd hmore (lt_irrefl 1)
  · constructor
    · rintro ⟨hoff, -, -, -⟩
      rw [heq] at hoff
      exact absurd (hreceived.symm.trans hoff) (by decide)
    · rintro ⟨-, -, hnot, -⟩
      rw [← hverify, hvalid] at hnot
      cases hnot
  -- the check throws the piece away
  · obtain ⟨hrequested, hoff⟩ := flags_failPiece { accepted with world } i hstates i
      (offset / blockSize)
    have hstate := pieceState_failPiece { accepted with world } i hstates i
    have hcounter : (failPiece { accepted with world } i).downloadedBytes =
        max 0 (int64 (int64 (d.downloadedBytes + blockData.length) - pieceSize d.torrent i)) := by
      rw [← hbytes, ← htorrent]
      rfl
    rw [if_pos rfl] at hrequested hoff hstate
    rw [heq]
    constructor
    · rintro ⟨-, hblocks, hdownloaded, -⟩
      rw [hstate] at hblocks
      have hfirst : (d.pieceState i).receivedBlocks = 0 := hblocks.symm
      rw [hcount, htotal, hfirst, hone] at hfull
      exact ⟨by omega, hfirst, by rw [← hverify, hinvalid], hcounter.symm.trans hdownloaded⟩
    · rintro ⟨-, hfirst, -, hkept⟩
      refine ⟨hoff, ?_, hcounter.trans hkept, hrequested⟩
      rw [hstate, hfirst]

/-- Cancelling the duplicates makes no difference to it. -/
theorem blockKept_settled_iff :
    BlockKept d (settled sha1 d i offset ptr blockData failing) i (offset / blockSize) ↔
      CheckedAway sha1 d i offset blockData := by
  obtain ⟨-, -, hreceived⟩ := @acceptBlock_counts d ptr hd i offset blockData hblock
  have hstates := lt_length_acceptBlock hblock ptr blockData
  have hwf : (d.acceptBlock i offset ptr blockData).WellFormed :=
    wellFormed_acceptBlock i ptr blockData hd
  rw [← @blockKept_checkPiece_iff sha1 d ptr hd i offset blockData hblock]
  exact blockKept_cancelDuplicates_iff (wellFormed_checkPiece hwf sha1 i)
    (blockRequested_checkPiece hstates hreceived)

end Accept

/-- **Main result.** An accepted block that is not written in full counts all the same, unless it
is the only block of its piece and goes again when the piece is checked. -/
theorem keepsFailedBlock_iff (hd : d.WellFormed) (hheader : 8 ≤ payload.length)
    (h : d.Accepts (bytesToInt payload) (bytesToInt (payload.drop 4)) ptr (payload.drop 8)) :
    KeepsFailedBlock sha1 d ptr payload failing ↔
      d.AllWritten (bytesToInt payload) (bytesToInt (payload.drop 4)) (payload.drop 8) ∨
        CheckedAway sha1 d (bytesToInt payload) (bytesToInt (payload.drop 4)) (payload.drop 8) := by
  unfold KeepsFailedBlock
  rw [h.handleBlock_eq hheader, blockKept_settled_iff hd h.inside, or_iff_not_imp_left]

/-- A download that has asked for what it can, on a disk that refuses to seek. -/
def refused (torrent : TorrentInfo) : Downloader :=
  let opening := openOutputFiles torrent (ascii "d") false { fs := oneDirectory }
  let d := { init torrent (ascii "d") {} opening.2 with
    outputFiles := opening.1.2
    peers := [seeder 1 false] }
  let d := d.requestBlocksFromPeer 1 [] 0
  { d with world := { d.world with faults := [some 0] } }

theorem wellFormed_refused (torrent : TorrentInfo) : (refused torrent).WellFormed := by
  have hinit : WellFormed { init torrent (ascii "d") {}
      (openOutputFiles torrent (ascii "d") false { fs := oneDirectory }).2 with
        outputFiles := (openOutputFiles torrent (ascii "d") false { fs := oneDirectory }).1.2
        peers := [seeder 1 false] } :=
    (wellFormed_init torrent (ascii "d") {} { fs := oneDirectory }).congr rfl rfl rfl
  exact ((frame_requestBlocksFromPeer _ 1 [] 0).wellFormed hinit).congr rfl rfl rfl

/-- The only block of the piece is not written, and goes again. -/
theorem keepsFailedBlock_refused :
    KeepsFailedBlock (fun _ => []) (refused oneBlockTorrent) 1 [0, 0, 0, 0, 0, 0, 0, 0, 7] [] := by
  have haccepts : (refused oneBlockTorrent).Accepts 0 0 1 [7] :=
    ⟨⟨{ pieceIndex := 0, offset := 0, length := 1, peer := 1, requestTime := 0 },
      by decide +kernel, by decide +kernel⟩, by decide +kernel, by decide +kernel⟩
  have haway : CheckedAway (fun _ => []) (refused oneBlockTorrent) 0 0 [7] :=
    ⟨by decide +kernel, by decide +kernel, by decide +kernel, by decide +kernel⟩
  exact (keepsFailedBlock_iff (wellFormed_refused _) (by decide) haccepts).2 (.inr haway)

/-- A torrent of one piece, with a block and a byte. -/
def blockAndByteTorrent : TorrentInfo where
  name := ascii "a"
  pieceLength := 16385
  pieces := List.replicate 20 0
  fileName := ascii "a"
  fileLength := 16385

/-- The byte is not written, and counts as received. -/
theorem not_forall_keepsFailedBlock : ¬ ∀ (sha1 : Bytes → Bytes) (d : Downloader) (ptr : ℕ)
    (payload : Bytes) (failing : List ℕ), d.WellFormed → 8 ≤ payload.length →
      d.Accepts (bytesToInt payload) (bytesToInt (payload.drop 4)) ptr (payload.drop 8) →
        KeepsFailedBlock sha1 d ptr payload failing := by
  intro h
  have haccepts : (refused blockAndByteTorrent).Accepts 0 16384 1 [7] :=
    ⟨⟨{ pieceIndex := 0, offset := 16384, length := 1, peer := 1, requestTime := 0 },
      by decide +kernel, by decide +kernel⟩, by decide +kernel, by decide +kernel⟩
  have hpart : ¬ (refused blockAndByteTorrent).AllWritten 0 16384 [7] := by decide +kernel
  have hkept := h (fun _ => []) _ 1 [0, 0, 0, 0, 0, 0, 64, 0, 7] [] (wellFormed_refused _)
    (by decide) haccepts hpart
  have hreceived : ((refused blockAndByteTorrent).handleBlock (fun _ => []) 1
      [0, 0, 0, 0, 0, 0, 64, 0, 7] []).blockReceived 0 1 = true := by decide +kernel
  exact absurd (hreceived.symm.trans hkept.received) (by decide)

end Gush.Downloader
