import Gush.Downloader.Restart
import Gush.Downloader.Asking
import Gush.Downloader.Selection
import Gush.Downloader.Lifecycle
import Gush.Downloader.WriteFailure
import Gush.Wire.Message
import Mathlib.Data.Bool.Count

/-!
# A seeder completes the download

Whatever has happened in a run so far, a single connected peer that has all pieces and answers what
it is asked for is enough to complete it. Pieces may have been spoiled by others: a piece that holds
a wrong block fails its check once, and is asked for again. `blockDebt` counts the answers that are
still needed for a block, two at most, so every answer of the seeder lowers that of its block by one
(`Served.serve`).
-/

namespace Gush.Downloader

open Cxx Posix Slice Finset InFlight

/-! ### The content of a torrent -/

/-- The bytes of a piece in the content of the torrent. -/
def contentPiece (torrent : TorrentInfo) (content : Bytes) (i : ℕ) : Bytes :=
  slice content (i * torrent.pieceLength.toInt).toNat (pieceSize torrent i).toNat

/-- The content that the torrent was made of, as far as hashes can tell. -/
structure IsContent (sha1 : Bytes → Bytes) (torrent : TorrentInfo) (content : Bytes) : Prop where
  length : (content.length : ℤ) = torrent.totalLength
  hashes : ∀ i < torrent.numPieces, sha1 (contentPiece torrent content i) = expectedHash torrent i

/-- The data that a request asks for. -/
def requestedData (torrent : TorrentInfo) (content : Bytes) (req : BlockRequest) : Bytes :=
  slice content ((req.pieceIndex * torrent.pieceLength.toInt).toNat + req.offset) req.length

/-- The answer to a request. -/
def answer (torrent : TorrentInfo) (content : Bytes) (req : BlockRequest) : PeerMessage where
  id := .block
  payload := Wire.intToBytes req.pieceIndex ++ (Wire.intToBytes req.offset ++
    requestedData torrent content req)

/-! ### What the seeder does, and what the others may do -/

/-- The connection is there, and its peer has all pieces and does not choke. -/
def Seeds (d : Downloader) (ptr : ℕ) : Prop :=
  ∃ peer, d.findPeer ptr = some peer ∧ peer.connected = true ∧ peer.peerChoking = false ∧
    ∀ i < d.torrent.numPieces, peer.hasPiece i = true

/-- A step while only the seeder is asked for blocks: it answers requests in some order, no call
fails, and no answer takes longer than the timeout. Other connections come and go, and their
messages may be anything. -/
def Serves (content : Bytes) (ptr : ℕ) (d : Downloader) : Event → Prop
  | .connections peers => Seeds { d with peers } ptr
  | .message p msg faults _ => p ≠ ptr ∨ (msg.id ≠ .choke ∧ msg.id ≠ .block) ∨
      (faults = [] ∧ ∃ req ∈ d.pendingRequests, msg = answer d.torrent content req)
  | .request p sends _ => p = ptr ∧ ∀ sent ∈ sends, sent = true
  | .timeouts now => ∀ req ∈ d.pendingRequests, now - req.requestTime ≤ 15000
  | .endgame _ => True

/-- Whether an event is a block from a peer. -/
def isBlockFrom (ptr : ℕ) : Event → Bool
  | .message p msg _ _ => decide (p = ptr ∧ msg.id = .block)
  | _ => false

/-- Whether an event is one block from a peer. -/
def isAnswerFor (ptr i b : ℕ) : Event → Bool
  | .message p msg _ _ => decide (p = ptr ∧ msg.id = .block ∧ bytesToInt msg.payload = i ∧
      bytesToInt (msg.payload.drop 4) / blockSize = b)
  | _ => false

/-! ### The answers that are still needed -/

/-- The received blocks of a piece are right. -/
def Intact (content : Bytes) (d : Downloader) (i : ℕ) : Prop :=
  ∀ b < d.blockCount i, d.blockReceived i b = true →
    slice (d.pieceOnDisk i) (b * blockSize) (blockLength d.torrent i b).toNat =
      slice (contentPiece d.torrent content i) (b * blockSize) (blockLength d.torrent i b).toNat

instance (content : Bytes) (d : Downloader) (i : ℕ) : Decidable (Intact content d i) :=
  inferInstanceAs (Decidable (∀ b < d.blockCount i, _))

/-- The answers that a block needs: one if it is missing, and one more if its piece is going to fail
its check. -/
def blockDebt (content : Bytes) (d : Downloader) (i b : ℕ) : ℕ :=
  if d.pieceCompleted i then 0
  else (if d.blockReceived i b then 0 else 1) + if Intact content d i then 0 else 1

/-- The answers that complete the download. -/
def debt (content : Bytes) (d : Downloader) : ℕ :=
  ∑ i ∈ range d.torrent.numPieces, ∑ b ∈ range (d.blockCount i), blockDebt content d i b

/-- The number of blocks of the torrent. -/
def totalBlockCount (d : Downloader) : ℕ := ∑ i ∈ range d.torrent.numPieces, d.blockCount i

variable {sha1 : Bytes → Bytes} {content : Bytes} {d d' : Downloader} {ptr : ℕ}

/-- The debt of a block depends on the flags and the bytes of its piece. -/
theorem blockDebt_congr {i : ℕ} (htorrent : d'.torrent = d.torrent)
    (hcompleted : d'.pieceCompleted i = d.pieceCompleted i)
    (hreceived : (d'.pieceState i).blocksReceived = (d.pieceState i).blocksReceived)
    (hcount : d'.blockCount i = d.blockCount i)
    (hdisk : 0 < d.blockCount i → d'.pieceOnDisk i = d.pieceOnDisk i) (b : ℕ) :
    blockDebt content d' i b = blockDebt content d i b := by
  have hblock : ∀ b, d'.blockReceived i b = d.blockReceived i b := by
    intro b
    rw [blockReceived, hreceived, blockReceived]
  have hintact : Intact content d' i ↔ Intact content d i := by
    rcases Nat.eq_zero_or_pos (d.blockCount i) with hzero | hpos
    · simp only [Intact, hcount, hzero, Nat.not_lt_zero, false_implies, implies_true]
    · simp only [Intact, htorrent, hcount, hdisk hpos, hblock]
  simp only [blockDebt, hcompleted, hblock, hintact]

theorem pieceOnDisk_congr (htorrent : d'.torrent = d.torrent) (hfiles : d'.outputFiles = d.outputFiles)
    (hfs : d'.world.fs = d.world.fs) (i : ℕ) : d'.pieceOnDisk i = d.pieceOnDisk i := by
  rw [pieceOnDisk, htorrent, hfiles, hfs, pieceOnDisk]

/-- Requests and connections do not count. -/
theorem Frame.blockDebt_eq (h : Frame d d') (i b : ℕ) :
    blockDebt content d' i b = blockDebt content d i b := by
  refine blockDebt_congr h.torrent ?_ (h.blocksReceived i) (h.blockCount i)
    (fun _ => pieceOnDisk_congr h.torrent h.outputFiles (by rw [h.world]) i) b
  rw [pieceCompleted, h.piecesCompleted, pieceCompleted]

/-- Every block is needed twice at most. -/
theorem blockDebt_le (d : Downloader) (i b : ℕ) : blockDebt content d i b ≤ 2 := by
  unfold blockDebt
  split_ifs <;> omega

theorem debt_le (d : Downloader) : debt content d ≤ 2 * d.totalBlockCount := by
  rw [debt, totalBlockCount, mul_sum]
  apply sum_le_sum
  intro i _
  calc ∑ b ∈ range (d.blockCount i), blockDebt content d i b
      ≤ ∑ _b ∈ range (d.blockCount i), 2 := sum_le_sum fun b _ => blockDebt_le d i b
    _ = 2 * d.blockCount i := by rw [sum_const, card_range, smul_eq_mul, mul_comm]

/-- Reachable states of one torrent have the same blocks. -/
theorem blockCount_eq (hd : d.WellFormed) (hd' : d'.WellFormed) (htorrent : d'.torrent = d.torrent)
    {i : ℕ} (hi : i < d.torrent.numPieces) : d'.blockCount i = d.blockCount i := by
  rw [blockCount, blockCount, hd'.totalBlocks i (htorrent ▸ hi), hd.totalBlocks i hi, htorrent]

theorem totalBlockCount_eq (hd : d.WellFormed) (hd' : d'.WellFormed) (htorrent : d'.torrent = d.torrent) :
    d'.totalBlockCount = d.totalBlockCount := by
  rw [totalBlockCount, totalBlockCount, htorrent]
  exact sum_congr rfl fun i hi => blockCount_eq hd hd' htorrent (mem_range.1 hi)

section Sums

variable (hd : d.WellFormed) (hd' : d'.WellFormed) (htorrent : d'.torrent = d.torrent)
  (hle : ∀ i b, blockDebt content d' i b ≤ blockDebt content d i b)

include hd hd' htorrent hle

/-- If no block needs more, then no piece does. -/
theorem sum_blockDebt_le {i : ℕ} (hi : i < d.torrent.numPieces) :
    ∑ b ∈ range (d'.blockCount i), blockDebt content d' i b ≤
      ∑ b ∈ range (d.blockCount i), blockDebt content d i b := by
  rw [blockCount_eq hd hd' htorrent hi]
  exact sum_le_sum fun b _ => hle i b

theorem debt_mono : debt content d' ≤ debt content d := by
  rw [debt, debt, htorrent]
  exact sum_le_sum fun i hi => sum_blockDebt_le hd hd' htorrent hle (mem_range.1 hi)

/-- If moreover one block needs less, then less is needed in all. -/
theorem debt_lt {i b : ℕ} (hb : b < d.blockCount i)
    (hlt : blockDebt content d' i b < blockDebt content d i b) : debt content d' < debt content d := by
  have hi := hd.lt_numPieces hb
  rw [debt, debt, htorrent]
  apply sum_lt_sum
  · exact fun j hj => sum_blockDebt_le hd hd' htorrent hle (mem_range.1 hj)
  · refine ⟨i, mem_range.2 hi, ?_⟩
    rw [blockCount_eq hd hd' htorrent hi]
    exact sum_lt_sum (fun c _ => hle i c) ⟨b, mem_range.2 hb, hlt⟩

end Sums

/-! ### Pieces of the content -/

theorem length_contentPiece (hcontent : IsContent sha1 d.torrent content) (ht : Fitting d.torrent)
    {i : ℕ} (hi : i < d.torrent.numPieces) :
    ((contentPiece d.torrent content i).length : ℤ) = pieceSize d.torrent i := by
  have hlength := hcontent.length
  have hsize := pieceSize_eq ht.accepted hi
  have hpos := pieceSize_pos ht.accepted hi
  have hnonneg := pieceStart_nonneg ht.accepted i
  have hstart := ht.accepted.piece_start_lt hi
  rw [contentPiece, length_slice]
  omega

/-- A piece whose blocks are all there and right is verified. -/
theorem verified_of_intact (hspread : d.Spread) (hd : d.WellFormed) (ht : Fitting d.torrent)
    (hcontent : IsContent sha1 d.torrent content) {i : ℕ} (hi : i < d.torrent.numPieces)
    (hintact : Intact content d i) (hfull : ∀ b < d.blockCount i, d.blockReceived i b = true) :
    d.VerifiedOnDisk sha1 i := by
  have hlength : ((d.pieceOnDisk i).length : ℤ) = pieceSize d.torrent i := by
    have hdisk := length_disk hspread.mounted
    have hsum := hspread.length
    have hsize := pieceSize_eq ht.accepted hi
    have hpos := pieceSize_pos ht.accepted hi
    have hnonneg := pieceStart_nonneg ht.accepted i
    have hstart := ht.accepted.piece_start_lt hi
    rw [pieceOnDisk, length_slice]
    omega
  have hlength' := length_contentPiece hcontent ht hi
  have hblocks := le_blocks hd ht hi
  have hstarts := block_start_lt hd ht hi
  have hpiece : d.pieceOnDisk i = contentPiece d.torrent content i := by
    apply eq_of_chunks (c := blockSize) (n := d.blockCount i) (by decide) (by omega) (by omega)
    intro b hb
    have hstart := hstarts b hb
    have hsize : (blockLength d.torrent i b).toNat =
        min blockSize ((contentPiece d.torrent content i).length - b * blockSize) := by
      rw [blockLength, Chunks.size]
      omega
    rw [← hsize]
    exact hintact b hb (hfull b hb)
  exact ⟨by rw [hpiece, hcontent.hashes i hi], hlength⟩

/-- Where all blocks have arrived, a piece that is right passes its check. -/
theorem verifyPiece_of_intact (hspread : d.Spread) (hfaults : d.world.faults = []) (hd : d.WellFormed)
    (ht : Fitting d.torrent) (hcontent : IsContent sha1 d.torrent content) (htallied : Tallied d) {i : ℕ}
    (hi : i < d.torrent.numPieces)
    (hfull : (d.pieceState i).receivedBlocks ≥ (d.pieceState i).totalBlocks)
    (hintact : Intact content d i) : (verifyPiece sha1 d i).1 = true := by
  have hreceived := htallied.received i
  have hall := (full_iff hd ht hi hreceived).1 (le_antisymm (receivedBlocks_le hd ht hi hreceived) hfull)
  exact (hspread.verifyPiece_iff sha1 hfaults ht hi).2
    (verified_of_intact hspread hd ht hcontent hi hintact hall)

/-! ### A right block arrives -/

section Accept

variable (ptr : ℕ) (hsound : Sound sha1 d) (hspread : d.Spread) (hd : d.WellFormed) (ht : Fitting d.torrent)
  (hfaults : d.world.faults = []) {i b : ℕ} (hb : b < d.blockCount i) {blockData : Bytes}
  (hlength : (blockData.length : ℤ) = blockLength d.torrent i b)

include hsound hspread hd ht hfaults hb hlength

omit hsound hspread hfaults in
theorem block_inside : ((b * blockSize : ℕ) : ℤ) + blockData.length ≤ pieceSize d.torrent i := by
  have hstart := block_start_lt hd ht (hd.lt_numPieces hb) b hb
  rw [hlength, blockLength, Chunks.size]
  push_cast
  omega

/-- The piece on disk changes within the block only, where the data is now. -/
theorem pieceOnDisk_acceptBlock_own :
    AgreeOutside (b * blockSize) (b * blockSize + blockData.length) (d.pieceOnDisk i)
        ((d.acceptBlock i (b * blockSize) ptr blockData).pieceOnDisk i) ∧
      slice ((d.acceptBlock i (b * blockSize) ptr blockData).pieceOnDisk i) (b * blockSize)
        blockData.length = blockData := by
  have hi := hd.lt_numPieces hb
  have hend := block_inside hd ht hb hlength
  have hsize := pieceSize_eq ht.accepted hi
  have hnonneg := pieceStart_nonneg ht.accepted i
  have hstart := ht.accepted.piece_start_lt hi
  have htotal := ht.end_lt
  have hsum := hspread.length
  have hpos : (i * d.torrent.pieceLength.toInt + ((b * blockSize : ℕ) : ℤ)).toNat =
      (i * d.torrent.pieceLength.toInt).toNat + b * blockSize := by omega
  have hagree := (wrote_acceptBlock hsound ht hi hend ptr).agree.on_slice
    (i * d.torrent.pieceLength.toInt).toNat (pieceSize d.torrent i).toNat
  have hall : writtenBytes d.outputFiles
      (i * d.torrent.pieceLength.toInt + ((b * blockSize : ℕ) : ℤ)) blockData d.world =
        blockData.length :=
    writtenBytes_eq hspread.consecutive hspread.mounted hfaults (by omega) (by omega)
  have hstored := writeLoop_stored hspread.consecutive hspread.mounted (by omega) hall
  have hint : int64 ((i : ℤ) * d.torrent.pieceLength.toInt + ((b * blockSize : ℕ) : ℤ)) =
      i * d.torrent.pieceLength.toInt + ((b * blockSize : ℕ) : ℤ) :=
    int64_of_range (by omega) (by omega)
  have hworld : (d.acceptBlock i (b * blockSize) ptr blockData).world = writeLoop d.outputFiles
      (i * d.torrent.pieceLength.toInt + ((b * blockSize : ℕ) : ℤ)) blockData d.world := by
    rw [← hint]
    rfl
  have hpiece : (d.acceptBlock i (b * blockSize) ptr blockData).pieceOnDisk i =
      slice (disk (writeLoop d.outputFiles (i * d.torrent.pieceLength.toInt +
        ((b * blockSize : ℕ) : ℤ)) blockData d.world).fs d.outputFiles)
        (i * d.torrent.pieceLength.toInt).toNat (pieceSize d.torrent i).toNat := by
    rw [← hworld]
    rfl
  rw [hworld, hpos] at hagree
  rw [sub_zero, hpos] at hstored
  rw [hpiece]
  constructor
  · have hlo : (i * d.torrent.pieceLength.toInt).toNat + b * blockSize -
        (i * d.torrent.pieceLength.toInt).toNat = b * blockSize := by omega
    have hhi : (i * d.torrent.pieceLength.toInt).toNat + b * blockSize + blockData.length -
        (i * d.torrent.pieceLength.toInt).toNat = b * blockSize + blockData.length := by omega
    rw [hlo, hhi] at hagree
    exact hagree
  · rw [slice_slice, min_eq_left (by omega), hstored]

/-- A right block keeps a piece right. -/
theorem intact_acceptBlock
    (hdata : blockData = slice (contentPiece d.torrent content i) (b * blockSize) blockData.length)
    (h : Intact content d i) :
    Intact content (d.acceptBlock i (b * blockSize) ptr blockData) i := by
  obtain ⟨hagree, hstored⟩ := pieceOnDisk_acceptBlock_own ptr hsound hspread hd ht hfaults hb
    hlength
  have hdiv : b * blockSize / blockSize = b := Nat.mul_div_cancel b (by decide)
  intro c hc hreceived
  rw [blockCount_acceptBlock] at hc
  rw [blockReceived_acceptBlock i ptr blockData hd (by rwa [hdiv]), blockAt, hdiv] at hreceived
  show slice _ _ (blockLength d.torrent i c).toNat =
    slice (contentPiece d.torrent content i) _ (blockLength d.torrent i c).toNat
  by_cases hbc : b = c
  · subst hbc
    have hnat : (blockLength d.torrent i b).toNat = blockData.length := by omega
    rw [hnat, hstored, ← hdata]
  · rw [if_neg fun heq => hbc (Prod.ext_iff.1 heq).2] at hreceived
    rw [← h c hc hreceived]
    apply hagree.slice_eq
    have hsize : blockLength d.torrent i c ≤ blockSize := min_le_left _ _
    have hsize' : blockLength d.torrent i b ≤ blockSize := min_le_left _ _
    have hmul : b < c ∨ c < b := by omega
    rcases hmul with hlt | hgt
    · have hstep : (b + 1) * blockSize ≤ c * blockSize := Nat.mul_le_mul_right _ hlt
      rw [Nat.succ_mul] at hstep
      exact .inr (by omega)
    · have hstep : (c + 1) * blockSize ≤ b * blockSize := Nat.mul_le_mul_right _ hgt
      rw [Nat.succ_mul] at hstep
      exact .inl (by omega)

end Accept

/-- The check of a piece writes nothing. -/
theorem pieceOnDisk_checkPiece (sha1 : Bytes → Bytes) (d : Downloader) (i j : ℕ) :
    (d.checkPiece sha1 i).pieceOnDisk j = d.pieceOnDisk j := by
  obtain ⟨htorrent, -, hfiles⟩ := checkPiece_fields sha1 d i
  exact pieceOnDisk_congr htorrent hfiles (fs_checkPiece sha1 d i) j

/-- The check of a piece does not concern the others. -/
theorem blockDebt_checkPiece_of_ne {i j : ℕ} (hi : i < d.pieceStates.length) (hne : i ≠ j) (c : ℕ) :
    blockDebt content (d.checkPiece sha1 i) j c = blockDebt content d j c := by
  have hothers : (d.checkPiece sha1 i).pieceState j = d.pieceState j ∧
      (d.checkPiece sha1 i).pieceCompleted j = d.pieceCompleted j := by
    rcases checkPiece_eq sha1 d i with ⟨-, heq⟩ | ⟨-, world, ⟨-, heq⟩ | ⟨-, heq⟩⟩ <;> rw [heq]
    · exact ⟨rfl, rfl⟩
    · refine ⟨rfl, ?_⟩
      simp [pieceCompleted, List.getD_eq_getElem?_getD, List.getElem?_set_ne hne]
    · rw [pieceState_failPiece { d with world } i hi, if_neg hne]
      exact ⟨rfl, rfl⟩
  refine blockDebt_congr (checkPiece_fields sha1 d i).1 hothers.2 (by rw [hothers.1]) ?_
    (fun _ => pieceOnDisk_checkPiece sha1 d i j) c
  rw [blockCount, hothers.1, blockCount]

/-- The check makes no block need more: where a piece fails it, the piece was not right. -/
theorem blockDebt_checkPiece_le (hspread : d.Spread) (hfaults : d.world.faults = [])
    (hd : d.WellFormed) (ht : Fitting d.torrent) (hcontent : IsContent sha1 d.torrent content)
    (htallied : Tallied d) {i : ℕ} (hi : i < d.torrent.numPieces) (j c : ℕ) :
    blockDebt content (d.checkPiece sha1 i) j c ≤ blockDebt content d j c := by
  have hstates : i < d.pieceStates.length := by rwa [hd.states_length]
  by_cases hij : i = j
  · subst hij
    rcases checkPiece_eq sha1 d i with ⟨-, heq⟩ | ⟨hfull, world, ⟨-, heq⟩ | ⟨hv, heq⟩⟩ <;> rw [heq]
    -- the piece is complete
    · have hcompleted : pieceCompleted { d with
          world
          piecesCompleted := d.piecesCompleted.set i true
          piecesCompletedCount := d.piecesCompletedCount + 1 } i = true := by
        have hlt : i < d.piecesCompleted.length := by rwa [hd.completed_length]
        simp [pieceCompleted, List.getD_eq_getElem?_getD, hlt]
      rw [blockDebt, if_pos hcompleted]
      exact Nat.zero_le _
    -- the piece has failed, and nothing of it counts as received
    · have hbroken : ¬ Intact content d i := by
        intro hright
        have htrue := verifyPiece_of_intact hspread hfaults hd ht hcontent htallied hi hfull hright
        rw [hv] at htrue
        cases htrue
      have hreset : ∀ c, (failPiece { d with world } i).blockReceived i c = false := by
        intro c
        rw [(flags_failPiece { d with world } i hstates i c).2, if_pos rfl]
      have hnone : Intact content (failPiece { d with world } i) i := by
        intro c _ hon
        rw [hreset c] at hon
        cases hon
      have hcompleted : (failPiece { d with world } i).pieceCompleted i = d.pieceCompleted i := rfl
      rw [blockDebt, blockDebt, hcompleted, hreset c, if_pos hnone, if_neg hbroken]
      split_ifs <;> omega
  · exact (blockDebt_checkPiece_of_ne hstates hij c).le

section Settle

variable (ptr : ℕ) (hsound : Sound sha1 d) (hspread : d.Spread) (hd : d.WellFormed) (ht : Fitting d.torrent)
  (hfaults : d.world.faults = []) (hcounted : Counted d) {i b : ℕ} (hb : b < d.blockCount i)
  (hmissing : d.blockReceived i b = false) {blockData : Bytes}
  (hlength : (blockData.length : ℤ) = blockLength d.torrent i b)
  (hdata : blockData = slice (contentPiece d.torrent content i) (b * blockSize) blockData.length)

include hsound hspread hd ht hfaults hb hlength

/-- After an accepted block everything is in place for the check. -/
theorem spread_acceptBlock : (d.acceptBlock i (b * blockSize) ptr blockData).Spread ∧
    (d.acceptBlock i (b * blockSize) ptr blockData).world.faults = [] := by
  have hi := hd.lt_numPieces hb
  have hwrote := wrote_acceptBlock hsound ht hi (block_inside hd ht hb hlength) ptr
  exact ⟨⟨hspread.consecutive, hwrote.mounted, hspread.length⟩,
    faults_writeLoop hspread.consecutive hspread.mounted hfaults⟩

include hcounted hmissing hdata

/-- The block needs less, and no other block needs more. -/
theorem blockDebt_acceptBlock (j c : ℕ) :
    blockDebt content (d.acceptBlock i (b * blockSize) ptr blockData) j c +
      (if i = j ∧ b = c then 1 else 0) ≤ blockDebt content d j c := by
  have hi := hd.lt_numPieces hb
  have hdiv : b * blockSize / blockSize = b := Nat.mul_div_cancel b (by decide)
  by_cases hij : i = j
  · subst hij
    have hreceived : (d.acceptBlock i (b * blockSize) ptr blockData).blockReceived i c =
        if b = c then true else d.blockReceived i c := by
      rw [blockReceived_acceptBlock i ptr blockData hd (by rwa [hdiv]), blockAt, hdiv]
      simp only [Prod.mk.injEq, true_and]
    have hopen := hcounted.pieceCompleted_eq_false hd ht hb hmissing
    have hopen' : (d.acceptBlock i (b * blockSize) ptr blockData).pieceCompleted i = false := hopen
    -- the piece stays right if it was
    have hright : (if Intact content (d.acceptBlock i (b * blockSize) ptr blockData) i then 0 else 1) ≤
        if Intact content d i then 0 else 1 := by
      by_cases hintact : Intact content d i
      · rw [if_pos (intact_acceptBlock ptr hsound hspread hd ht hfaults hb hlength hdata hintact)]
        exact Nat.zero_le _
      · rw [if_neg hintact]
        split_ifs <;> omega
    rw [blockDebt, blockDebt, hopen, hopen', hreceived]
    simp only [true_and, Bool.false_eq_true, if_false]
    by_cases hbc : b = c
    · subst hbc
      simp only [hmissing, if_true, Bool.false_eq_true, if_false]
      omega
    · simp only [hbc, if_false]
      omega
  · rw [if_neg fun h => hij h.1, add_zero]
    have hstate : (d.acceptBlock i (b * blockSize) ptr blockData).pieceState j = d.pieceState j := by
      rw [acceptBlock, pieceState_modifyPiece, if_neg fun hj => hij hj.1]
      rfl
    have hlt := block_inside hd ht hb hlength
    have hsame : blockDebt content (d.acceptBlock i (b * blockSize) ptr blockData) j c =
        blockDebt content d j c := by
      apply blockDebt_congr
      · rfl
      · rfl
      · rw [hstate]
      · exact blockCount_acceptBlock d i (b * blockSize) ptr blockData j
      · exact fun hpos => pieceOnDisk_acceptBlock hsound ht hi hlt ptr (hd.lt_numPieces hpos) (Ne.symm hij)
    exact hsame.le

/-- The same with the check behind it. -/
theorem blockDebt_arrived (hcontent : IsContent sha1 d.torrent content) (j c : ℕ) : blockDebt content
    ((d.acceptBlock i (b * blockSize) ptr blockData).checkPiece sha1 i) j c +
      (if i = j ∧ b = c then 1 else 0) ≤ blockDebt content d j c := by
  have hdiv : b * blockSize / blockSize = b := Nat.mul_div_cancel b (by decide)
  obtain ⟨hspread', hfaults'⟩ := spread_acceptBlock ptr hsound hspread hd ht hfaults hb hlength
  have htallied : Tallied (d.acceptBlock i (b * blockSize) ptr blockData) :=
    tallied_acceptBlock hd (by rwa [hdiv]) (by rwa [hdiv]) ptr blockData ht hcounted.toTallied
      (by rwa [hdiv])
  have haccept := blockDebt_acceptBlock ptr hsound hspread hd ht hfaults hcounted hb hmissing hlength
    hdata j c
  have hcheck := blockDebt_checkPiece_le hspread' hfaults' (wellFormed_acceptBlock i ptr blockData hd) ht
    hcontent htallied (hd.lt_numPieces hb) j c
  omega

end Settle

/-! ### One step -/

/-- The state while only the seeder is asked for blocks. -/
structure Served (sha1 : Bytes → Bytes) (torrent : TorrentInfo) (ptr : ℕ) (d : Downloader) : Prop where
  tracked : Tracked torrent d
  sound : Sound sha1 d
  length : (d.outputFiles.map OutputFile.length).sum = torrent.totalLength
  room : 0 < d.options.maxRequestsPerPeer
  seeds : Seeds d ptr
  backed : Backed d.ledger
  distinct : Distinct d.ledger
  lone : Lone ptr d.ledger

namespace Served

variable {torrent : TorrentInfo} (h : Served sha1 torrent ptr d) (ht : Fitting torrent)

include h

theorem spread : d.Spread :=
  ⟨h.sound.consecutive, h.sound.mounted, by rw [h.length, h.tracked.torrent_eq]⟩

/-- A pending request is with the seeder, and its block is missing and marked. -/
theorem pending {req : BlockRequest} (hreq : req ∈ d.pendingRequests) :
    req.peer = ptr ∧ d.blockRequested req.pieceIndex (req.offset / blockSize) = true ∧
      d.blockReceived req.pieceIndex (req.offset / blockSize) = false := by
  have hmem : entry req ∈ d.ledger.pending := List.mem_map_of_mem hreq
  obtain ⟨hpeer, hflag⟩ := h.lone (entry req) hmem
  refine ⟨hpeer, hflag, ?_⟩
  cases hreceived : d.blockReceived req.pieceIndex (req.offset / blockSize) with
  | false => rfl
  | true =>
    have hzero := List.countP_eq_zero.1 (h.distinct.missing (entry req).block hreceived) _ hmem
    simp at hzero

include ht

/-- Most of the invariant is kept by every step. -/
theorem next (event : Event) (hseeds : Seeds (step sha1 d event) ptr)
    (hlone : Lone ptr (step sha1 d event).ledger) : Served sha1 torrent ptr (step sha1 d event) := by
  have hanew : d.AsksAnew event := by
    cases event with
    | request p sends now =>
      intro i _ req hreq hpiece _ _
      rw [← hpiece]
      exact (h.pending hreq).2.1
    | _ => trivial
  obtain ⟨-, hoptions, hfiles⟩ := step_fields sha1 d event
  obtain ⟨hsteps, -⟩ := steps_of_step True sha1 h.tracked.orderly event fun _ => hanew
  exact {
    tracked := h.tracked.step ht sha1 event
    sound := sound_step h.sound h.tracked.orderly (h.tracked.torrent_eq.symm ▸ ht) h.tracked.counted
      event
    length := by rw [hfiles, h.length]
    room := by rw [hoptions]; exact h.room
    seeds := hseeds
    backed := hsteps.backed h.backed
    distinct := hsteps.distinct trivial h.distinct
    lone := hlone }

end Served

/-- Erasing without anything to erase. -/
theorem eraseRequests_of_none {selected : BlockRequest → Bool}
    {onErase : BlockRequest → Downloader → Downloader}
    (h : ∀ req ∈ d.pendingRequests, selected req = false) : d.eraseRequests selected onErase = d := by
  have hnone : d.pendingRequests.filter selected = [] :=
    List.filter_eq_nil_iff.2 fun req hreq => by simp [h req hreq]
  have hall : (d.pendingRequests.filter fun req => !selected req) = d.pendingRequests :=
    List.filter_eq_self.2 fun req hreq => by simp [h req hreq]
  rw [eraseRequests, eraseLoop_eq, hnone, hall]
  rfl

/-- Messages of peers that have not been asked for anything do nothing. -/
theorem handleMessage_of_other {p : ℕ} (h : ∀ req ∈ d.pendingRequests, req.peer ≠ p)
    (msg : PeerMessage) (failing : List ℕ) : d.handleMessage sha1 p msg failing = d := by
  unfold handleMessage
  split
  · exact eraseRequests_of_none fun req hreq => decide_eq_false (h req hreq)
  · rcases handleBlock_cases sha1 d p msg.payload failing with heq | ⟨i, offset, data, req, hfind, -⟩
    · exact heq
    · obtain ⟨-, -, hpeer, -⟩ := find_answered hfind
      exact absurd hpeer (h req (List.mem_of_find?_eq_some hfind))
  · rfl

/-- What asking for one more block keeps, the loop keeps if no send fails. -/
theorem requestLoop_keeps {P : Downloader → Prop} {i : ℕ} {now : ℤ} {blocks : List ℕ}
    (hadd : ∀ d, ∀ b ∈ blocks, P d → P (d.addRequest i b ptr now)) :
    ∀ {currentRequests : ℤ} {sends : List Bool} {d : Downloader}, (∀ sent ∈ sends, sent = true) →
      P d → P (requestLoop i ptr now blocks currentRequests sends d) := by
  induction blocks with
  | nil => exact fun _ hd => hd
  | cons b blocks ih =>
    intro currentRequests sends d hsends hd
    have hrest : ∀ d, ∀ b ∈ blocks, P d → P (d.addRequest i b ptr now) :=
      fun d c hc => hadd d c (List.mem_cons_of_mem b hc)
    rw [requestLoop]
    split_ifs with hlimit hreceived hskip hsend
    · exact hd
    · exact ih hrest hsends hd
    · exact ih hrest hsends hd
    · exact ih hrest (fun sent hsent => hsends sent (List.mem_of_mem_tail hsent))
        (hadd d b List.mem_cons_self hd)
    · cases sends with
      | nil => exact absurd rfl hsend
      | cons sent sends => exact absurd (hsends sent List.mem_cons_self) hsend

/-- Asking the seeder keeps its connection and adds marked requests only. -/
theorem requestBlocksFromPeer_lone (hd : Orderly d) (hlone : Lone ptr d.ledger) {sends : List Bool}
    (hsends : ∀ sent ∈ sends, sent = true) (now : ℤ) :
    (d.requestBlocksFromPeer ptr sends now).peers = d.peers ∧
      Lone ptr (d.requestBlocksFromPeer ptr sends now).ledger := by
  unfold requestBlocksFromPeer
  split
  · exact ⟨rfl, hlone⟩
  · rename_i i _
    have hadd : ∀ s : Downloader, ∀ b ∈ List.range (d.blockCount i),
        (Orderly s ∧ s.blockCount i = d.blockCount i ∧ s.peers = d.peers ∧ Lone ptr s.ledger) →
        Orderly (s.addRequest i b ptr now) ∧
          (s.addRequest i b ptr now).blockCount i = d.blockCount i ∧
          (s.addRequest i b ptr now).peers = d.peers ∧ Lone ptr (s.addRequest i b ptr now).ledger := by
      rintro s b hb ⟨hs, hcount, hpeers, hl⟩
      have hlt : b < s.blockCount i := by
        rw [hcount]
        exact List.mem_range.1 hb
      refine ⟨orderly_addRequest hs hlt ptr now, ?_, hpeers, ?_⟩
      · rw [(frame_addRequest s i b ptr now).blockCount, hcount]
      · rw [ledger_addRequest hs hlt]
        exact hl.ask (i, b)
    exact (requestLoop_keeps hadd hsends ⟨hd, rfl, rfl, hlone⟩).2.2

section Answer

variable {torrent : TorrentInfo} (h : Served sha1 torrent ptr d) (ht : Fitting torrent)
  (hcontent : IsContent sha1 torrent content) (hfaults : d.world.faults = []) {req : BlockRequest}
  (hreq : req ∈ d.pendingRequests)

include h ht hcontent hreq

/-- A request is for a block of the content. -/
theorem Served.requestedData_eq :
    let b := req.offset / blockSize
    b < d.blockCount req.pieceIndex ∧ req.offset = b * blockSize ∧
      ((requestedData d.torrent content req).length : ℤ) = blockLength d.torrent req.pieceIndex b ∧
      (req.length : ℤ) = blockLength d.torrent req.pieceIndex b ∧
      requestedData d.torrent content req = slice (contentPiece d.torrent content req.pieceIndex)
        (b * blockSize) (requestedData d.torrent content req).length := by
  have hd := h.tracked.orderly.wellFormed
  have htd : Fitting d.torrent := h.tracked.torrent_eq.symm ▸ ht
  have hcd : IsContent sha1 d.torrent content := h.tracked.torrent_eq.symm ▸ hcontent
  intro b
  obtain ⟨hmod, hb⟩ := h.tracked.orderly.pending req hreq
  have hmeasured := h.tracked.counted.measured req hreq
  have hi := hd.lt_numPieces hb
  have hoffset : req.offset = b * blockSize := by
    have hdiv := Nat.div_add_mod req.offset blockSize
    rw [hmod, add_zero, mul_comm] at hdiv
    exact hdiv.symm
  have hstart := block_start_lt hd htd hi b hb
  have hpiece := length_contentPiece hcd htd hi
  have hfits : req.length ≤ (pieceSize d.torrent req.pieceIndex).toNat - b * blockSize := by
    have hlength : (req.length : ℤ) ≤ pieceSize d.torrent req.pieceIndex - b * blockSize := by
      rw [hmeasured]
      exact min_le_right _ _
    omega
  have hdata : requestedData d.torrent content req =
      slice (contentPiece d.torrent content req.pieceIndex) (b * blockSize) req.length := by
    rw [contentPiece, slice_slice, min_eq_left hfits, ← hoffset]
    rfl
  have hlength : (requestedData d.torrent content req).length = req.length := by
    rw [hdata, length_slice]
    omega
  exact ⟨hb, hoffset, by rw [hlength, hmeasured], hmeasured, by rw [hlength, ← hdata]⟩

/-- The client reads the answer as it was meant. -/
theorem Served.read_answer : 8 ≤ (answer d.torrent content req).payload.length ∧
    bytesToInt (answer d.torrent content req).payload = req.pieceIndex ∧
    bytesToInt ((answer d.torrent content req).payload.drop 4) = req.offset ∧
    (answer d.torrent content req).payload.drop 8 = requestedData d.torrent content req := by
  have htd : Fitting d.torrent := h.tracked.torrent_eq.symm ▸ ht
  obtain ⟨hb, hoffset, -⟩ := h.requestedData_eq ht hcontent hreq
  have hi := h.tracked.orderly.wellFormed.lt_numPieces hb
  have hcount := h.tracked.orderly.blockCount_le req.pieceIndex
  have hpiece := htd.numPieces_lt
  have hint : (Wire.intToBytes req.pieceIndex).length = 4 := Wire.length_intToBytes _
  have hint' : (Wire.intToBytes req.offset).length = 4 := Wire.length_intToBytes _
  have hsmall : req.offset < 2 ^ 32 := by
    rw [hoffset]
    unfold blockSize at *
    omega
  refine ⟨?_, Wire.bytesToInt_intToBytes (by omega) _, ?_, ?_⟩
  · simp only [answer, List.length_append, hint, hint']
    omega
  · rw [answer, List.drop_left' hint]
    exact Wire.bytesToInt_intToBytes hsmall _
  · rw [answer, ← List.append_assoc]
    exact List.drop_left' (by rw [List.length_append, hint, hint'])

/-- The answer is accepted, and no duplicates are there to be cancelled. -/
theorem Served.handle_answer (failing : List ℕ) :
    d.handleMessage sha1 ptr (answer d.torrent content req) failing =
      (d.acceptBlock req.pieceIndex req.offset ptr
        (requestedData d.torrent content req)).checkPiece sha1 req.pieceIndex := by
  obtain ⟨hheader, hpiece, hoffset, hdata⟩ := h.read_answer ht hcontent hreq
  obtain ⟨hb, -, hlength, hmeasured, -⟩ := h.requestedData_eq ht hcontent hreq
  obtain ⟨hpeer, -, hmissing⟩ := h.pending hreq
  have hfound : ∃ req', d.pendingRequests.find? (answers req.pieceIndex req.offset ptr) = some req' ∧
      (requestedData d.torrent content req).length = req'.length := by
    cases hfind : d.pendingRequests.find? (answers req.pieceIndex req.offset ptr) with
    | none => exact absurd (answers_iff.2 ⟨rfl, rfl, hpeer⟩) (List.find?_eq_none.1 hfind req hreq)
    | some req' =>
      obtain ⟨hpiece', hoffset', -, -⟩ := find_answered hfind
      have hmeasured' := h.tracked.counted.measured req' (List.mem_of_find?_eq_some hfind)
      rw [hpiece', hoffset'] at hmeasured'
      exact ⟨req', rfl, by omega⟩
  have haccepts : d.Accepts (bytesToInt (answer d.torrent content req).payload)
      (bytesToInt ((answer d.torrent content req).payload.drop 4)) ptr
      ((answer d.torrent content req).payload.drop 8) := by
    rw [hpiece, hoffset, hdata]
    exact ⟨hfound, Int.lt_toNat.1 hb, hmissing⟩
  have hhandle : d.handleMessage sha1 ptr (answer d.torrent content req) failing =
      d.handleBlock sha1 ptr (answer d.torrent content req).payload failing := rfl
  rw [hhandle, haccepts.handleBlock_eq hheader, hpiece, hoffset, hdata]
  have hrest : ∀ r ∈ ((d.acceptBlock req.pieceIndex req.offset ptr
      (requestedData d.torrent content req)).checkPiece sha1 req.pieceIndex).pendingRequests,
      r.peer = ptr := by
    intro r hr
    have hbefore := (releases_checkPiece sha1 _ req.pieceIndex).pending r hr
    exact (h.pending (List.mem_of_mem_eraseP hbefore)).1
  exact eraseRequests_of_none fun r hr => decide_eq_false fun hdup => hdup.2.2 (hrest r hr)

/-- What is left of the requests is still marked. -/
theorem Served.lone_answered : Lone ptr ((d.acceptBlock req.pieceIndex req.offset ptr
    (requestedData d.torrent content req)).checkPiece sha1 req.pieceIndex).ledger := by
  obtain ⟨hb, -⟩ := h.requestedData_eq ht hcontent hreq
  intro e he
  obtain ⟨r, hr, rfl⟩ := List.mem_map.1 he
  have hbefore := (releases_checkPiece sha1 _ req.pieceIndex).pending r hr
  obtain ⟨hpeer, hflag, -⟩ := h.pending (List.mem_of_mem_eraseP hbefore)
  refine ⟨hpeer, ?_⟩
  rcases checkPiece_cases sha1 (d.acceptBlock req.pieceIndex req.offset ptr
    (requestedData d.torrent content req)) req.pieceIndex with ⟨-, hsame, -⟩ | ⟨world, heq⟩
  · show (_ : Downloader).blockRequested r.pieceIndex (r.offset / blockSize) = true
    rw [blockRequested, pieceState, hsame]
    exact (blockRequested_acceptBlock d req.pieceIndex req.offset ptr _ r.pieceIndex _).trans hflag
  -- the requests of a failed piece are gone
  · rw [heq] at hr ⊢
    have hne : req.pieceIndex ≠ r.pieceIndex := by
      have hkept := (List.mem_filter.1 hr).2
      simpa using (of_decide_eq_true hkept : r.pieceIndex ≠ req.pieceIndex).symm
    have hflags := (flags_failPiece { d.acceptBlock req.pieceIndex req.offset ptr
      (requestedData d.torrent content req) with world } req.pieceIndex
      (lt_length_acceptBlock (Int.lt_toNat.1 hb) ptr _) r.pieceIndex (r.offset / blockSize)).1
    rw [if_neg hne] at hflags
    refine hflags.trans ?_
    exact (blockRequested_acceptBlock d req.pieceIndex req.offset ptr _ r.pieceIndex _).trans hflag

end Answer

theorem Seeds.congr (h : Seeds d ptr) (htorrent : d'.torrent = d.torrent) (hpeers : d'.peers = d.peers) :
    Seeds d' ptr := by
  obtain ⟨peer, hfind, hconnected, hchoking, hhas⟩ := h
  refine ⟨peer, ?_, hconnected, hchoking, htorrent ▸ hhas⟩
  rw [findPeer, hpeers]
  exact hfind

theorem peers_checkPiece (sha1 : Bytes → Bytes) (d : Downloader) (i : ℕ) :
    (d.checkPiece sha1 i).peers = d.peers := by
  rcases checkPiece_eq sha1 d i with ⟨-, heq⟩ | ⟨-, world, ⟨-, heq⟩ | ⟨-, heq⟩⟩ <;> rw [heq]
  rfl

/-- The failures that the next calls meet do not matter. -/
theorem Served.with_faults {torrent : TorrentInfo} (h : Served sha1 torrent ptr d)
    (faults : List Fault) :
    Served sha1 torrent ptr { d with world := { d.world with faults } } := by
  obtain ⟨horderly, hcounted⟩ := h.tracked.orderly.with_faults h.tracked.counted faults
  exact {
    tracked := ⟨horderly, h.tracked.torrent_eq, hcounted⟩
    sound := h.sound.congr rfl rfl rfl rfl
    length := h.length
    room := h.room
    seeds := h.seeds.congr rfl rfl
    backed := h.backed
    distinct := h.distinct
    lone := h.lone }

theorem blockDebt_same (htorrent : d'.torrent = d.torrent)
    (hcompleted : d'.piecesCompleted = d.piecesCompleted) (hstates : d'.pieceStates = d.pieceStates)
    (hfiles : d'.outputFiles = d.outputFiles) (hfs : d'.world.fs = d.world.fs) (i b : ℕ) :
    blockDebt content d' i b = blockDebt content d i b := by
  have hstate : d'.pieceState i = d.pieceState i := by rw [pieceState, hstates, pieceState]
  refine blockDebt_congr htorrent ?_ (by rw [hstate]) ?_
    (fun _ => pieceOnDisk_congr htorrent hfiles hfs i) b
  · rw [pieceCompleted, hcompleted, pieceCompleted]
  · rw [blockCount, hstate, blockCount]

/-- What the seeder sends is one block. -/
theorem Served.isAnswerFor_answer {torrent : TorrentInfo} (h : Served sha1 torrent ptr d)
    (ht : Fitting torrent) (hcontent : IsContent sha1 torrent content) {req : BlockRequest}
    (hreq : req ∈ d.pendingRequests) (faults : List Fault) (failing : List ℕ) (i b : ℕ) :
    isAnswerFor ptr i b (.message ptr (answer d.torrent content req) faults failing) =
      decide (req.pieceIndex = i ∧ req.offset / blockSize = b) := by
  obtain ⟨-, hpiece, hoffset, -⟩ := h.read_answer ht hcontent hreq
  have hid : (answer d.torrent content req).id = .block := rfl
  simp only [isAnswerFor, hpiece, hoffset, hid, true_and]

/-- A step keeps the invariant, and lowers the debt of the block that the seeder sends. -/
theorem Served.serve {torrent : TorrentInfo} (h : Served sha1 torrent ptr d) (ht : Fitting torrent)
    (hcontent : IsContent sha1 torrent content) {event : Event} (hserves : Serves content ptr d event) :
    Served sha1 torrent ptr (step sha1 d event) ∧ ∀ i b,
      blockDebt content (step sha1 d event) i b + (if isAnswerFor ptr i b event then 1 else 0) ≤
        blockDebt content d i b := by
  cases event with
  | connections peers =>
    exact ⟨h.next ht _ hserves h.lone, fun i b => (blockDebt_same rfl rfl rfl rfl rfl i b).le⟩
  | endgame value =>
    exact ⟨h.next ht _ (h.seeds.congr rfl rfl) h.lone,
      fun i b => (blockDebt_same rfl rfl rfl rfl rfl i b).le⟩
  | request p sends now =>
    obtain ⟨rfl, hsends⟩ := hserves
    obtain ⟨hpeers, hlone⟩ := requestBlocksFromPeer_lone h.tracked.orderly h.lone hsends now
    have hframe := frame_requestBlocksFromPeer d p sends now
    exact ⟨h.next ht _ (h.seeds.congr hframe.torrent hpeers) hlone,
      fun i b => (hframe.blockDebt_eq i b).le⟩
  | timeouts now =>
    have hsame : step sha1 d (.timeouts now) = d :=
      eraseRequests_of_none fun req hreq => decide_eq_false (not_lt.2 (hserves req hreq))
    rw [hsame]
    exact ⟨h, fun _ _ => le_rfl⟩
  | message p msg faults failing =>
    have hfaults := h.with_faults faults
    have hnothing : handleMessage sha1 { d with world := { d.world with faults } } p msg failing =
          { d with world := { d.world with faults } } → ¬ (p = ptr ∧ msg.id = .block) →
        Served sha1 torrent ptr (step sha1 d (.message p msg faults failing)) ∧ ∀ i b,
          blockDebt content (step sha1 d (.message p msg faults failing)) i b +
            (if isAnswerFor ptr i b (.message p msg faults failing) then 1 else 0) ≤
              blockDebt content d i b := by
      intro hsame hother
      have hnot : ∀ i b, isAnswerFor ptr i b (.message p msg faults failing) = false :=
        fun i b => decide_eq_false fun hfor => hother ⟨hfor.1, hfor.2.1⟩
      simp only [hnot, step, hsame]
      exact ⟨hfaults, fun i b => (blockDebt_same rfl rfl rfl rfl rfl i b).le⟩
    by_cases hp : p = ptr
    · subst hp
      rcases hserves with hne | ⟨hchoke, hblock⟩ | ⟨rfl, req, hreq, rfl⟩
      · exact absurd rfl hne
      · apply hnothing
        · unfold handleMessage
          split <;> simp_all
        · exact fun hb => hblock hb.2
      -- the answer to a request
      · have hd := hfaults.tracked.orderly.wellFormed
        obtain ⟨hb, hoffset, hlength, -, hdata⟩ := hfaults.requestedData_eq ht hcontent hreq
        obtain ⟨-, -, hmissing⟩ := hfaults.pending hreq
        have hhandle := hfaults.handle_answer ht hcontent hreq failing
        have hlone := hfaults.lone_answered ht hcontent hreq
        have hless := blockDebt_arrived p hfaults.sound hfaults.spread hd
          (hfaults.tracked.torrent_eq.symm ▸ ht) rfl hfaults.tracked.counted hb hmissing hlength hdata
          (hfaults.tracked.torrent_eq.symm ▸ hcontent)
        have htorrent := (step_fields sha1 d
          (.message p (answer d.torrent content req) [] failing)).1
        have hstep : step sha1 d (.message p (answer d.torrent content req) [] failing) =
            (acceptBlock { d with world := { d.world with faults := [] } } req.pieceIndex req.offset p
              (requestedData d.torrent content req)).checkPiece sha1 req.pieceIndex := hhandle
        have hsame : ∀ i b, blockDebt content { d with world := { d.world with faults := [] } } i b =
            blockDebt content d i b := blockDebt_same rfl rfl rfl rfl rfl
        rw [← hoffset] at hless
        constructor
        · apply h.next ht
          · exact h.seeds.congr htorrent (by rw [hstep, peers_checkPiece]; rfl)
          · rw [hstep]
            exact hlone
        · intro i b
          rw [hstep, h.isAnswerFor_answer ht hcontent hreq [] failing i b, ← hsame i b]
          simpa only [decide_eq_true_eq] using hless i b
    · apply hnothing
      · apply handleMessage_of_other
        intro req hreq
        rw [(h.pending hreq).1]
        exact Ne.symm hp
      · exact fun hb => hp hb.1

/-- A block of the seeder is a block of the torrent. -/
theorem Served.exists_answer {torrent : TorrentInfo} (h : Served sha1 torrent ptr d)
    (ht : Fitting torrent) (hcontent : IsContent sha1 torrent content) {event : Event}
    (hserves : Serves content ptr d event) (hfrom : isBlockFrom ptr event = true) :
    ∃ i b, b < d.blockCount i ∧ isAnswerFor ptr i b event = true := by
  cases event with
  | message p msg faults failing =>
    obtain ⟨rfl, hblock⟩ := of_decide_eq_true hfrom
    rcases hserves with hne | ⟨-, hother⟩ | ⟨-, req, hreq, rfl⟩
    · exact absurd rfl hne
    · exact absurd hblock hother
    · refine ⟨_, _, (h.requestedData_eq ht hcontent hreq).1, ?_⟩
      rw [h.isAnswerFor_answer ht hcontent hreq]
      exact decide_eq_true ⟨rfl, rfl⟩
  | _ => cases hfrom

/-- An answer of the seeder lowers what is needed in all. -/
theorem Served.debt_serve {torrent : TorrentInfo} (h : Served sha1 torrent ptr d) (ht : Fitting torrent)
    (hcontent : IsContent sha1 torrent content) {event : Event} (hserves : Serves content ptr d event) :
    debt content (step sha1 d event) + (if isBlockFrom ptr event then 1 else 0) ≤ debt content d := by
  obtain ⟨hnext, hblocks⟩ := h.serve ht hcontent hserves
  have hd := h.tracked.orderly.wellFormed
  have hd' := hnext.tracked.orderly.wellFormed
  have htorrent := (step_fields sha1 d event).1
  have hle : ∀ i b, blockDebt content (step sha1 d event) i b ≤ blockDebt content d i b :=
    fun i b => (Nat.le_add_right _ _).trans (hblocks i b)
  cases hfrom : isBlockFrom ptr event with
  | false => exact debt_mono hd hd' htorrent hle
  | true =>
    obtain ⟨i, b, hb, hanswer⟩ := h.exists_answer ht hcontent hserves hfrom
    have hless := hblocks i b
    rw [hanswer] at hless
    exact debt_lt hd hd' htorrent hle hb hless

/-! ### The next request -/

/-- What is selected is an incomplete piece, or nothing. -/
theorem selectNextPiece_mem (hn : d.torrent.numPieces < 2 ^ 32) :
    d.selectNextPiece = noPiece ∨ d.selectNextPiece ∈ d.incompletePieces := by
  cases hscored : d.scoredPieces.argmax d.pieceScore with
  | some i =>
    rw [selectNextPiece_of_scored hn hscored]
    exact .inr (mem_partialPieces.1 (mem_scoredPieces.1 (List.argmax_mem hscored)).1).1
  | none =>
    rw [List.argmax_eq_none] at hscored
    cases hcounted : d.countedPieces.argmax fun i => -d.peerCount i with
    | some i =>
      rw [selectNextPiece_of_counted hn hscored hcounted]
      exact .inr (mem_countedPieces.1 (List.argmax_mem hcounted)).1
    | none =>
      rw [List.argmax_eq_none] at hcounted
      left
      rw [selectNextPiece, foldl_scoreRound, hscored, foldl_rarestRound, hcounted]
      simp only [List.argmax_nil, FirstBest.remembered, if_true]

/-- Some piece is incomplete as long as the download is. -/
theorem exists_incomplete (hd : d.WellFormed) (hcount : d.piecesCompletedCount = d.piecesCompleted.count true)
    (hopen : d.isComplete = false) : ∃ i < d.torrent.numPieces, d.pieceCompleted i = false := by
  by_contra hnone
  push Not at hnone
  rw [isComplete_of_pieces hd hcount fun i hi => Bool.eq_true_of_not_eq_false (hnone i hi)] at hopen
  cases hopen

/-- When nothing is in flight, a seeder is asked for something unless the download is complete. -/
theorem Served.asks {torrent : TorrentInfo} (h : Served sha1 torrent ptr d) (ht : Fitting torrent)
    (hopen : d.isComplete = false) {sends : List Bool} (hsends : ∀ sent ∈ sends, sent = true) (now : ℤ) :
    (d.requestBlocksFromPeer ptr sends now).pendingRequests ≠ [] := by
  have hd := h.tracked.orderly.wellFormed
  have htd : Fitting d.torrent := h.tracked.torrent_eq.symm ▸ ht
  obtain ⟨peer, hfind, hconnected, hchoking, hhas⟩ := h.seeds
  by_cases hnone : d.pendingRequests = []
  · have hroom : d.currentRequests ptr < d.options.maxRequestsPerPeer := by
      rw [currentRequests, hnone]
      exact h.room
    have hmisses : ∀ i ∈ d.incompletePieces,
        (d.pieceState i).receivedBlocks < (d.pieceState i).totalBlocks ∧
          ∃ b < d.blockCount i, d.Askable ptr i b := by
      intro i hi
      obtain ⟨hlt, hfalse⟩ := mem_incompletePieces.1 hi
      have hreceived := h.tracked.counted.received i
      have hne : (d.pieceState i).receivedBlocks ≠ (d.pieceState i).totalBlocks := by
        intro heq
        rw [(h.tracked.counted.completed i hlt).2 heq] at hfalse
        cases hfalse
      refine ⟨lt_of_le_of_ne (receivedBlocks_le hd htd hlt hreceived) hne, ?_⟩
      have hfull := mt (full_iff hd htd hlt hreceived).2 hne
      push Not at hfull
      obtain ⟨b, hb, hmissing⟩ := hfull
      rw [ne_eq, Bool.not_eq_true] at hmissing
      refine ⟨b, hb, hmissing, .inl ?_⟩
      -- a marked block would have a request
      cases hrequested : d.blockRequested i b with
      | false => rfl
      | true =>
        have hcopy := h.backed (i, b) hrequested hmissing
        rw [Ledger.copies, ledger, hnone] at hcopy
        exact absurd hcopy (lt_irrefl 0)
    obtain ⟨i, hi, hfalse⟩ := exists_incomplete hd h.tracked.counted.count hopen
    have hneeded : ∀ j ∈ d.incompletePieces, j ∈ d.neededPieces peer := by
      intro j hj
      obtain ⟨hlt, hfalse⟩ := mem_incompletePieces.1 hj
      have hindex := (uint32_incomplete htd.numPieces_lt hj).1
      refine List.mem_map.2 ⟨j, List.mem_filter.2 ⟨List.mem_range.2 hlt, ?_⟩, hindex⟩
      simp [hfalse, hindex, hhas j hlt, (hmisses j hj).1]
    have hne : d.neededPieces peer ≠ [] :=
      List.ne_nil_of_mem (hneeded i (mem_incompletePieces.2 ⟨hi, hfalse⟩))
    have hthrough : ∃ j ∈ d.incompletePieces, d.GoesThrough peer j := by
      by_cases hbest : d.selectNextPiece ≠ noPiece ∧ peer.hasPiece d.selectNextPiece = true
      · have hmem := (selectNextPiece_mem htd.numPieces_lt).resolve_left hbest.1
        exact ⟨_, hmem, hne, hbest.1, by rw [if_pos hbest]⟩
      · obtain ⟨j, rest, hhead⟩ := List.exists_cons_of_ne_nil hne
        have hj : j ∈ d.neededPieces peer := hhead ▸ List.mem_cons_self
        obtain ⟨k, hk, hkj⟩ := List.mem_map.1 hj
        have hmem : k ∈ d.incompletePieces := by
          have hfilter := (List.mem_filter.1 hk).2
          simp only [Bool.and_eq_true, Bool.not_eq_true'] at hfilter
          exact mem_incompletePieces.2 ⟨List.mem_range.1 (List.mem_filter.1 hk).1, hfilter.1.1⟩
        obtain ⟨hindex, hnp⟩ := uint32_incomplete htd.numPieces_lt hmem
        rw [hindex] at hkj
        subst hkj
        exact ⟨k, hmem, hne, hnp, by rw [if_neg hbest, hhead, List.head?_cons]⟩
    obtain ⟨j, hj, hgoes⟩ := hthrough
    have hasks : d.Asks ptr sends now :=
      (asks_iff hfind hconnected hchoking hroom hsends).2 ⟨j, hgoes, (hmisses j hj).2⟩
    rw [asks_iff_pending, hnone] at hasks
    exact hasks
  · obtain ⟨req, rest, hpending⟩ := List.exists_cons_of_ne_nil hnone
    unfold requestBlocksFromPeer
    split
    · exact hnone
    · rename_i i _
      obtain ⟨asked, -, happend⟩ := @requestLoop_pending i ptr now (List.range (d.blockCount i))
        (d.currentRequests ptr) sends d
      rw [happend, hpending]
      simp

/-! ### Runs -/

/-- The event that a seeder waits for: it answers the first request, or is asked. -/
def nextServed (torrent : TorrentInfo) (content : Bytes) (ptr : ℕ) (now : ℤ) (d : Downloader) : Event :=
  match d.pendingRequests with
  | [] => .request ptr [] now
  | req :: _ => .message ptr (answer torrent content req) [] []

/-- Requests and answers in turn complete the download. -/
theorem Served.reaches_complete {torrent : TorrentInfo} (h : Served sha1 torrent ptr d)
    (ht : Fitting torrent) (hcontent : IsContent sha1 torrent content) (now : ℤ) :
    ∃ later : List Event, later.length ≤ 2 * debt content d + 1 ∧
      Run.Along (step sha1) (Serves content ptr) d later ∧
      (run sha1 d later).isComplete = true := by
  have hstep : ∀ s, Served sha1 torrent ptr s →
      Serves content ptr s (nextServed torrent content ptr now s) ∧ (¬ s.isComplete = true →
        Served sha1 torrent ptr (step sha1 s (nextServed torrent content ptr now s)) ∧
        2 * debt content (step sha1 s (nextServed torrent content ptr now s)) +
          (if (step sha1 s (nextServed torrent content ptr now s)).pendingRequests = [] then 1 else 0) <
        2 * debt content s + if s.pendingRequests = [] then 1 else 0) := by
    intro s hs
    cases hpending : s.pendingRequests with
    | nil =>
      have hnext : nextServed torrent content ptr now s = .request ptr [] now := by
        rw [nextServed, hpending]
      have hserves : Serves content ptr s (.request ptr [] now) := ⟨rfl, by simp⟩
      rw [hnext]
      refine ⟨hserves, fun hopen => ?_⟩
      obtain ⟨hkeeps, -⟩ := hs.serve ht hcontent hserves
      have hdebt := hs.debt_serve ht hcontent hserves
      have hasked : (step sha1 s (.request ptr [] now)).pendingRequests ≠ [] :=
        hs.asks ht (by simpa using hopen) (by simp) now
      rw [if_neg hasked, if_pos rfl]
      exact ⟨hkeeps, by omega⟩
    | cons req rest =>
      have hnext : nextServed torrent content ptr now s =
          .message ptr (answer torrent content req) [] [] := by
        rw [nextServed, hpending]
      have hserves : Serves content ptr s (.message ptr (answer torrent content req) [] []) :=
        .inr (.inr ⟨rfl, req, by rw [hpending]; exact List.mem_cons_self,
          by rw [hs.tracked.torrent_eq]⟩)
      rw [hnext]
      refine ⟨hserves, fun _ => ?_⟩
      obtain ⟨hkeeps, -⟩ := hs.serve ht hcontent hserves
      have hdebt := hs.debt_serve ht hcontent hserves
      have hcounts : isBlockFrom ptr (.message ptr (answer torrent content req) [] []) = true :=
        decide_eq_true ⟨rfl, rfl⟩
      rw [hcounts, if_pos rfl] at hdebt
      refine ⟨hkeeps, ?_⟩
      rw [if_neg (List.cons_ne_nil req rest)]
      split_ifs <;> omega
  obtain ⟨later, hlength, halong, -, hcomplete⟩ := Run.reaches
    (nextServed torrent content ptr now)
    (fun s : Downloader => 2 * debt content s + if s.pendingRequests = [] then 1 else 0)
    (fun s hs hopen => (hstep s hs).2 hopen) h
  refine ⟨later, hlength.trans ?_, ?_, hcomplete⟩
  · split_ifs <;> omega
  · apply halong.mono
    rintro s event ⟨hs, rfl⟩
    exact (hstep s hs).1

/-- In every state of a run that starts with restoring, marked blocks that are missing have a
request. -/
theorem backed_run (sha1 : Bytes → Bytes) (h : Startable d) (events : List Event) :
    Backed (run sha1 (restoreCompletedPieces sha1 d d.torrent.numPieces) events).ledger := by
  have hbacked : Backed (restoreCompletedPieces sha1 d d.torrent.numPieces).ledger := by
    intro b hb
    have hoff := blockRequested_restore sha1 h.wellFormed b.1 b.2
    exact absurd (hoff.symm.trans hb) (by decide)
  have hall : Run.Along (step sha1) (fun _ _ => True)
      (restoreCompletedPieces sha1 d d.torrent.numPieces) events :=
    Run.along_of_forall (fun _ _ => trivial) _ events
  exact (ledger_invariant False sha1 (fun _ _ _ hs => hs.elim)
    (fun _ _ _ _ hsteps => hsteps.backed) (h.restore sha1 d.torrent.numPieces).orderly rfl hbacked
    hall).2

/-- The fields that a run leaves alone. -/
theorem run_fields (sha1 : Bytes → Bytes) (d : Downloader) (events : List Event) :
    (run sha1 d events).options = d.options ∧ (run sha1 d events).outputFiles = d.outputFiles := by
  refine Run.invariant (P := fun s : Downloader => s.options = d.options ∧ s.outputFiles = d.outputFiles) ?_ events
    ⟨rfl, rfl⟩
  rintro s event ⟨hoptions, hfiles⟩
  obtain ⟨-, hoptions', hfiles'⟩ := step_fields sha1 s event
  exact ⟨hoptions'.trans hoptions, hfiles'.trans hfiles⟩

/-- **A seeder completes the download**: take any state of a run of a torrent within the limits, whose
output paths differ, after all requests have timed out, and a connected peer that has the content and
may be asked for something. As long as only this peer is asked, it answers for each block at most
twice; whenever the download is not complete, the peer is asked for something; and requests and answers
in turn do complete it. Once it is complete, all pieces are verified on disk. -/
theorem seeder_completes (sha1 : Bytes → Bytes) {d : Downloader} (h : Startable d)
    (hpieces : d.torrent.numPieces < 2 ^ 32)
    (hend : d.torrent.totalLength + d.torrent.pieceLength.toInt < 2 ^ 63) {w : World}
    (hopen : openOutputFiles d.torrent d.savePath d.options.overwrite w =
      ((true, d.outputFiles), d.world))
    (hpaths : (d.outputFiles.map OutputFile.path).Nodup) {content : Bytes}
    (hcontent : IsContent sha1 d.torrent content) (hmax : 0 < d.options.maxRequestsPerPeer)
    (events : List Event) {ptr : ℕ} {now : ℤ}
    (hseeds : Seeds (run sha1 (restoreCompletedPieces sha1 d d.torrent.numPieces) events) ptr)
    (hlate : ∀ req ∈ (run sha1 (restoreCompletedPieces sha1 d d.torrent.numPieces)
      events).pendingRequests, now - req.requestTime > 15000) :
    let s := (run sha1 (restoreCompletedPieces sha1 d d.torrent.numPieces)
      events).cleanupTimedOutRequests now
    (∀ later, Run.Along (step sha1) (Serves content ptr) s later →
      (∀ i b, later.countP (isAnswerFor ptr i b) ≤ 2) ∧
      later.countP (isBlockFrom ptr) ≤ 2 * d.totalBlockCount ∧
      let t := run sha1 s later
      (t.isComplete = true → ∀ i < d.torrent.numPieces, t.VerifiedOnDisk sha1 i) ∧
      (t.isComplete = false → ∀ sends, (∀ sent ∈ sends, sent = true) → ∀ now,
        (t.requestBlocksFromPeer ptr sends now).pendingRequests ≠ [])) ∧
    ∃ later : List Event, later.length ≤ 4 * d.totalBlockCount + 1 ∧
      Run.Along (step sha1) (Serves content ptr) s later ∧
      (run sha1 s later).isComplete = true := by
  have ht := h.fitting hpieces hend
  obtain ⟨hconsecutive, hmounted⟩ := openOutputFiles_true h.accepted hopen hpaths
  intro s
  set before := run sha1 (restoreCompletedPieces sha1 d d.torrent.numPieces) events with hbefore
  have hs : s = run sha1 (restoreCompletedPieces sha1 d d.torrent.numPieces)
      (events ++ [.timeouts now]) := by
    rw [run, List.foldl_append]
    rfl
  have htracked := tracked_run sha1 h ht (events ++ [.timeouts now])
  have hsound := sound_run sha1 h ht hconsecutive hmounted (events ++ [.timeouts now])
  have hbacked := backed_run sha1 h (events ++ [.timeouts now])
  obtain ⟨-, -, hrestored, hrestoredFiles, -⟩ :=
    restore_fields sha1 d d.torrent.numPieces h.wellFormed
  obtain ⟨hoptions, hfiles⟩ := run_fields sha1 (restoreCompletedPieces sha1 d d.torrent.numPieces)
    (events ++ [.timeouts now])
  rw [← hs] at htracked hsound hbacked hoptions hfiles
  -- the requests are gone
  have hnone : s.pendingRequests = [] := by
    show (before.cleanupTimedOutRequests now).pendingRequests = []
    rw [cleanupTimedOutRequests, pendingRequests_eraseRequests, List.filter_eq_nil_iff]
    intro req hreq
    have hold := hlate req hreq
    simp only [decide_eq_true hold, Bool.not_true, Bool.false_eq_true, not_false_eq_true]
  have hledger : s.ledger.pending = [] := by rw [ledger, hnone, List.map_nil]
  have hseeds' : Seeds s ptr := by
    have hpeers : s.peers = before.peers := by
      show (before.cleanupTimedOutRequests now).peers = before.peers
      have hclear : ∀ (reqs : List BlockRequest) (d : Downloader), (reqs.foldl (fun d req =>
          d.clearRequested req.pieceIndex req.offset) d).peers = d.peers := by
        intro reqs
        induction reqs with
        | nil => exact fun _ => rfl
        | cons req reqs ih =>
          intro d
          rw [List.foldl_cons, ih, clearRequested]
          split_ifs <;> rfl
      rw [cleanupTimedOutRequests, eraseRequests, eraseLoop_eq]
      exact hclear _ before
    exact hseeds.congr (step_fields sha1 before (.timeouts now)).1 hpeers
  have hserved : Served sha1 d.torrent ptr s := {
    tracked := htracked
    sound := hsound
    length := by
      rw [hfiles, hrestoredFiles]
      exact sum_length_opened h.accepted hopen
    room := by rwa [hoptions, hrestored]
    seeds := hseeds'
    backed := hbacked
    distinct := ⟨by simp [hledger], fun b _ => by simp [Ledger.copies, hledger]⟩
    lone := by simp [Lone, hledger] }
  have hdebt : debt content s ≤ 2 * d.totalBlockCount := by
    rw [← totalBlockCount_eq h.wellFormed htracked.orderly.wellFormed htracked.torrent_eq]
    exact debt_le s
  constructor
  · intro later hlater
    obtain ⟨hend, hcount⟩ := hlater.count_le (isBlockFrom ptr) (debt content)
      (fun t event (ht' : Served sha1 d.torrent ptr t) hserves =>
        ⟨(ht'.serve ht hcontent hserves).1, ht'.debt_serve ht hcontent hserves⟩) hserved
    have hblock : ∀ i b, later.countP (isAnswerFor ptr i b) ≤ 2 := by
      intro i b
      obtain ⟨-, hblock⟩ := hlater.count_le (isAnswerFor ptr i b) (fun t => blockDebt content t i b)
        (fun t event (ht' : Served sha1 d.torrent ptr t) hserves =>
          ⟨(ht'.serve ht hcontent hserves).1, (ht'.serve ht hcontent hserves).2 i b⟩) hserved
      have hle : blockDebt content s i b ≤ 2 := blockDebt_le s i b
      omega
    refine ⟨hblock, by omega, fun hcomplete i hi => ?_, fun hopen sends hsends now => ?_⟩
    · have hdone := pieceCompleted_of_isComplete hend.tracked.orderly.wellFormed
        hend.tracked.counted.count hcomplete (hend.tracked.torrent_eq ▸ hi)
      exact hend.sound.verified i (hend.tracked.torrent_eq ▸ hi) hdone
    · exact hend.asks ht hopen hsends now
  · obtain ⟨later, hlength, halong, hcomplete⟩ := hserved.reaches_complete ht hcontent now
    exact ⟨later, by omega, halong, hcomplete⟩

/-- A block that has been asked for in vain is asked for again and completes the download. -/
theorem seeder_completes_oneBlock :
    let s := (run sevenHash (restoreCompletedPieces sevenHash openedOneBlock 1)
      [.connections [seeder 1 false], .request 1 [] 0]).cleanupTimedOutRequests 20000
    ∃ later : List Event, later.length ≤ 4 * openedOneBlock.totalBlockCount + 1 ∧
      Run.Along (step sevenHash) (Serves [7] 1) s later ∧
      (run sevenHash s later).isComplete = true := by
  have hcontent : IsContent sevenHash oneBlockTorrent [7] := ⟨by decide, by decide +kernel⟩
  have hseeds : Seeds (run sevenHash (restoreCompletedPieces sevenHash openedOneBlock 1)
      [.connections [seeder 1 false], .request 1 [] 0]) 1 :=
    ⟨seeder 1 false, rfl, rfl, rfl, by decide +kernel⟩
  exact (seeder_completes sevenHash startable_openedOneBlock (by decide) (by decide)
    opened_openedOneBlock (by decide +kernel) hcontent (by decide) _ hseeds (by decide +kernel)).2

end Gush.Downloader
