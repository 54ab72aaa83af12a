import Gush.Downloader.PieceSizes
import Gush.Downloader.RequestRuns
import Gush.Lib.Chunks
import Mathlib.Data.List.GetD

/-!
# The counters of a download

`piecesCompletedCount_`, `receivedBlocks` and `downloadedBytes_` are kept next to the flags they
count. `Counted` says that they agree with them; restoring establishes it and every step keeps it.
The bytes of a piece are its blocks, so a piece that fails its check takes away just what its blocks
have added.
-/

namespace Gush.Downloader

open Cxx Posix Finset

/-- The length of a block: 16 KB, or what is left for the last block of a piece. -/
def blockLength (torrent : TorrentInfo) (i b : ℕ) : ℤ :=
  Chunks.size blockSize (pieceSize torrent i) b

/-- The sum of the lengths of the received blocks of a piece. -/
def pieceBytes (d : Downloader) (i : ℕ) : ℤ :=
  Chunks.marked blockSize (pieceSize d.torrent i) (d.blockReceived i) (d.blockCount i)

/-- The sum of the lengths of all received blocks. -/
def receivedBytes (d : Downloader) : ℤ := ∑ i ∈ range d.torrent.numPieces, d.pieceBytes i

/-- What the downloader announces as left. -/
def left (d : Downloader) : ℤ := int64 (d.torrent.totalLength - d.downloadedBytes)

/-- The torrents whose offsets and sizes fit their types. -/
structure Fitting (torrent : TorrentInfo) : Prop where
  accepted : torrent.Accepted
  pieceLength_le : torrent.pieceLength.toInt ≤ 2 ^ 32
  numPieces_lt : torrent.numPieces < 2 ^ 32
  end_lt : torrent.totalLength + torrent.pieceLength.toInt < 2 ^ 63

/-! ### Blocks and pieces as chunks -/

section Sizes

variable {d : Downloader} (hd : d.WellFormed) (ht : Fitting d.torrent)

include hd ht

omit hd in
theorem uint32_piece {i : ℕ} (hi : i < d.torrent.numPieces) : uint32 (i : ℤ) = i :=
  uint32_of_lt (hi.trans ht.numPieces_lt)

/-- The number of blocks of a piece, rounded up. -/
theorem totalBlocks_eq {i : ℕ} (hi : i < d.torrent.numPieces) :
    (d.pieceState i).totalBlocks = (pieceSize d.torrent i + 16383) / 16384 := by
  rw [hd.totalBlocks i hi, uint32_piece ht hi,
    calculateBlocksForPiece_eq ht.accepted ht.pieceLength_le hi]

theorem blockCount_cast {i : ℕ} (hi : i < d.torrent.numPieces) :
    (d.blockCount i : ℤ) = (d.pieceState i).totalBlocks := by
  have hpos := pieceSize_pos ht.accepted hi
  rw [blockCount, totalBlocks_eq hd ht hi, Int.toNat_of_nonneg (by omega)]

/-- Every block starts before the end of its piece. -/
theorem block_start_lt {i : ℕ} (hi : i < d.torrent.numPieces) :
    ∀ b < d.blockCount i, (b : ℤ) * blockSize < pieceSize d.torrent i := by
  intro b hb
  have hcast := blockCount_cast hd ht hi
  rw [totalBlocks_eq hd ht hi] at hcast
  unfold blockSize
  omega

/-- The blocks reach the end of their piece. -/
theorem le_blocks {i : ℕ} (hi : i < d.torrent.numPieces) :
    pieceSize d.torrent i ≤ d.blockCount i * blockSize := by
  have hcast := blockCount_cast hd ht hi
  rw [totalBlocks_eq hd ht hi] at hcast
  unfold blockSize
  omega

theorem blockCount_pos {i : ℕ} (hi : i < d.torrent.numPieces) : 0 < d.blockCount i := by
  have hpos := pieceSize_pos ht.accepted hi
  have hle := le_blocks hd ht hi
  unfold blockSize at hle
  omega

theorem pieceBytes_nonneg {i : ℕ} (hi : i < d.torrent.numPieces) : 0 ≤ d.pieceBytes i :=
  Chunks.marked_nonneg (block_start_lt hd ht hi) (by decide) _

theorem pieceBytes_le {i : ℕ} (hi : i < d.torrent.numPieces) :
    d.pieceBytes i ≤ pieceSize d.torrent i :=
  Chunks.marked_le (block_start_lt hd ht hi) (by decide) (pieceSize_pos ht.accepted hi).le _

/-- The blocks of a piece make up the piece. -/
theorem pieceBytes_of_full {i : ℕ} (hi : i < d.torrent.numPieces)
    (hfull : ∀ b < d.blockCount i, d.blockReceived i b = true) :
    d.pieceBytes i = pieceSize d.torrent i :=
  Chunks.marked_all (block_start_lt hd ht hi) (pieceSize_pos ht.accepted hi).le
    (le_blocks hd ht hi) hfull

theorem sum_pieceBytes_nonneg {k : ℕ} (hk : k ≤ d.torrent.numPieces) :
    0 ≤ ∑ i ∈ range k, d.pieceBytes i :=
  sum_nonneg fun _ hi => pieceBytes_nonneg hd ht ((mem_range.1 hi).trans_le hk)

/-- No part of the pieces has more bytes than the torrent. -/
theorem sum_pieceBytes_le {k : ℕ} (hk : k ≤ d.torrent.numPieces) :
    ∑ i ∈ range k, d.pieceBytes i ≤ d.torrent.totalLength :=
  calc ∑ i ∈ range k, d.pieceBytes i
      ≤ ∑ i ∈ range d.torrent.numPieces, d.pieceBytes i :=
        sum_le_sum_of_subset_of_nonneg (range_mono hk)
          fun _ hi _ => pieceBytes_nonneg hd ht (mem_range.1 hi)
    _ ≤ ∑ i ∈ range d.torrent.numPieces, pieceSize d.torrent i :=
        sum_le_sum fun _ hi => pieceBytes_le hd ht (mem_range.1 hi)
    _ = d.torrent.totalLength := sum_pieceSize ht.accepted

theorem receivedBytes_nonneg : 0 ≤ d.receivedBytes := sum_pieceBytes_nonneg hd ht le_rfl

theorem receivedBytes_le : d.receivedBytes ≤ d.torrent.totalLength := sum_pieceBytes_le hd ht le_rfl

theorem pieceBytes_le_receivedBytes {i : ℕ} (hi : i < d.torrent.numPieces) :
    d.pieceBytes i ≤ d.receivedBytes :=
  single_le_sum (f := fun i => d.pieceBytes i)
    (fun _ hj => pieceBytes_nonneg hd ht (mem_range.1 hj)) (mem_range.2 hi)

end Sizes

/-! ### The lengths that are asked for -/

/-- The length in a request is the length of its block. -/
theorem requestLength_eq {d : Downloader} (hd : d.WellFormed) (ht : Fitting d.torrent)
    {i b : ℕ} (hi : i < d.torrent.numPieces) (hb : b < d.blockCount i) :
    (requestLength d.torrent i (b * blockSize) : ℤ) = blockLength d.torrent i b := by
  have hstart := ht.accepted.piece_start_lt hi
  have hpos := ht.accepted.pieceLength_pos
  have hend := ht.end_lt
  have hnonneg := pieceStart_nonneg ht.accepted i
  have hsize := pieceSize_eq ht.accepted hi
  have hblock := block_start_lt hd ht hi b hb
  have hrest : min (i * d.torrent.pieceLength.toInt + d.torrent.pieceLength.toInt)
        d.torrent.totalLength - i * d.torrent.pieceLength.toInt = pieceSize d.torrent i := by
    rw [hsize]
    omega
  unfold requestLength blockLength Chunks.size
  simp only
  rw [int64_pieceStart ht.accepted hi, int64_of_range (by omega) (by omega), hrest]
  unfold uint32
  push_cast
  unfold blockSize at *
  omega

/-- A request that the loop adds is for the start of one of its blocks. -/
theorem mem_requestLoop {pieceIndex ptr : ℕ} {now : ℤ} {torrent : TorrentInfo} {blocks : List ℕ} :
    ∀ {currentRequests : ℤ} {sends : List Bool} {d : Downloader}, d.torrent = torrent →
      ∀ req ∈ (requestLoop pieceIndex ptr now blocks currentRequests sends d).pendingRequests,
        req ∈ d.pendingRequests ∨ ∃ i ∈ blocks, req.pieceIndex = pieceIndex ∧
          req.offset = uint32 (i * blockSize) ∧
          req.length = requestLength torrent pieceIndex (uint32 (i * blockSize)) := by
  rintro currentRequests sends d rfl req hreq
  obtain ⟨asked, hsub, hpending⟩ := requestLoop_pending currentRequests sends d
  rw [hpending] at hreq
  rcases List.mem_append.1 hreq with hold | hnew
  · exact .inl hold
  · obtain ⟨b, hb, rfl⟩ := List.mem_map.1 hnew
    exact .inr ⟨b, hsub.subset hb, rfl, rfl, rfl⟩

/-- Every pending request asks for a whole block. -/
def Measured (d : Downloader) : Prop :=
  ∀ req ∈ d.pendingRequests,
    (req.length : ℤ) = blockLength d.torrent req.pieceIndex (req.offset / blockSize)

theorem Measured.of_kept {d d' : Downloader} (h : Measured d) (ht : d'.torrent = d.torrent)
    (hpending : ∀ req ∈ d'.pendingRequests, req ∈ d.pendingRequests) : Measured d' := by
  intro req hreq
  rw [ht]
  exact h req (hpending req hreq)

theorem measured_requestBlocksFromPeer {d : Downloader} (hd : Orderly d) (ht : Fitting d.torrent)
    (h : Measured d) (ptr : ℕ) (sends : List Bool) (now : ℤ) :
    Measured (d.requestBlocksFromPeer ptr sends now) := by
  intro req hreq
  rw [(frame_requestBlocksFromPeer d ptr sends now).torrent]
  unfold requestBlocksFromPeer at hreq
  split at hreq
  · exact h req hreq
  · rename_i pieceIndex _
    rcases mem_requestLoop rfl req hreq with hold | ⟨i, hi, hpiece, hoffset, hlength⟩
    · exact h req hold
    · have hcount := List.mem_range.1 hi
      have hpieces := hd.wellFormed.lt_numPieces hcount
      have huint := uint32_block hd hcount
      push_cast at huint
      rw [huint] at hlength hoffset
      rw [hlength, hpiece, hoffset, Nat.mul_div_cancel i (by decide)]
      exact requestLength_eq hd.wellFormed ht hpieces hcount

/-! ### Counters that agree with the flags -/

/-- A flag that is switched on counts once more. -/
theorem count_set_true {l : List Bool} {i : ℕ} (hi : i < l.length) (hoff : l.getD i false = false) :
    (l.set i true).count true = l.count true + 1 := by
  rw [List.getD_eq_getElem _ _ hi] at hoff
  rw [List.count_set hi, hoff]
  simp

/-- The counters of the blocks, and the lengths that will be added to them. -/
structure Tallied (d : Downloader) : Prop where
  measured : Measured d
  received : ∀ i, (d.pieceState i).receivedBlocks = (d.pieceState i).blocksReceived.count true
  bytes : d.downloadedBytes = d.receivedBytes

/-- Whether the completion flag of a piece says that all its blocks are there. -/
def FlagRight (d : Downloader) (i : ℕ) : Prop :=
  d.pieceCompleted i = true ↔ (d.pieceState i).receivedBlocks = (d.pieceState i).totalBlocks

/-- All counters agree with the flags that they count. -/
structure Counted (d : Downloader) : Prop extends Tallied d where
  completed : ∀ i < d.torrent.numPieces, d.FlagRight i
  count : d.piecesCompletedCount = d.piecesCompleted.count true

section Frame

variable {d d' : Downloader} (h : Frame d d')

include h

theorem Frame.pieceBytes (i : ℕ) : d'.pieceBytes i = d.pieceBytes i := by
  have hreceived : d'.blockReceived i = d.blockReceived i := funext (h.blockReceived i)
  rw [Downloader.pieceBytes, Downloader.pieceBytes, h.torrent, h.blockCount, hreceived]

theorem Frame.receivedBytes : d'.receivedBytes = d.receivedBytes := by
  rw [Downloader.receivedBytes, Downloader.receivedBytes, h.torrent]
  exact sum_congr rfl fun i _ => h.pieceBytes i

theorem Frame.flagRight (i : ℕ) : d'.FlagRight i ↔ d.FlagRight i := by
  rw [FlagRight, FlagRight, pieceCompleted, pieceCompleted, h.piecesCompleted, h.receivedBlocks,
    h.totalBlocks]

/-- Within the frame only the lengths of the requests need a look. -/
theorem Counted.of_frame (hd : Counted d) (hmeasured : Measured d') : Counted d' where
  measured := hmeasured
  received := by
    intro i
    rw [h.receivedBlocks, h.blocksReceived, hd.received]
  bytes := by rw [h.downloadedBytes, h.receivedBytes, hd.bytes]
  completed := by
    intro i hi
    rw [h.torrent] at hi
    exact (h.flagRight i).2 (hd.completed i hi)
  count := by rw [h.piecesCompletedCount, h.piecesCompleted, hd.count]

end Frame

/-- A piece whose blocks are counted is full if and only if all of them are there. -/
theorem full_iff {d : Downloader} (hd : d.WellFormed) (ht : Fitting d.torrent) {i : ℕ}
    (hi : i < d.torrent.numPieces)
    (hreceived : (d.pieceState i).receivedBlocks = (d.pieceState i).blocksReceived.count true) :
    (d.pieceState i).receivedBlocks = (d.pieceState i).totalBlocks ↔
      ∀ b < d.blockCount i, d.blockReceived i b = true := by
  have hlength := hd.received_length i
  rw [hreceived, ← blockCount_cast hd ht hi, Nat.cast_inj, ← hlength, List.count_eq_length]
  constructor
  · intro h b hb
    rw [blockReceived, List.getD_eq_getElem _ _ hb]
    exact (h _ (List.getElem_mem hb)).symm
  · intro h flag hflag
    obtain ⟨b, hb, rfl⟩ := List.getElem_of_mem hflag
    have hon := h b hb
    rw [blockReceived, List.getD_eq_getElem _ _ hb] at hon
    exact hon.symm

theorem receivedBlocks_le {d : Downloader} (hd : d.WellFormed) (ht : Fitting d.torrent) {i : ℕ}
    (hi : i < d.torrent.numPieces)
    (hreceived : (d.pieceState i).receivedBlocks = (d.pieceState i).blocksReceived.count true) :
    (d.pieceState i).receivedBlocks ≤ (d.pieceState i).totalBlocks := by
  have hle := List.count_le_length (a := true) (l := (d.pieceState i).blocksReceived)
  have hlength := hd.received_length i
  have hcast := blockCount_cast hd ht hi
  omega

/-! ### A block that is counted -/

section Accept

variable {d : Downloader} (hd : d.WellFormed) {pieceIndex offset : ℕ}
  (hb : offset / blockSize < d.blockCount pieceIndex)
  (hmissing : d.blockReceived pieceIndex (offset / blockSize) = false)
  (ptr : ℕ) (blockData : Bytes)

include hd hb hmissing

theorem receivedBytes_acceptBlock : (d.acceptBlock pieceIndex offset ptr blockData).receivedBytes =
    d.receivedBytes + blockLength d.torrent pieceIndex (offset / blockSize) := by
  have hi := hd.lt_numPieces hb
  apply Chunks.sum_bump hi
  intro j _
  have hcount := blockCount_acceptBlock d pieceIndex offset ptr blockData j
  by_cases hj : pieceIndex = j
  · subst hj
    rw [if_pos rfl, pieceBytes, hcount]
    apply Chunks.marked_add _ _ hb hmissing
    intro c
    rw [blockReceived_acceptBlock pieceIndex ptr blockData hd hb]
    simp [blockAt]
  · have hsame : (d.acceptBlock pieceIndex offset ptr blockData).blockReceived j =
        d.blockReceived j := by
      funext c
      rw [blockReceived_acceptBlock pieceIndex ptr blockData hd hb, if_neg]
      exact fun h => hj (Prod.mk.inj h).1
    rw [if_neg hj, add_zero, pieceBytes, hcount, hsame]
    rfl

/-- An accepted block is counted, and the counters do not overflow. -/
theorem tallied_acceptBlock (ht : Fitting d.torrent) (h : Tallied d)
    (hlength : (blockData.length : ℤ) = blockLength d.torrent pieceIndex (offset / blockSize)) :
    Tallied (d.acceptBlock pieceIndex offset ptr blockData) where
  measured := h.measured.of_kept rfl fun _ hreq => List.mem_of_mem_eraseP hreq
  received := by
    intro j
    have hstates := lt_of_lt_blockCount d hb
    rw [acceptBlock, pieceState_modifyPiece]
    by_cases hj : pieceIndex = j
    · subst hj
      rw [if_pos ⟨rfl, hstates⟩]
      show int32 ((d.pieceState pieceIndex).receivedBlocks + 1) = (((d.pieceState
        pieceIndex).blocksReceived.set (offset / blockSize) true).count true : ℤ)
      have hcount := hd.blockCount_le ht.accepted ht.pieceLength_le pieceIndex
      have hlen := hd.received_length pieceIndex
      have hle := List.count_le_length (a := true) (l := (d.pieceState pieceIndex).blocksReceived)
      rw [count_set_true (by omega) hmissing, h.received, int32_of_range (by omega) (by omega)]
      push_cast
      rfl
    · rw [if_neg fun hj' => hj hj'.1]
      exact h.received j
  bytes := by
    have hbytes := receivedBytes_acceptBlock hd hb hmissing ptr blockData
    have hwf : (d.acceptBlock pieceIndex offset ptr blockData).WellFormed :=
      wellFormed_acceptBlock pieceIndex ptr blockData hd
    -- the sum after the block is bounded by the torrent, so nothing overflows
    have hnonneg := receivedBytes_nonneg hwf ht
    have hle := receivedBytes_le hwf ht
    have htotal := ht.accepted.totalLength_lt
    show int64 (d.downloadedBytes + blockData.length) = _
    rw [hlength, h.bytes, ← hbytes]
    exact int64_of_range (by omega) (lt_of_le_of_lt hle htotal)

end Accept

/-! ### A piece that is checked -/

section Check

variable {d : Downloader} (hd : d.WellFormed) (ht : Fitting d.torrent) {pieceIndex : ℕ}
  (hi : pieceIndex < d.torrent.numPieces) (h : Tallied d)

include hd ht hi h

theorem pieceBytes_of_checked
    (hfull : (d.pieceState pieceIndex).receivedBlocks ≥ (d.pieceState pieceIndex).totalBlocks) :
    d.pieceBytes pieceIndex = pieceSize d.torrent pieceIndex := by
  have heq := le_antisymm (receivedBlocks_le hd ht hi (h.received pieceIndex)) hfull
  exact pieceBytes_of_full hd ht hi ((full_iff hd ht hi (h.received pieceIndex)).1 heq)

/-- A piece that is checked has been counted in full: taking it away needs no clamp. -/
theorem clamp_of_checked
    (hfull : (d.pieceState pieceIndex).receivedBlocks ≥ (d.pieceState pieceIndex).totalBlocks) :
    max 0 (int64 (d.downloadedBytes - pieceSize d.torrent pieceIndex)) =
      d.downloadedBytes - pieceSize d.torrent pieceIndex := by
  have hbytes := pieceBytes_of_checked hd ht hi h hfull
  have hpart := pieceBytes_le_receivedBytes hd ht hi
  have hpos := pieceSize_pos ht.accepted hi
  have hle := receivedBytes_le hd ht
  have htotal := ht.accepted.totalLength_lt
  rw [h.bytes, int64_of_range (by omega) (by omega)]
  omega

theorem tallied_failPiece
    (hfull : (d.pieceState pieceIndex).receivedBlocks ≥ (d.pieceState pieceIndex).totalBlocks) :
    Tallied (d.failPiece pieceIndex) where
  measured := h.measured.of_kept rfl fun _ hreq => List.mem_of_mem_filter hreq
  received := by
    intro j
    rw [pieceState_failPiece d pieceIndex (hd.states_length ▸ hi)]
    by_cases hj : pieceIndex = j
    · rw [if_pos hj]
      simp [List.count_replicate]
    · rw [if_neg hj]
      exact h.received j
  bytes := by
    have hsum : (d.failPiece pieceIndex).receivedBytes =
        d.receivedBytes + -d.pieceBytes pieceIndex := by
      apply Chunks.sum_bump hi
      intro j _
      have hmark : (d.failPiece pieceIndex).blockReceived j =
          fun c => if pieceIndex = j then false else d.blockReceived j c :=
        funext fun c => (flags_failPiece d pieceIndex (hd.states_length ▸ hi) j c).2
      rw [pieceBytes, hmark, blockCount_failPiece]
      by_cases hj : pieceIndex = j
      · subst hj
        simp only [if_true]
        rw [Chunks.marked_none _ _ fun _ _ => rfl]
        omega
      · simp only [if_neg hj, add_zero]
        rfl
    show max 0 (int64 (d.downloadedBytes - pieceSize d.torrent pieceIndex)) = _
    rw [clamp_of_checked hd ht hi h hfull, hsum, h.bytes, pieceBytes_of_checked hd ht hi h hfull]
    omega

omit h in
/-- A failed piece is not complete, and has blocks to be asked for. -/
theorem completed_failPiece (hopen : d.pieceCompleted pieceIndex = false)
    (hothers : ∀ j < d.torrent.numPieces, j ≠ pieceIndex → d.FlagRight j) :
    ∀ j < d.torrent.numPieces, (d.failPiece pieceIndex).FlagRight j := by
  intro j hj
  rw [FlagRight, pieceState_failPiece d pieceIndex (hd.states_length ▸ hi)]
  by_cases hjp : pieceIndex = j
  · subst hjp
    have hpos := blockCount_pos hd ht hi
    have hcast := blockCount_cast hd ht hi
    have hnot : (0 : ℤ) ≠ (d.pieceState pieceIndex).totalBlocks := by omega
    rw [if_pos rfl]
    exact iff_of_false (fun hcompleted => by cases hopen.symm.trans hcompleted) hnot
  · rw [if_neg hjp]
    exact hothers j hj (Ne.symm hjp)

/-- The check sets the completion flag just when all blocks are there and valid. -/
theorem counted_checkPiece (sha1 : Bytes → Bytes) (hopen : d.pieceCompleted pieceIndex = false)
    (hothers : ∀ j < d.torrent.numPieces, j ≠ pieceIndex → d.FlagRight j)
    (hcount : d.piecesCompletedCount = d.piecesCompleted.count true) :
    Counted (d.checkPiece sha1 pieceIndex) := by
  have hlt : pieceIndex < d.piecesCompleted.length := hd.completed_length ▸ hi
  rcases checkPiece_eq sha1 d pieceIndex with ⟨hmissing, heq⟩ | ⟨hfull, world, ⟨-, heq⟩ | ⟨-, heq⟩⟩ <;>
    rw [heq]
  -- blocks are missing
  · refine { h with completed := fun j hj => ?_, count := hcount }
    by_cases hjp : j = pieceIndex
    · subst hjp
      exact iff_of_false (by simp [hopen]) hmissing.ne
    · exact hothers j hj hjp
  -- the piece is valid
  · refine {
      measured := h.measured
      received := h.received
      bytes := h.bytes
      completed := fun j hj => ?_
      count := ?_ }
    · by_cases hjp : j = pieceIndex
      · subst hjp
        refine iff_of_true ?_ (le_antisymm (receivedBlocks_le hd ht hi (h.received j)) hfull)
        simp [pieceCompleted, List.getD_eq_getElem?_getD, hlt]
      · have hflag : (d.piecesCompleted.set pieceIndex true).getD j false = d.pieceCompleted j := by
          simp [pieceCompleted, List.getD_eq_getElem?_getD, List.getElem?_set_ne (Ne.symm hjp)]
        have hright := hothers j hj hjp
        rw [FlagRight, ← hflag] at hright
        exact hright
    · show d.piecesCompletedCount + 1 = (d.piecesCompleted.set pieceIndex true).count true
      rw [count_set_true hlt hopen, hcount]
  -- the piece has failed
  · have hworld : Tallied { d with world } := ⟨h.measured, h.received, h.bytes⟩
    have hwf : WellFormed { d with world } := hd.congr rfl rfl rfl
    have hfail := tallied_failPiece hwf ht hi hworld hfull
    exact { hfail with
      completed := completed_failPiece hwf ht hi hopen hothers
      count := hcount }

end Check

/-! ### Steps -/

theorem Measured.eraseRequests {d : Downloader} (h : Measured d)
    {selected : BlockRequest → Bool} {onErase : BlockRequest → Downloader → Downloader}
    (hclears : Clears selected onErase) : Measured (d.eraseRequests selected onErase) := by
  apply h.of_kept (hclears.frame_eraseRequests d).torrent
  intro req hreq
  rw [pendingRequests_eraseRequests] at hreq
  exact List.mem_of_mem_filter hreq

/-- A piece that misses a block is not marked as complete. -/
theorem Counted.pieceCompleted_eq_false {d : Downloader} (h : Counted d) (hd : d.WellFormed)
    (ht : Fitting d.torrent) {i b : ℕ} (hb : b < d.blockCount i)
    (hmissing : d.blockReceived i b = false) : d.pieceCompleted i = false := by
  have hi := hd.lt_numPieces hb
  rw [Bool.eq_false_iff]
  intro hcompleted
  have hall := (full_iff hd ht hi (h.received i)).1 ((h.completed i hi).1 hcompleted)
  rw [hall b hb] at hmissing
  cases hmissing

theorem counted_settled (sha1 : Bytes → Bytes) {d : Downloader} (hd : Orderly d)
    (ht : Fitting d.torrent) (h : Counted d) {pieceIndex offset ptr : ℕ} {blockData : Bytes}
    (hb : offset / blockSize < d.blockCount pieceIndex)
    (hmissing : d.blockReceived pieceIndex (offset / blockSize) = false)
    (hlength : (blockData.length : ℤ) = blockLength d.torrent pieceIndex (offset / blockSize))
    (failing : List ℕ) : Counted (settled sha1 d pieceIndex offset ptr blockData failing) := by
  have hi := hd.wellFormed.lt_numPieces hb
  have hopen := h.pieceCompleted_eq_false hd.wellFormed ht hb hmissing
  have hothers : ∀ j < d.torrent.numPieces, j ≠ pieceIndex →
      (d.acceptBlock pieceIndex offset ptr blockData).FlagRight j := by
    intro j hj hjp
    have hsame : (d.acceptBlock pieceIndex offset ptr blockData).pieceState j = d.pieceState j := by
      rw [acceptBlock, pieceState_modifyPiece, if_neg fun hj' => hjp hj'.1.symm]
      rfl
    rw [FlagRight, hsame]
    exact h.completed j hj
  have hwf : (d.acceptBlock pieceIndex offset ptr blockData).WellFormed :=
    wellFormed_acceptBlock pieceIndex ptr blockData hd.wellFormed
  have hchecked := counted_checkPiece hwf ht hi
    (tallied_acceptBlock hd.wellFormed hb hmissing ptr blockData ht h.toTallied hlength) sha1 hopen
    hothers h.count
  have hclears := clears_duplicates pieceIndex offset ptr failing
  exact hchecked.of_frame (hclears.frame_eraseRequests _)
    (hchecked.measured.eraseRequests hclears)

theorem counted_handleBlock (sha1 : Bytes → Bytes) {d : Downloader} (hd : Orderly d)
    (ht : Fitting d.torrent) (h : Counted d) (ptr : ℕ) (payload : Bytes) (failing : List ℕ) :
    Counted (d.handleBlock sha1 ptr payload failing) := by
  rcases handleBlock_cases sha1 d ptr payload failing with
    heq | ⟨pieceIndex, offset, blockData, req, hfind, hcases⟩
  · rw [heq]
    exact h
  · obtain ⟨hpiece, hoffset, -, -⟩ := find_answered hfind
    have hframe : Frame d (d.eraseAnswered pieceIndex offset ptr) := by
      constructor <;> intros <;> rfl
    have hmeasured : Measured (d.eraseAnswered pieceIndex offset ptr) :=
      h.measured.of_kept rfl fun _ hreq => List.mem_of_mem_eraseP hreq
    rcases hcases with ⟨-, heq⟩ | ⟨-, -, heq⟩ | ⟨hlength, hb, hmissing, heq⟩ <;> rw [heq]
    · have hclear := frame_clearRequested d pieceIndex offset
      refine h.of_frame (hclear.trans (by constructor <;> intros <;> rfl))
        (h.measured.of_kept hclear.torrent fun r hr => ?_)
      have hmem := List.mem_of_mem_eraseP hr
      rwa [pendingRequests_clearRequested] at hmem
    · exact h.of_frame hframe hmeasured
    · have hreq := h.measured req (List.mem_of_find?_eq_some hfind)
      rw [hpiece, hoffset] at hreq
      exact counted_settled sha1 hd ht h (Int.lt_toNat.2 hb) hmissing (hlength ▸ hreq) failing

/-- The failures that the next calls meet do not matter. -/
theorem Orderly.with_faults {d : Downloader} (hd : Orderly d) (h : Counted d)
    (faults : List Fault) : Orderly { d with world := { d.world with faults } } ∧
      Counted { d with world := { d.world with faults } } := by
  constructor
  · exact hd.of_kept (hd.wellFormed.congr rfl rfl rfl) (fun _ => rfl) fun _ h => h
  · exact {
      measured := h.measured
      received := h.received
      bytes := h.bytes
      completed := h.completed
      count := h.count }

/-- Every step keeps the counters right. -/
theorem counted_step (sha1 : Bytes → Bytes) {d : Downloader} (hd : Orderly d)
    (ht : Fitting d.torrent) (h : Counted d) (event : Event) : Counted (step sha1 d event) := by
  cases event with
  | connections peers => exact h.of_frame (by constructor <;> intros <;> rfl) h.measured
  | message ptr msg faults failing =>
    obtain ⟨hworld, hcounted⟩ := hd.with_faults h faults
    show Counted (handleMessage sha1 _ ptr msg failing)
    unfold handleMessage
    split
    · exact hcounted.of_frame ((clears_own _).frame_eraseRequests _)
        (hcounted.measured.eraseRequests (clears_own _))
    · exact counted_handleBlock sha1 hworld ht hcounted ptr msg.payload failing
    · exact hcounted
  | request ptr sends now =>
    exact h.of_frame (frame_requestBlocksFromPeer d ptr sends now)
      (measured_requestBlocksFromPeer hd ht h.measured ptr sends now)
  | timeouts now =>
    exact h.of_frame ((clears_own _).frame_eraseRequests d)
      (h.measured.eraseRequests (clears_own _))
  | endgame value => exact h.of_frame (by constructor <;> intros <;> rfl) h.measured

/-! ### Restoring -/

/-- The counters after the rounds for the pieces before `k`. -/
structure Restored (d : Downloader) (k : ℕ) : Prop where
  received : ∀ i < k, (d.pieceState i).receivedBlocks = (d.pieceState i).blocksReceived.count true
  completed : ∀ i < k, d.FlagRight i
  count : d.piecesCompletedCount = (d.piecesCompleted.take k).count true
  bytes : d.downloadedBytes = ∑ i ∈ range k, d.pieceBytes i

section Restore

variable {d : Downloader} (hd : d.WellFormed) (ht : Fitting d.torrent) (sha1 : Bytes → Bytes)

/-- What a round adds to the counters. -/
theorem restorePiece_counters (d : Downloader) (i : ℕ) :
    (restorePiece sha1 d i).piecesCompletedCount =
        d.piecesCompletedCount + (if (verifyPiece sha1 d (uint32 i)).1 then 1 else 0) ∧
      (restorePiece sha1 d i).downloadedBytes =
        (if (verifyPiece sha1 d (uint32 i)).1 then
          int64 (d.downloadedBytes + pieceSize d.torrent (uint32 i)) else d.downloadedBytes) := by
  rw [restorePiece]
  simp only
  split_ifs with h <;> simp [h, modifyPiece]

include hd ht

/-- The bytes of the piece of a round are all of it or none. -/
theorem pieceBytes_restorePiece {k : ℕ} (hk : k < d.torrent.numPieces) (j : ℕ) :
    (restorePiece sha1 d k).pieceBytes j =
      if k = j then (if (verifyPiece sha1 d (uint32 k)).1 then pieceSize d.torrent k else 0)
      else d.pieceBytes j := by
  have hwf : (restorePiece sha1 d k).WellFormed := wellFormed_restorePiece hd k
  have hstates : k < d.pieceStates.length := hd.states_length ▸ hk
  have htorrent := (restorePiece_fields sha1 d k).1
  have hstate := pieceState_restorePiece sha1 d hstates j
  by_cases hj : k = j
  · subst hj
    rw [if_pos rfl] at hstate ⊢
    have hflag : ∀ b < (restorePiece sha1 d k).blockCount k,
        (restorePiece sha1 d k).blockReceived k b = (verifyPiece sha1 d (uint32 k)).1 := by
      intro b hb
      have hlen : b < (d.pieceState k).totalBlocks.toNat := by
        rwa [blockCount, hstate] at hb
      rw [blockReceived, hstate]
      simp [List.getD_eq_getElem?_getD, hlen]
    cases hvalid : (verifyPiece sha1 d (uint32 k)).1 with
    | true =>
      rw [hvalid] at hflag
      rw [pieceBytes_of_full hwf (htorrent.symm ▸ ht) (htorrent.symm ▸ hk) hflag, htorrent]
      rfl
    | false =>
      rw [hvalid] at hflag
      exact Chunks.marked_none _ _ hflag
  · rw [if_neg hj] at hstate ⊢
    have hreceived : (restorePiece sha1 d k).blockReceived j = d.blockReceived j := by
      funext b
      rw [blockReceived, hstate, blockReceived]
    rw [pieceBytes, blockCount, hstate, hreceived, htorrent]
    rfl

/-- A round counts its piece in full or not at all. -/
theorem restored_restorePiece {k : ℕ} (hk : k < d.torrent.numPieces) (h : Restored d k) :
    Restored (restorePiece sha1 d k) (k + 1) := by
  obtain ⟨htorrent, -, -, -, hcompleted⟩ := restorePiece_fields sha1 d k
  obtain ⟨hcount, hdownloaded⟩ := restorePiece_counters sha1 d k
  have hwf : (restorePiece sha1 d k).WellFormed := wellFormed_restorePiece hd k
  have hstates : k < d.pieceStates.length := hd.states_length ▸ hk
  have hlt : k < d.piecesCompleted.length := hd.completed_length ▸ hk
  have hstate := pieceState_restorePiece sha1 d hstates
  have hflag := pieceCompleted_restorePiece sha1 d hlt
  have hpos := blockCount_pos hd ht hk
  have hcast := blockCount_cast hd ht hk
  constructor
  · intro j hj
    rw [hstate]
    by_cases hkj : k = j
    · subst hkj
      rw [if_pos rfl]
      cases (verifyPiece sha1 d (uint32 k)).1 <;> simp [List.count_replicate]
      omega
    · rw [if_neg hkj]
      exact h.received j (by omega)
  · intro j hj
    rw [FlagRight, hflag, hstate]
    by_cases hkj : k = j
    · subst hkj
      rw [if_pos rfl, if_pos rfl]
      cases (verifyPiece sha1 d (uint32 k)).1 with
      | true => simp
      | false => exact iff_of_false (by simp) (by simp only [Bool.false_eq_true, if_false]; omega)
    · rw [if_neg hkj, if_neg hkj]
      exact h.completed j (by omega)
  · rw [hcount, hcompleted, List.take_succ_eq_append_getElem (by simpa using hlt),
      List.take_set_of_le le_rfl, List.count_append, h.count]
    cases (verifyPiece sha1 d (uint32 k)).1 <;> simp
  · have hterms : ∀ j ∈ range k, (restorePiece sha1 d k).pieceBytes j = d.pieceBytes j := by
      intro j hj
      rw [pieceBytes_restorePiece hd ht sha1 hk, if_neg (mem_range.1 hj).ne']
    have hsum : ∑ j ∈ range (k + 1), (restorePiece sha1 d k).pieceBytes j = d.downloadedBytes +
        (if (verifyPiece sha1 d (uint32 k)).1 then pieceSize d.torrent k else 0) := by
      rw [sum_range_succ, sum_congr rfl hterms, pieceBytes_restorePiece hd ht sha1 hk, if_pos rfl,
        h.bytes]
    -- the new sum is a part of the torrent, so the addition does not overflow
    have hnonneg := sum_pieceBytes_nonneg hwf (htorrent.symm ▸ ht) (htorrent.symm ▸ hk)
    have hle := sum_pieceBytes_le hwf (htorrent.symm ▸ ht) (htorrent.symm ▸ hk)
    have htotal := ht.accepted.totalLength_lt
    rw [uint32_piece ht hk] at hdownloaded hsum
    rw [hsum, htorrent] at hle
    rw [hsum] at hnonneg
    rw [hdownloaded, hsum]
    split_ifs at hle hnonneg ⊢
    · exact int64_of_range (by omega) (by omega)
    · omega

end Restore

/-- One more round of restoring. -/
theorem restoreCompletedPieces_succ (sha1 : Bytes → Bytes) (d : Downloader) {k : ℕ}
    (hk : k < d.torrent.numPieces) : restoreCompletedPieces sha1 d (k + 1) =
      restorePiece sha1 (restoreCompletedPieces sha1 d k) k := by
  rw [restoreCompletedPieces, restoreCompletedPieces, List.take_range, List.take_range,
    min_eq_left hk, min_eq_left hk.le, List.range_succ, List.foldl_append]
  rfl

/-- A completed restoring sets all counters. -/
theorem counted_restore (sha1 : Bytes → Bytes) {d : Downloader} (h : Startable d)
    (ht : Fitting d.torrent) :
    Counted (restoreCompletedPieces sha1 d d.torrent.numPieces) := by
  have hrounds : ∀ k ≤ d.torrent.numPieces, Restored (restoreCompletedPieces sha1 d k) k := by
    intro k hk
    induction k with
    | zero => constructor <;> simp [restoreCompletedPieces]
    | succ k ih =>
      obtain ⟨hwf, htorrent, -, -, -⟩ := restore_fields sha1 d k h.wellFormed
      rw [restoreCompletedPieces_succ sha1 d hk]
      exact restored_restorePiece hwf (htorrent.symm ▸ ht) sha1 (htorrent.symm ▸ hk)
        (ih (Nat.le_of_succ_le hk))
  obtain ⟨hwf, htorrent, -, -, hpending⟩ := restore_fields sha1 d d.torrent.numPieces h.wellFormed
  have hall := hrounds _ le_rfl
  refine {
    measured := ?_
    received := fun i => ?_
    bytes := ?_
    completed := fun i hi => hall.completed i (htorrent ▸ hi)
    count := ?_ }
  · intro req hreq
    rw [hpending, h.no_pending] at hreq
    cases hreq
  · by_cases hi : i < d.torrent.numPieces
    · exact hall.received i hi
    · rw [pieceState_of_le _ (by rw [hwf.states_length, htorrent]; omega)]
      rfl
  · rw [hall.bytes, receivedBytes, htorrent]
  · rw [hall.count, List.take_of_length_le (by rw [hwf.completed_length, htorrent])]

/-! ### Runs -/

theorem Startable.fitting {d : Downloader} (h : Startable d) (hpieces : d.torrent.numPieces < 2 ^ 32)
    (hend : d.torrent.totalLength + d.torrent.pieceLength.toInt < 2 ^ 63) : Fitting d.torrent :=
  ⟨h.accepted, h.pieceLength_le, hpieces, hend⟩

/-- The counters of a torrent are right, in a state that allows to go on. -/
structure Tracked (torrent : TorrentInfo) (d : Downloader) : Prop where
  orderly : Orderly d
  torrent_eq : d.torrent = torrent
  counted : Counted d

theorem Tracked.step {torrent : TorrentInfo} {d : Downloader} (h : Tracked torrent d)
    (ht : Fitting torrent) (sha1 : Bytes → Bytes) (event : Event) :
    Tracked torrent (step sha1 d event) where
  orderly := (steps_of_step False sha1 h.orderly event fun hf => hf.elim).2
  torrent_eq := (step_fields sha1 d event).1.trans h.torrent_eq
  counted := counted_step sha1 h.orderly (h.torrent_eq.symm ▸ ht) h.counted event

theorem tracked_restore (sha1 : Bytes → Bytes) {d : Downloader} (h : Startable d)
    (ht : Fitting d.torrent) :
    Tracked d.torrent (restoreCompletedPieces sha1 d d.torrent.numPieces) where
  orderly := (h.restore sha1 _).orderly
  torrent_eq := (restore_fields sha1 d d.torrent.numPieces h.wellFormed).2.1
  counted := counted_restore sha1 h ht

/-- In every state of a run that starts with restoring, the counters are right. -/
theorem tracked_run (sha1 : Bytes → Bytes) {d : Downloader} (h : Startable d)
    (ht : Fitting d.torrent) (events : List Event) :
    Tracked d.torrent (run sha1 (restoreCompletedPieces sha1 d d.torrent.numPieces) events) :=
  Run.invariant (fun _ event hs => hs.step ht sha1 event) events (tracked_restore sha1 h ht)

/-- A block that is written and counted: it answers a request, has the length that was asked for,
and is missing. -/
structure Accepts (d : Downloader) (pieceIndex offset ptr : ℕ) (blockData : Bytes) : Prop where
  answered : ∃ req, d.pendingRequests.find? (answers pieceIndex offset ptr) = some req ∧
    blockData.length = req.length
  inside : ((offset / blockSize : ℕ) : ℤ) < (d.pieceState pieceIndex).totalBlocks
  missing : d.blockReceived pieceIndex (offset / blockSize) = false

/-- **Exact counters**: in every state of a run that starts with restoring, the counters agree with
the flags, the counted bytes are those of the received blocks and do not exceed the torrent, and a
piece whose last block is accepted has been counted in full, so that the clamp after a failed check
changes nothing. -/
theorem counters_exact (sha1 : Bytes → Bytes) {d : Downloader} (h : Startable d)
    (hpieces : d.torrent.numPieces < 2 ^ 32)
    (hend : d.torrent.totalLength + d.torrent.pieceLength.toInt < 2 ^ 63) (events : List Event) :
    let s := run sha1 (restoreCompletedPieces sha1 d d.torrent.numPieces) events
    s.piecesCompletedCount = s.piecesCompleted.count true ∧
    (∀ i < d.torrent.numPieces,
      (s.pieceState i).receivedBlocks = (s.pieceState i).blocksReceived.count true ∧
      (s.pieceCompleted i = true ↔
        (s.pieceState i).receivedBlocks = (s.pieceState i).totalBlocks)) ∧
    s.downloadedBytes = s.receivedBytes ∧
    0 ≤ s.downloadedBytes ∧ s.downloadedBytes ≤ d.torrent.totalLength ∧ 0 ≤ s.left ∧
    ∀ faults pieceIndex offset ptr blockData, Accepts s pieceIndex offset ptr blockData →
      let a := { s with world := { s.world with faults } }.acceptBlock pieceIndex offset ptr blockData
      (a.pieceState pieceIndex).receivedBlocks ≥ (a.pieceState pieceIndex).totalBlocks →
        max 0 (int64 (a.downloadedBytes - pieceSize a.torrent pieceIndex)) =
          a.downloadedBytes - pieceSize a.torrent pieceIndex := by
  have ht := h.fitting hpieces hend
  intro s
  obtain ⟨hs, htorrent, hcounted⟩ := tracked_run sha1 h ht events
  have hts : Fitting s.torrent := htorrent.symm ▸ ht
  have hnonneg : 0 ≤ s.downloadedBytes := hcounted.bytes ▸ receivedBytes_nonneg hs.wellFormed hts
  have hle : s.downloadedBytes ≤ s.torrent.totalLength :=
    hcounted.bytes ▸ receivedBytes_le hs.wellFormed hts
  have htotal := hts.accepted.totalLength_lt
  have hleft : s.left = s.torrent.totalLength - s.downloadedBytes :=
    int64_of_range (by omega) (by omega)
  refine ⟨hcounted.count, fun i hi => ⟨hcounted.received i, hcounted.completed i (by rwa [htorrent])⟩,
    hcounted.bytes, hnonneg, htorrent ▸ hle, by omega, ?_⟩
  -- `a` is the state in which `processPeerMessages` checks the piece
  intro faults pieceIndex offset ptr blockData haccepts a hfull
  obtain ⟨req, hfind, hlength⟩ := haccepts.answered
  obtain ⟨hpiece, hoffset, -, -⟩ := find_answered hfind
  have hb : offset / blockSize < s.blockCount pieceIndex := Int.lt_toNat.2 haccepts.inside
  have hi := hs.wellFormed.lt_numPieces hb
  have hreq := hcounted.measured req (List.mem_of_find?_eq_some hfind)
  rw [hpiece, hoffset, ← hlength] at hreq
  have hworld : WellFormed { s with world := { s.world with faults } } :=
    hs.wellFormed.congr rfl rfl rfl
  have htally : Tallied { s with world := { s.world with faults } } :=
    ⟨hcounted.measured, hcounted.received, hcounted.bytes⟩
  have hwf : a.WellFormed := wellFormed_acceptBlock pieceIndex ptr blockData hworld
  exact clamp_of_checked hwf hts hi
    (tallied_acceptBlock hworld hb haccepts.missing ptr blockData hts htally hreq) hfull

/-- The block arrives and fails its check. -/
theorem counters_exact_oneBlock :
    let s := run (fun _ => []) (restoreCompletedPieces (fun _ => []) oneBlock 1) (delivery 0)
    s.downloadedBytes = s.receivedBytes ∧ 0 ≤ s.left := by
  obtain ⟨-, -, hbytes, -, -, hleft, -⟩ :=
    counters_exact (fun _ => []) startable_oneBlock (by decide) (by decide) (delivery 0)
  exact ⟨hbytes, hleft⟩

end Gush.Downloader
