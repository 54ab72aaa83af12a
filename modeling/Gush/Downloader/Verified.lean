import Gush.Downloader.Counters
import Gush.Downloader.OnDisk

/-!
# Completed pieces are verified on disk

A piece is marked as complete only after its bytes on disk have passed the hash check, and blocks
are written only into pieces that are not complete. As pieces do not overlap, what was verified
stays so (`completed_verified`).
-/

namespace Gush.Downloader

open Cxx Posix Slice

/-- The bytes of a piece on disk. -/
def pieceOnDisk (d : Downloader) (i : ℕ) : Bytes :=
  slice (disk d.world.fs d.outputFiles) (i * d.torrent.pieceLength.toInt).toNat
    (pieceSize d.torrent i).toNat

def isComplete (d : Downloader) : Bool := d.piecesCompletedCount ≥ d.torrent.numPieces

/-- All bytes of the piece are on disk and have the hash that the torrent gives. -/
def VerifiedOnDisk (sha1 : Bytes → Bytes) (d : Downloader) (i : ℕ) : Prop :=
  sha1 (d.pieceOnDisk i) = expectedHash d.torrent i ∧
    ((d.pieceOnDisk i).length : ℤ) = pieceSize d.torrent i

/-- The output files are in place, and the pieces marked as complete are verified. -/
structure Sound (sha1 : Bytes → Bytes) (d : Downloader) : Prop where
  consecutive : Consecutive d.outputFiles 0
  mounted : Mounted d.world.fs d.outputFiles
  verified : ∀ i < d.torrent.numPieces, d.pieceCompleted i = true → d.VerifiedOnDisk sha1 i

variable {sha1 : Bytes → Bytes} {d d' : Downloader}

/-- It depends on the torrent and its files only whether a piece is verified. -/
theorem VerifiedOnDisk.congr {i : ℕ} (h : d.VerifiedOnDisk sha1 i) (htorrent : d'.torrent = d.torrent)
    (hfiles : d'.outputFiles = d.outputFiles) (hfs : d'.world.fs = d.world.fs) :
    d'.VerifiedOnDisk sha1 i := by
  rw [VerifiedOnDisk, pieceOnDisk, htorrent, hfiles, hfs]
  exact h

/-- Nothing that leaves the files and the completion flags alone does harm. -/
theorem Sound.congr (h : Sound sha1 d) (htorrent : d'.torrent = d.torrent)
    (hfiles : d'.outputFiles = d.outputFiles) (hfs : d'.world.fs = d.world.fs)
    (hcompleted : d'.piecesCompleted = d.piecesCompleted) : Sound sha1 d' where
  consecutive := hfiles ▸ h.consecutive
  mounted := by
    rw [hfs, hfiles]
    exact h.mounted
  verified := by
    intro i hi hflag
    rw [htorrent] at hi
    rw [pieceCompleted, hcompleted] at hflag
    exact (h.verified i hi hflag).congr htorrent hfiles hfs

theorem Sound.of_frame (h : Sound sha1 d) (hframe : Frame d d') : Sound sha1 d' :=
  h.congr hframe.torrent hframe.outputFiles (by rw [hframe.world]) hframe.piecesCompleted

/-! ### Checking a piece -/

theorem fs_verifyPiece (sha1 : Bytes → Bytes) (d : Downloader) (i : ℕ) :
    (verifyPiece sha1 d i).2.fs = d.world.fs := by
  have hread : (readPieceFromDisk d i).2.fs = d.world.fs := by
    unfold readPieceFromDisk
    split_ifs
    · rfl
    · simp only
      split_ifs
      · rfl
      · exact fs_readLoop
  unfold verifyPiece
  split <;> rename_i h <;> rw [h] at hread
  · exact hread
  · split_ifs <;> exact hread

/-- A piece that passes the check is verified on disk. -/
theorem verifiedOnDisk_of_verifyPiece (hconsecutive : Consecutive d.outputFiles 0)
    (hmounted : Mounted d.world.fs d.outputFiles) (ht : Fitting d.torrent) {i : ℕ}
    (hi : i < d.torrent.numPieces) (h : (verifyPiece sha1 d i).1 = true) :
    d.VerifiedOnDisk sha1 i := by
  have hpos := pieceSize_pos ht.accepted hi
  have hread : ∀ data, (readPieceFromDisk d i).1 = some data →
      data = d.pieceOnDisk i ∧ (data.length : ℤ) = pieceSize d.torrent i := by
    intro data hdata
    unfold readPieceFromDisk at hdata
    split_ifs at hdata with hempty
    simp only [int64_pieceStart ht.accepted hi] at hdata
    split_ifs at hdata with hsize
    obtain ⟨hslice, hlength⟩ := readLoop_some hconsecutive hmounted hdata
    rw [sub_zero] at hslice
    exact ⟨hslice, by omega⟩
  unfold verifyPiece at h
  split at h
  · cases h
  · rename_i data w hdata
    obtain ⟨hpiece, hlength⟩ := hread data (by rw [hdata])
    split_ifs at h
    rw [VerifiedOnDisk, ← hpiece]
    exact ⟨of_decide_eq_true h, hlength⟩

/-! ### Writing a block -/

section Accept

variable (h : Sound sha1 d) (ht : Fitting d.torrent) {pieceIndex offset : ℕ}
  (hi : pieceIndex < d.torrent.numPieces) {blockData : Bytes}
  (hend : (offset : ℤ) + blockData.length ≤ pieceSize d.torrent pieceIndex) (ptr : ℕ)

include h ht hi hend

/-- A block that lies in its piece is written within the range of the piece. -/
theorem wrote_acceptBlock : Wrote d.outputFiles
    (pieceIndex * d.torrent.pieceLength.toInt + offset).toNat blockData.length d.world
    (d.acceptBlock pieceIndex offset ptr blockData).world := by
  have hstart := ht.accepted.piece_start_lt hi
  have htotal := ht.end_lt
  have hle := pieceSize_le ht.accepted hi
  have hnonneg := pieceStart_nonneg ht.accepted pieceIndex
  have hint : int64 ((pieceIndex : ℤ) * d.torrent.pieceLength.toInt + offset) =
      pieceIndex * d.torrent.pieceLength.toInt + offset :=
    int64_of_range (by omega) (by omega)
  have hworld : (d.acceptBlock pieceIndex offset ptr blockData).world = writeLoop d.outputFiles
      (int64 (pieceIndex * d.torrent.pieceLength.toInt + offset)) blockData d.world := rfl
  have hwrote : ∀ absOffset : ℤ, Wrote d.outputFiles absOffset.toNat blockData.length d.world
      (writeLoop d.outputFiles absOffset blockData d.world) := by
    intro absOffset
    have hspec : Wrote d.outputFiles (absOffset - 0).toNat blockData.length d.world _ :=
      writeLoop_spec h.consecutive h.mounted
    rwa [sub_zero] at hspec
  rw [hworld, hint]
  exact hwrote _

/-- Pieces do not overlap: the other pieces stay as they are. -/
theorem pieceOnDisk_acceptBlock {j : ℕ} (hj : j < d.torrent.numPieces) (hne : j ≠ pieceIndex) :
    (d.acceptBlock pieceIndex offset ptr blockData).pieceOnDisk j = d.pieceOnDisk j := by
  have hle := pieceSize_le ht.accepted hi
  have hlej := pieceSize_le ht.accepted hj
  have hposj := pieceSize_pos ht.accepted hj
  have hpl := ht.accepted.pieceLength_pos
  have hstart := pieceStart_nonneg ht.accepted pieceIndex
  have hstartj := pieceStart_nonneg ht.accepted j
  show slice (disk _ d.outputFiles) (j * d.torrent.pieceLength.toInt).toNat
    (pieceSize d.torrent j).toNat = d.pieceOnDisk j
  apply (wrote_acceptBlock h ht hi hend ptr).agree.slice_eq
  -- the range of a piece ends before the next one starts
  rcases Nat.lt_or_gt_of_ne hne with hlt | hgt
  · have hstep : ((j : ℤ) + 1) * d.torrent.pieceLength.toInt ≤
        pieceIndex * d.torrent.pieceLength.toInt :=
      mul_le_mul_of_nonneg_right (by omega) hpl.le
    rw [add_mul, one_mul] at hstep
    exact .inl (by omega)
  · have hstep : ((pieceIndex : ℤ) + 1) * d.torrent.pieceLength.toInt ≤
        j * d.torrent.pieceLength.toInt :=
      mul_le_mul_of_nonneg_right (by omega) hpl.le
    rw [add_mul, one_mul] at hstep
    exact .inr (by omega)

/-- A block may be written as long as its piece is not complete. -/
theorem sound_acceptBlock (hopen : d.pieceCompleted pieceIndex = false) :
    Sound sha1 (d.acceptBlock pieceIndex offset ptr blockData) where
  consecutive := h.consecutive
  mounted := (wrote_acceptBlock h ht hi hend ptr).mounted
  verified := by
    intro j hj hflag
    have hflag' : d.pieceCompleted j = true := hflag
    have hne : j ≠ pieceIndex := by
      rintro rfl
      rw [hopen] at hflag'
      cases hflag'
    rw [VerifiedOnDisk, pieceOnDisk_acceptBlock h ht hi hend ptr hj hne]
    exact h.verified j hj hflag'

end Accept

/-- The check marks a piece as complete if it is verified on disk. -/
theorem sound_checkPiece (h : Sound sha1 d) (ht : Fitting d.torrent) {pieceIndex : ℕ}
    (hi : pieceIndex < d.torrent.numPieces) : Sound sha1 (d.checkPiece sha1 pieceIndex) := by
  have hfs := fs_verifyPiece sha1 d pieceIndex
  rcases checkPiece_eq sha1 d pieceIndex with ⟨-, heq⟩ | ⟨-, world, ⟨hv, heq⟩ | ⟨hv, heq⟩⟩ <;>
    rw [heq]
  · exact h
  · rw [hv] at hfs
    refine ⟨h.consecutive, by rw [hfs]; exact h.mounted, fun j hj hflag => ?_⟩
    suffices hpiece : d.VerifiedOnDisk sha1 j from hpiece.congr rfl rfl hfs
    by_cases hjp : j = pieceIndex
    · subst hjp
      exact verifiedOnDisk_of_verifyPiece h.consecutive h.mounted ht hi (by rw [hv])
    · apply h.verified j hj
      have hflag' : (d.piecesCompleted.set pieceIndex true).getD j false = true := hflag
      rwa [List.getD_eq_getElem?_getD, List.getElem?_set_ne (Ne.symm hjp),
        ← List.getD_eq_getElem?_getD] at hflag'
  · rw [hv] at hfs
    exact h.congr rfl rfl hfs rfl

/-! ### Steps -/

theorem sound_handleBlock (h : Sound sha1 d) (hd : Orderly d) (ht : Fitting d.torrent)
    (hcounted : Counted d) (ptr : ℕ) (payload : Bytes) (failing : List ℕ) :
    Sound sha1 (d.handleBlock sha1 ptr payload failing) := by
  rcases handleBlock_cases sha1 d ptr payload failing with
    heq | ⟨pieceIndex, offset, blockData, req, hfind, hcases⟩
  · rw [heq]
    exact h
  · obtain ⟨hpiece, hoffset, -, -⟩ := find_answered hfind
    rcases hcases with ⟨-, heq⟩ | ⟨-, -, heq⟩ | ⟨hlength, hin, hmissing, heq⟩ <;> rw [heq]
    · exact (h.of_frame (frame_clearRequested d pieceIndex offset)).congr rfl rfl rfl rfl
    · exact h.congr rfl rfl rfl rfl
    -- the block lies in its piece
    · have hb : offset / blockSize < d.blockCount pieceIndex := Int.lt_toNat.2 hin
      have hi := hd.wellFormed.lt_numPieces hb
      have hmem := List.mem_of_find?_eq_some hfind
      have hmeasured := hcounted.measured req hmem
      have hmod := (hd.pending req hmem).1
      rw [hpiece, hoffset, ← hlength] at hmeasured
      rw [hoffset] at hmod
      have hend : (offset : ℤ) + blockData.length ≤ pieceSize d.torrent pieceIndex := by
        rw [hmeasured, blockLength, Chunks.size]
        unfold blockSize at *
        omega
      have hopen := hcounted.pieceCompleted_eq_false hd.wellFormed ht hb hmissing
      have hchecked := sound_checkPiece (sound_acceptBlock h ht hi hend ptr hopen) ht hi
      exact hchecked.of_frame ((clears_duplicates pieceIndex offset ptr failing).frame_eraseRequests _)

theorem sound_step (h : Sound sha1 d) (hd : Orderly d) (ht : Fitting d.torrent)
    (hcounted : Counted d) (event : Event) : Sound sha1 (step sha1 d event) := by
  cases event with
  | connections peers => exact h.congr rfl rfl rfl rfl
  | message ptr msg faults failing =>
    obtain ⟨horderly, hcounted⟩ := hd.with_faults hcounted faults
    have hsound : Sound sha1 { d with world := { d.world with faults } } := h.congr rfl rfl rfl rfl
    show Sound sha1 (handleMessage sha1 _ ptr msg failing)
    unfold handleMessage
    split
    · exact hsound.of_frame ((clears_own _).frame_eraseRequests _)
    · exact sound_handleBlock hsound horderly ht hcounted ptr msg.payload failing
    · exact hsound
  | request ptr sends now => exact h.of_frame (frame_requestBlocksFromPeer d ptr sends now)
  | timeouts now => exact h.of_frame ((clears_own _).frame_eraseRequests d)
  | endgame value => exact h.congr rfl rfl rfl rfl

/-! ### Restoring -/

theorem fs_restorePiece (sha1 : Bytes → Bytes) (d : Downloader) (i : ℕ) :
    (restorePiece sha1 d i).world.fs = d.world.fs := by
  have hworld : (restorePiece sha1 d i).world = (verifyPiece sha1 d (uint32 i)).2 := by
    rw [restorePiece]
    simp only
    split_ifs <;> rfl
  rw [hworld, fs_verifyPiece]

/-- Restoring marks exactly the pieces that pass the check. -/
theorem sound_restore (sha1 : Bytes → Bytes) (h : Startable d) (ht : Fitting d.torrent)
    (hconsecutive : Consecutive d.outputFiles 0) (hmounted : Mounted d.world.fs d.outputFiles) :
    Sound sha1 (restoreCompletedPieces sha1 d d.torrent.numPieces) := by
  have hrounds : ∀ k ≤ d.torrent.numPieces,
      (restoreCompletedPieces sha1 d k).world.fs = d.world.fs ∧
        ∀ i < k, (restoreCompletedPieces sha1 d k).pieceCompleted i = true →
          (restoreCompletedPieces sha1 d k).VerifiedOnDisk sha1 i := by
    intro k hk
    induction k with
    | zero => exact ⟨rfl, fun i hi => by omega⟩
    | succ k ih =>
      obtain ⟨hfs, hverified⟩ := ih (Nat.le_of_succ_le hk)
      obtain ⟨hwf, htorrent, -, hfiles, -⟩ := restore_fields sha1 d k h.wellFormed
      set s := restoreCompletedPieces sha1 d k with hs
      obtain ⟨htorrent', -, hfiles', -, -⟩ := restorePiece_fields sha1 s k
      have hlt : k < s.piecesCompleted.length := by
        rw [hwf.completed_length, htorrent]
        exact hk
      -- rounds do not write, so the pieces of earlier rounds stay verified
      have hfs' := fs_restorePiece sha1 s k
      rw [restoreCompletedPieces_succ sha1 d hk, ← hs]
      refine ⟨hfs'.trans hfs, fun i hi hflag => ?_⟩
      rw [pieceCompleted_restorePiece sha1 s hlt] at hflag
      suffices hpiece : s.VerifiedOnDisk sha1 i from hpiece.congr htorrent' hfiles' hfs'
      by_cases hki : k = i
      · subst hki
        rw [if_pos rfl, uint32_piece ht hk] at hflag
        exact verifiedOnDisk_of_verifyPiece (hfiles.symm ▸ hconsecutive)
          (by rw [hfs, hfiles]; exact hmounted) (htorrent.symm ▸ ht) (htorrent.symm ▸ hk) hflag
      · rw [if_neg hki] at hflag
        exact hverified i (by omega) hflag
  obtain ⟨hwf, htorrent, -, hfiles, -⟩ := restore_fields sha1 d d.torrent.numPieces h.wellFormed
  obtain ⟨hfs, hverified⟩ := hrounds _ le_rfl
  refine ⟨hfiles.symm ▸ hconsecutive, by rw [hfs, hfiles]; exact hmounted, fun i hi => ?_⟩
  exact hverified i (htorrent ▸ hi)

/-! ### Runs -/

/-- When the download is complete, all pieces are marked as complete. -/
theorem pieceCompleted_of_isComplete (hd : d.WellFormed)
    (hcount : d.piecesCompletedCount = d.piecesCompleted.count true) (h : d.isComplete = true)
    {i : ℕ} (hi : i < d.torrent.numPieces) : d.pieceCompleted i = true := by
  have hall : d.piecesCompleted.count true = d.piecesCompleted.length := by
    have hle := List.count_le_length (a := true) (l := d.piecesCompleted)
    have hge : d.torrent.numPieces ≤ d.piecesCompletedCount := of_decide_eq_true h
    rw [← hd.completed_length] at hge
    omega
  have hlt : i < d.piecesCompleted.length := hd.completed_length ▸ hi
  rw [pieceCompleted, List.getD_eq_getElem _ _ hlt]
  exact (List.count_eq_length.1 hall _ (List.getElem_mem hlt)).symm

/-- Nothing in a run makes a completed piece lose what was verified. -/
theorem sound_run (sha1 : Bytes → Bytes) (h : Startable d) (ht : Fitting d.torrent)
    (hconsecutive : Consecutive d.outputFiles 0) (hmounted : Mounted d.world.fs d.outputFiles)
    (events : List Event) :
    Sound sha1 (run sha1 (restoreCompletedPieces sha1 d d.torrent.numPieces) events) := by
  have hrun := Run.invariant (P := fun s => Tracked d.torrent s ∧ Sound sha1 s)
    (fun s event hs => ⟨hs.1.step ht sha1 event,
      sound_step hs.2 hs.1.orderly (hs.1.torrent_eq.symm ▸ ht) hs.1.counted event⟩) events
    ⟨tracked_restore sha1 h ht, sound_restore sha1 h ht hconsecutive hmounted⟩
  exact hrun.2

/-- **Completed pieces are verified**: in every state of a run that starts with opening the output
files, which have different paths, and with restoring, every piece that is marked as complete has
its bytes on disk with the hash of the torrent. When the download is complete, all pieces have. -/
theorem completed_verified (sha1 : Bytes → Bytes) {d : Downloader} (h : Startable d)
    (hpieces : d.torrent.numPieces < 2 ^ 32)
    (hend : d.torrent.totalLength + d.torrent.pieceLength.toInt < 2 ^ 63) {w : World}
    (hopen : openOutputFiles d.torrent d.savePath d.options.overwrite w =
      ((true, d.outputFiles), d.world))
    (hpaths : (d.outputFiles.map OutputFile.path).Nodup) (events : List Event) :
    let s := run sha1 (restoreCompletedPieces sha1 d d.torrent.numPieces) events
    (∀ i < d.torrent.numPieces, s.pieceCompleted i = true → s.VerifiedOnDisk sha1 i) ∧
      (s.isComplete = true → ∀ i < d.torrent.numPieces, s.VerifiedOnDisk sha1 i) := by
  have ht := h.fitting hpieces hend
  obtain ⟨hconsecutive, hmounted⟩ := openOutputFiles_true h.accepted hopen hpaths
  obtain ⟨hs, htorrent, hcounted⟩ := tracked_run sha1 h ht events
  have hsound := sound_run sha1 h ht hconsecutive hmounted events
  intro s
  have hverified : ∀ i < d.torrent.numPieces, s.pieceCompleted i = true →
      s.VerifiedOnDisk sha1 i := fun i hi => hsound.verified i (by rwa [htorrent])
  refine ⟨hverified, fun hcomplete i hi => hverified i hi ?_⟩
  exact pieceCompleted_of_isComplete hs.wellFormed hcounted.count hcomplete (by rwa [htorrent])

/-- A hash that the content `7` of the block has. -/
def sevenHash (data : Bytes) : Bytes := if data = [7] then List.replicate 20 0 else []

/-- The download of the block, with its output file open. -/
def openedOneBlock : Downloader :=
  let opening := openOutputFiles oneBlockTorrent (ascii "d") false { fs := oneDirectory }
  { oneBlock with outputFiles := opening.1.2, world := opening.2 }

theorem completed_verified_oneBlock :
    (run sevenHash (restoreCompletedPieces sevenHash openedOneBlock 1) (delivery 7)).VerifiedOnDisk
      sevenHash 0 := by
  have hstart : Startable openedOneBlock := {
    accepted := startable_oneBlock.accepted
    pieceLength_le := startable_oneBlock.pieceLength_le
    wellFormed := startable_oneBlock.wellFormed.congr rfl rfl rfl
    no_pending := rfl }
  have hopen : openOutputFiles oneBlockTorrent (ascii "d") false { fs := oneDirectory } =
      ((true, openedOneBlock.outputFiles), openedOneBlock.world) :=
    Prod.ext (Prod.ext (by decide +kernel) rfl) rfl
  exact (completed_verified sevenHash hstart (by decide) (by decide) hopen (by decide +kernel)
    (delivery 7)).1 0 (by decide) (by decide +kernel)

end Gush.Downloader
