import Gush.Downloader.Written
import Gush.Downloader.Verified
import Gush.Downloader.Resume
import Gush.Downloader.Lifecycle

/-!
# Stopping and starting again

Nothing about the progress of a download is stored: a new start opens the files that the last run
has left and checks every piece. Without `--overwrite` opening leaves the files as they are, so the
start finds exactly the pieces that are verified on disk (`restart_restores`): all pieces that were
marked as complete, and none of the blocks of the others. A download that is complete after a start is
on disk (`onDisk_of_start`).
-/

namespace Gush.Downloader

open Cxx Posix Slice

variable {sha1 : Bytes → Bytes} {d : Downloader}

/-! ### Without failures -/

/-- The output files hold the torrent, byte for byte. -/
structure Spread (d : Downloader) : Prop where
  consecutive : Consecutive d.outputFiles 0
  mounted : Mounted d.world.fs d.outputFiles
  length : (d.outputFiles.map OutputFile.length).sum = d.torrent.totalLength

/-- Reading a piece does not fail if no call does. -/
theorem Spread.readPieceFromDisk (h : d.Spread) (hfaults : d.world.faults = [])
    (ht : Fitting d.torrent) {i : ℕ} (hi : i < d.torrent.numPieces) :
    (d.readPieceFromDisk i).1 = some (d.pieceOnDisk i) ∧
      ((d.pieceOnDisk i).length : ℤ) = pieceSize d.torrent i := by
  have hsize := pieceSize_eq ht.accepted hi
  have hpos := pieceSize_pos ht.accepted hi
  have hnonneg := pieceStart_nonneg ht.accepted i
  have hstart := ht.accepted.piece_start_lt hi
  have hsum := h.length
  have hne : d.outputFiles ≠ [] := by
    intro hnil
    rw [hnil, List.map_nil, List.sum_nil] at hsum
    omega
  rw [Downloader.readPieceFromDisk, if_neg hne]
  simp only
  rw [if_neg (not_le.2 hpos), int64_pieceStart ht.accepted hi]
  have hok := readLoop_ok (n := (pieceSize d.torrent i).toNat) h.consecutive h.mounted hfaults
    hnonneg (by omega)
  obtain ⟨data, hdata⟩ := Option.ne_none_iff_exists'.1 hok
  obtain ⟨hslice, hlength⟩ := readLoop_some h.consecutive h.mounted hdata
  rw [sub_zero] at hslice
  rw [hdata, hslice]
  refine ⟨rfl, ?_⟩
  rw [pieceOnDisk, ← hslice, hlength]
  omega

/-- The hashes are as many as the pieces. -/
theorem hash_inside {torrent : TorrentInfo} {i : ℕ} (hi : i < torrent.numPieces) :
    ¬ torrent.pieces.length < i * 20 + 20 := by
  unfold TorrentInfo.numPieces at hi
  omega

/-- The check tells the verified pieces if no call fails. -/
theorem Spread.verifyPiece_iff (sha1 : Bytes → Bytes) (h : d.Spread) (hfaults : d.world.faults = [])
    (ht : Fitting d.torrent) {i : ℕ} (hi : i < d.torrent.numPieces) :
    (verifyPiece sha1 d i).1 = true ↔ d.VerifiedOnDisk sha1 i := by
  obtain ⟨hread, hlength⟩ := h.readPieceFromDisk hfaults ht hi
  constructor
  · exact verifiedOnDisk_of_verifyPiece h.consecutive h.mounted ht hi
  · intro hverified
    unfold verifyPiece
    split
    · rename_i w hnone
      rw [hnone] at hread
      cases hread
    · rename_i data w hsome
      rw [hsome] at hread
      rw [if_neg (hash_inside hi), Option.some.inj hread]
      exact decide_eq_true hverified.1

/-- Writing meets no failures if there are none. -/
theorem faults_writeLoop {files : List OutputFile} : ∀ {off absOffset : ℤ} {data : Bytes} {w : World},
    Consecutive files off → Mounted w.fs files → w.faults = [] →
      (writeLoop files absOffset data w).faults = [] := by
  induction files with
  | nil => exact fun _ _ hfaults => hfaults
  | cons f files ih =>
    intro off absOffset data w hconsecutive hmounted hfaults
    obtain ⟨hstart, hlength, hrest⟩ := hconsecutive
    obtain ⟨handle, hhandle, c, hc, hlen⟩ := hmounted.ready f List.mem_cons_self
    rw [writeLoop]
    split_ifs with hdone hbehind hbefore
    · exact hfaults
    · exact ih hrest hmounted.tail hfaults
    · exact hfaults
    · simp only
      split_ifs with havail
      · exact ih hrest hmounted.tail hfaults
      · rw [hhandle, World.attempt_ok hfaults]
        simp only
        set within := absOffset - f.startOffset with hwithin
        set chunk := min data.length (f.length - within).toNat with hchunk
        have hlen_chunk : (data.take chunk).length = chunk := by
          rw [List.length_take]
          omega
        obtain ⟨-, hfaults'⟩ := World.fwrite_ok hfaults hc within.toNat (data.take chunk)
        obtain ⟨hother, -⟩ := World.fwrite_spec hc within.toNat (data.take chunk) (by omega)
        cases hwrite : w.fwrite handle within.toNat (data.take chunk) with
        | mk count w₂ =>
          rw [hwrite] at hfaults' hother
          simp only
          split_ifs
          · exact hfaults'
          · exact ih hrest (hmounted.tail_of_other hhandle hother) hfaults'

/-- Reading leaves the world as it is if no call fails. -/
theorem world_readLoop {files : List OutputFile} : ∀ {off absOffset : ℤ} {n : ℕ} {w : World},
    Consecutive files off → Mounted w.fs files → w.faults = [] →
      (readLoop files absOffset n w).2 = w := by
  induction files with
  | nil => exact fun _ _ _ => rfl
  | cons f files ih =>
    intro off absOffset n w hconsecutive hmounted hfaults
    obtain ⟨hstart, hlength, hrest⟩ := hconsecutive
    obtain ⟨handle, hhandle, c, hc, hlen⟩ := hmounted.ready f List.mem_cons_self
    rw [readLoop]
    split_ifs with hdone hbehind hbefore
    · rfl
    · exact ih hrest hmounted.tail hfaults
    · rfl
    · simp only
      split_ifs with havail
      · exact ih hrest hmounted.tail hfaults
      · rw [hhandle, World.attempt_ok hfaults]
        simp only
        rw [World.fread_ok hfaults hc]
        simp only
        split_ifs
        · rfl
        · exact ih hrest hmounted.tail hfaults

/-- So does the check of a piece. -/
theorem Spread.world_verifyPiece (h : d.Spread) (hfaults : d.world.faults = []) (i : ℕ) :
    (verifyPiece sha1 d i).2 = d.world := by
  have hread : (d.readPieceFromDisk i).2 = d.world := by
    unfold Downloader.readPieceFromDisk
    split_ifs
    · rfl
    · simp only
      split_ifs
      · rfl
      · exact world_readLoop h.consecutive h.mounted hfaults
  unfold verifyPiece
  split <;> rename_i heq <;> rw [heq] at hread
  · exact hread
  · split_ifs <;> exact hread

/-- Restoring without failures marks the pieces that are verified on disk, with all their blocks,
and no others. -/
theorem Spread.restore (sha1 : Bytes → Bytes) (h : d.Spread) (hfaults : d.world.faults = []) (ht : Fitting d.torrent)
    (hd : d.WellFormed) : ∀ k ≤ d.torrent.numPieces,
      (restoreCompletedPieces sha1 d k).world = d.world ∧
      ∀ i < k, ((restoreCompletedPieces sha1 d k).pieceCompleted i = true ↔ d.VerifiedOnDisk sha1 i) ∧
        ∀ b, (restoreCompletedPieces sha1 d k).blockReceived i b = true ↔
          b < d.blockCount i ∧ d.VerifiedOnDisk sha1 i := by
  intro k hk
  induction k with
  | zero => exact ⟨rfl, fun i hi => by omega⟩
  | succ k ih =>
    obtain ⟨hworld, hmarked⟩ := ih (Nat.le_of_succ_le hk)
    obtain ⟨hwf, htorrent, -, hfiles, -⟩ := restore_fields sha1 d k hd
    rw [restoreCompletedPieces_succ sha1 d hk]
    set s := restoreCompletedPieces sha1 d k with hs
    have hspread : s.Spread := ⟨hfiles ▸ h.consecutive, by rw [hworld, hfiles]; exact h.mounted,
      by rw [hfiles, htorrent]; exact h.length⟩
    have hsame : ∀ j, s.VerifiedOnDisk sha1 j ↔ d.VerifiedOnDisk sha1 j := fun j => by
      rw [VerifiedOnDisk, VerifiedOnDisk, pieceOnDisk, htorrent, hfiles, hworld, pieceOnDisk]
    have hvalid := hspread.verifyPiece_iff sha1 (by rw [hworld, hfaults])
      (htorrent.symm ▸ ht) (htorrent.symm ▸ hk)
    have hround : (restorePiece sha1 s k).world = (verifyPiece sha1 s (uint32 k)).2 := by
      rw [restorePiece]
      simp only
      split_ifs <;> rfl
    have hlt : k < s.piecesCompleted.length := by
      rw [hwf.completed_length, htorrent]
      exact hk
    have hstates : k < s.pieceStates.length := by
      rw [hwf.states_length, htorrent]
      exact hk
    refine ⟨?_, fun i hi => ?_⟩
    · rw [hround, hspread.world_verifyPiece (by rw [hworld, hfaults]), hworld]
    have hflag := pieceCompleted_restorePiece sha1 s hlt i
    have hstate := pieceState_restorePiece sha1 s hstates i
    rw [uint32_piece ht hk] at hflag hstate
    by_cases hki : k = i
    · subst hki
      rw [if_pos rfl] at hflag hstate
      refine ⟨by rw [hflag, hvalid, hsame], fun b => ?_⟩
      have hcount : d.blockCount k = (s.pieceState k).totalBlocks.toNat := by
        rw [blockCount, hd.totalBlocks k hk, hwf.totalBlocks k (htorrent.symm ▸ hk), htorrent]
      rw [blockReceived, hstate, hcount, ← hsame, ← hvalid]
      simp only [List.getD_eq_getElem?_getD, List.getElem?_replicate]
      split_ifs with hb <;> simp [hb]
    · rw [if_neg hki] at hflag hstate
      obtain ⟨hold, hblocks⟩ := hmarked i (by omega)
      refine ⟨by rw [hflag, hold], fun b => ?_⟩
      rw [blockReceived, hstate]
      exact hblocks b

/-! ### What opening leaves behind -/

/-- The planned files are opened at their places. -/
theorem openOutputFiles_files {torrent : TorrentInfo} (h : torrent.Accepted) {savePath : Bytes}
    {overwrite : Bool} {w w' : World} {files : List OutputFile}
    (hopen : openOutputFiles torrent savePath overwrite w = ((true, files), w')) :
    files = (plan torrent savePath).map (opened w.fs) := by
  have hopened : ∀ {w₁ : World}, w.fs.Keeps w₁.fs → opened w₁.fs = opened w.fs := by
    intro w₁ hkeeps
    funext f
    rw [opened, opened, hkeeps.target]
  rw [openOutputFiles, if_neg (not_lt.2 h.totalLength_nonneg)] at hopen
  rw [plan]
  split_ifs at hopen ⊢ with hmulti
  · have hplan := @planFiles_spec (fun _ => True) savePath overwrite torrent.files 0 w
    unfold openMultiFile at hopen
    split at hopen
    · cases hopen
    · rename_i planned w₁ h₁
      rw [h₁] at hplan
      split at hopen
      · cases hopen
      · rename_i opens w₂ h₂
        split at hopen
        · cases hopen
        · cases hopen
          obtain ⟨rfl, -⟩ := openFiles_some h₂
          cases hplan.2.2 rfl
          rw [hopened hplan.1.keeps]
  · have hcheck := @preflight_leads (fun _ => True) w (singlePath torrent savePath)
      torrent.totalLength overwrite
    unfold openSingleFile at hopen
    split at hopen
    · cases hopen
    · rename_i w₁ h₁
      rw [h₁] at hcheck
      split at hopen
      · cases hopen
      · rename_i handle w₂ h₂
        split at hopen
        · cases hopen
        · cases hopen
          rw [(openOutputHandle_some h₂).1, ← hopened hcheck.keeps]
          rfl

/-- Opening without `--overwrite` resumes. -/
theorem openOutputFiles_resumes {torrent : TorrentInfo} (h : torrent.Accepted) (savePath : Bytes)
    (w : World) : Resumes w.fs (plan torrent savePath) (openOutputFiles torrent savePath false w) := by
  rw [openOutputFiles, if_neg (not_lt.2 h.totalLength_nonneg), plan]
  split_ifs
  · exact openMultiFile_resumes savePath torrent.files w
  · exact openSingleFile_resumes (singlePath torrent savePath) torrent.totalLength w

/-! ### What a run leaves behind -/

theorem fs_checkPiece (sha1 : Bytes → Bytes) (d : Downloader) (i : ℕ) :
    (d.checkPiece sha1 i).world.fs = d.world.fs := by
  have hfs := fs_verifyPiece sha1 d i
  rcases checkPiece_eq sha1 d i with ⟨-, heq⟩ | ⟨-, world, ⟨hv, heq⟩ | ⟨hv, heq⟩⟩ <;> rw [heq]
  · rw [hv] at hfs
    exact hfs
  · rw [hv] at hfs
    exact hfs

theorem keeps_fwrite (w : World) (handle : Handle) (pos : ℕ) (data : Bytes) :
    w.fs.Keeps (w.fwrite handle pos data).2.fs := by
  unfold World.fwrite
  split
  · exact .refl w.fs
  · simp only
    split
    · exact .refl w.fs
    · rename_i hset
      exact FileSystem.keeps_setContent hset

theorem keeps_writeLoop {files : List OutputFile} : ∀ {absOffset : ℤ} {data : Bytes} {w : World},
    w.fs.Keeps (writeLoop files absOffset data w).fs := by
  induction files with
  | nil => exact fun {_ _ w} => .refl w.fs
  | cons f files ih =>
    intro absOffset data w
    rw [writeLoop]
    split_ifs
    · exact .refl w.fs
    · exact ih
    · exact .refl w.fs
    · simp only
      split_ifs
      · exact ih
      · split
        · exact .refl w.fs
        · rename_i handle _
          have hattempt : w.attempt.2.fs = w.fs := World.fs_attempt
          split <;> rename_i w₁ h₁ <;> rw [h₁] at hattempt
          · exact (show w₁.fs = w.fs from hattempt) ▸ .refl w.fs
          · have hwrite := keeps_fwrite w₁ handle (absOffset - f.startOffset).toNat
              (data.take (min data.length (f.length - (absOffset - f.startOffset)).toNat))
            rw [show w₁.fs = w.fs from hattempt] at hwrite
            split_ifs
            · exact hwrite
            · exact hwrite.trans ih

/-- No step makes a file disappear or changes the working directory. -/
theorem keeps_step (sha1 : Bytes → Bytes) (d : Downloader) (event : Event) :
    d.world.fs.Keeps (step sha1 d event).world.fs := by
  cases event with
  | connections peers => exact .refl _
  | endgame value => exact .refl _
  | request ptr sends now =>
    show d.world.fs.Keeps (d.requestBlocksFromPeer ptr sends now).world.fs
    rw [(frame_requestBlocksFromPeer d ptr sends now).world]
  | timeouts now =>
    show d.world.fs.Keeps (d.cleanupTimedOutRequests now).world.fs
    rw [cleanupTimedOutRequests, ((clears_own _).frame_eraseRequests d).world]
  | message ptr msg faults failing =>
    show d.world.fs.Keeps (handleMessage sha1 _ ptr msg failing).world.fs
    unfold handleMessage
    split
    · rw [cancelRequestsForPeer, ((clears_own _).frame_eraseRequests _).world]
    · rcases handleBlock_cases sha1 { d with world := { d.world with faults } } ptr msg.payload failing
        with heq | ⟨i, offset, data, req, -, ⟨-, heq⟩ | ⟨-, -, heq⟩ | ⟨-, -, -, heq⟩⟩ <;> rw [heq]
      · show d.world.fs.Keeps (clearRequested _ i offset).world.fs
        rw [(frame_clearRequested _ i offset).world]
      · rfl
      · rw [settled, cancelDuplicateRequests,
          ((clears_duplicates i offset ptr failing).frame_eraseRequests _).world, fs_checkPiece]
        exact keeps_writeLoop (w := { d.world with faults })
    · exact .refl _

theorem keeps_run (sha1 : Bytes → Bytes) (d : Downloader) (events : List Event) :
    d.world.fs.Keeps (run sha1 d events).world.fs :=
  Run.invariant (P := fun s : Downloader => d.world.fs.Keeps s.world.fs)
    (fun s event hs => hs.trans (keeps_step sha1 s event)) events (.refl _)

theorem fs_restore (sha1 : Bytes → Bytes) (d : Downloader) (rounds : ℕ) :
    (restoreCompletedPieces sha1 d rounds).world.fs = d.world.fs := by
  have hfold : ∀ (pieces : List ℕ) (d : Downloader),
      (pieces.foldl (restorePiece sha1) d).world.fs = d.world.fs := by
    intro pieces
    induction pieces with
    | nil => exact fun _ => rfl
    | cons i pieces ih => exact fun d => (ih _).trans (fs_restorePiece sha1 d i)
  exact hfold _ { d with piecesCompletedCount := 0, downloadedBytes := 0 }

/-! ### The next start -/

/-- `start` opens the output files, and no failure is left for the checks that follow. -/
structure Opens (d : Downloader) (faults : List Fault) (w w' : World) (files : List OutputFile) :
    Prop where
  directory : Utils.createDirectories { d.world with faults } d.savePath = (true, w)
  opened : openOutputFiles d.torrent d.savePath d.options.overwrite w = ((true, files), w')
  no_faults : w'.faults = []

/-- Opening files of the right size again, without `--overwrite`, changes none of them. -/
theorem disk_reopened {torrent : TorrentInfo} (h : torrent.Accepted) {savePath : Bytes} {w w' : World}
    {files : List OutputFile}
    (hopen : openOutputFiles torrent savePath false w = ((true, files), w'))
    (hpaths : (files.map OutputFile.path).Nodup) (hmounted : Mounted w.fs files) :
    disk w'.fs files = disk w.fs files := by
  obtain ⟨-, hmounted'⟩ := openOutputFiles_true h hopen hpaths
  have hkeeps := (openOutputFiles_resumes h savePath w).keeps
  rw [hopen] at hkeeps
  apply disk_congr
  intro f hf handle hhandle
  obtain ⟨handle₁, h₁, c, hc, hlen⟩ := hmounted.ready f hf
  obtain ⟨handle₂, h₂, c', hc', hlen'⟩ := hmounted'.ready f hf
  rw [hhandle] at h₁ h₂
  cases h₁
  cases h₂
  obtain ⟨c'', hc'', hstart⟩ := hkeeps handle.loc c hc
  rw [show w'.fs.content handle.loc = some c'' from hc''] at hc' ⊢
  cases hc'
  rw [hc, hstart.eq_of_length (by omega)]

section Reopen

variable {s d' : Downloader} {w₀ w w' : World} {faults : List Fault} {files : List OutputFile}
  (h : d'.torrent.Accepted) (hresume : d'.options.overwrite = false)
  (hplanned : s.outputFiles = (plan d'.torrent d'.savePath).map (opened w₀.fs))
  (hkept : w₀.fs.Keeps s.world.fs) (hmounted : Mounted s.world.fs s.outputFiles)
  (hpaths : (s.outputFiles.map OutputFile.path).Nodup) (hworld : d'.world.fs = s.world.fs)
  (hopens : d'.Opens faults w w' files)

include h hresume hplanned hkept hmounted hpaths hworld hopens

/-- A start in the file system of another run works on the same files with the same content. -/
theorem files_reopened : files = s.outputFiles ∧ disk w'.fs files = disk s.world.fs s.outputFiles ∧
    Consecutive files 0 ∧ Mounted w'.fs files := by
  have hdirectory := Utils.createDirectories_grows { d'.world with faults } d'.savePath
  rw [hopens.directory] at hdirectory
  change d'.world.fs.Grows w.fs at hdirectory
  rw [hworld] at hdirectory
  have hopened := hopens.opened
  rw [hresume] at hopened
  -- all paths lead to the same places as before
  have hsame : files = s.outputFiles := by
    rw [hplanned, openOutputFiles_files h hopened]
    apply List.map_congr_left
    intro f _
    rw [opened, opened, hdirectory.target, hkept.target]
  subst hsame
  have hcontent : ∀ f ∈ s.outputFiles, ∀ handle, f.handle = some handle →
      w.fs.content handle.loc = s.world.fs.content handle.loc := by
    intro f hf handle hhandle
    obtain ⟨handle₁, h₁, c, hc, -⟩ := hmounted.ready f hf
    rw [hhandle] at h₁
    cases h₁
    rw [hdirectory.unchanged _ c hc, hc]
  have hmounted₁ : Mounted w.fs s.outputFiles := by
    apply hmounted.of_contents
    intro f hf handle hhandle c hc
    exact ⟨c, (hcontent f hf handle hhandle).trans hc, rfl⟩
  obtain ⟨hconsecutive', hmounted'⟩ := openOutputFiles_true h hopened hpaths
  exact ⟨rfl, (disk_reopened h hopened hpaths hmounted₁).trans (disk_congr hcontent), hconsecutive',
    hmounted'⟩

end Reopen

/-- The parts of `start` in a row. -/
theorem Opens.start_eq {w w' : World} {faults : List Fault} {files : List OutputFile}
    (h : d.Opens faults w w' files) (sha1 : Bytes → Bytes) :
    let r := restoreCompletedPieces sha1 { d with world := w', outputFiles := files }
      d.torrent.numPieces
    d.start sha1 faults none = (!r.isComplete, r) := by
  intro r
  rw [start, h.directory]
  simp only [h.opened, Option.getD_none, Option.isNone_none, Bool.true_and]
  rfl

/-- The bytes of a download in which pieces are either complete or empty. -/
theorem Tracked.downloadedBytes_of_whole {torrent : TorrentInfo} (h : Tracked torrent d)
    (ht : Fitting torrent) (hwhole : ∀ i < torrent.numPieces, ∀ b < d.blockCount i,
      d.blockReceived i b = d.pieceCompleted i) :
    d.downloadedBytes = ∑ i ∈ Finset.range torrent.numPieces,
      if d.pieceCompleted i then pieceSize torrent i else 0 := by
  obtain ⟨horderly, rfl, hcounted⟩ := h
  rw [hcounted.bytes, receivedBytes]
  apply Finset.sum_congr rfl
  intro i hi
  have hi := Finset.mem_range.1 hi
  have hblocks := hwhole i hi
  split_ifs with hcompleted
  · rw [hcompleted] at hblocks
    exact pieceBytes_of_full horderly.wellFormed ht hi hblocks
  · rw [Bool.not_eq_true] at hcompleted
    rw [hcompleted] at hblocks
    exact Chunks.marked_none _ _ hblocks

/-- A download all of whose pieces are marked is complete. -/
theorem isComplete_of_pieces (hd : d.WellFormed)
    (hcount : d.piecesCompletedCount = d.piecesCompleted.count true)
    (hall : ∀ i < d.torrent.numPieces, d.pieceCompleted i = true) : d.isComplete = true := by
  have hflags : ∀ flag ∈ d.piecesCompleted, true = flag := by
    intro flag hflag
    obtain ⟨i, hi, rfl⟩ := List.mem_iff_getElem.1 hflag
    have hflag := hall i (hd.completed_length ▸ hi)
    rw [pieceCompleted, List.getD_eq_getElem _ _ hi] at hflag
    exact hflag.symm
  rw [isComplete, hcount, List.count_eq_length.2 hflags, hd.completed_length]
  exact decide_eq_true le_rfl

/-- The state that restoring starts from: the files of the last run, with the same content. -/
theorem reopened (sha1 : Bytes → Bytes) {d : Downloader} (h : Startable d) (ht : Fitting d.torrent)
    {w₀ : World} (hopen : openOutputFiles d.torrent d.savePath d.options.overwrite w₀ =
      ((true, d.outputFiles), d.world))
    (hpaths : (d.outputFiles.map OutputFile.path).Nodup) (events : List Event) {d' : Downloader}
    (h' : Startable d') (htorrent : d'.torrent = d.torrent) (hpath : d'.savePath = d.savePath)
    (hresume : d'.options.overwrite = false)
    (hworld : d'.world.fs =
      (run sha1 (restoreCompletedPieces sha1 d d.torrent.numPieces) events).world.fs)
    {faults : List Fault} {w w' : World} {files : List OutputFile}
    (hopens : d'.Opens faults w w' files) :
    let s := run sha1 (restoreCompletedPieces sha1 d d.torrent.numPieces) events
    let e : Downloader := { d' with world := w', outputFiles := files }
    files = d.outputFiles ∧ files = s.outputFiles ∧
    disk w'.fs files = disk s.world.fs s.outputFiles ∧ e.Spread ∧ Startable e ∧
    ∀ i, e.VerifiedOnDisk sha1 i ↔ s.VerifiedOnDisk sha1 i := by
  obtain ⟨hconsecutive, hmounted⟩ := openOutputFiles_true h.accepted hopen hpaths
  intro s e
  obtain ⟨-, hts, -⟩ := tracked_run sha1 h ht events
  have hsound := sound_run sha1 h ht hconsecutive hmounted events
  obtain ⟨-, -, -, hrestored, -⟩ := restore_fields sha1 d d.torrent.numPieces h.wellFormed
  have hfiles : s.outputFiles = d.outputFiles :=
    Run.invariant (P := fun t : Downloader => t.outputFiles = d.outputFiles)
      (fun t event ht => ((step_fields sha1 t event).2.2).trans ht) events hrestored
  have hkept : w₀.fs.Keeps s.world.fs := by
    have hfirst := (openOutputFiles_leads d.torrent d.savePath d.options.overwrite w₀).keeps
    rw [hopen] at hfirst
    have hrun := keeps_run sha1 (restoreCompletedPieces sha1 d d.torrent.numPieces) events
    rw [fs_restore] at hrun
    exact hfirst.trans hrun
  have hplanned : s.outputFiles = (plan d'.torrent d'.savePath).map (opened w₀.fs) := by
    rw [hfiles, openOutputFiles_files h.accepted hopen, htorrent, hpath]
  obtain ⟨rfl, hdisk, hconsecutive', hmounted'⟩ := files_reopened h'.accepted hresume hplanned hkept
    hsound.mounted (hfiles.symm ▸ hpaths) hworld hopens
  have hte : e.torrent = d.torrent := htorrent
  have hspread : e.Spread := ⟨hconsecutive', hmounted', by
    rw [hte, show e.outputFiles = d.outputFiles from hfiles]
    exact sum_length_opened h.accepted hopen⟩
  refine ⟨hfiles, rfl, hdisk, hspread,
    ⟨h'.accepted, h'.pieceLength_le, h'.wellFormed.congr rfl rfl rfl, h'.no_pending⟩, fun i => ?_⟩
  have hpiece : e.pieceOnDisk i = s.pieceOnDisk i := by
    rw [pieceOnDisk, pieceOnDisk, hte, hts]
    exact congrArg (fun c => slice c _ _) hdisk
  rw [VerifiedOnDisk, VerifiedOnDisk, hpiece, hte, hts]

/-- **A restart finds what is verified**: take any state of a run, and a downloader for the same
torrent and save path that is then started without `--overwrite`, in the file system as the run has
left it. If its files open and reading does not fail, it works on the same files with the same
content; it marks exactly the pieces that are verified on disk, with all their blocks, among them all
that were marked before; it counts the bytes of just these; and it does not go on if the run was
complete. -/
theorem restart_restores (sha1 : Bytes → Bytes) {d : Downloader} (h : Startable d)
    (hpieces : d.torrent.numPieces < 2 ^ 32)
    (hend : d.torrent.totalLength + d.torrent.pieceLength.toInt < 2 ^ 63) {w₀ : World}
    (hopen : openOutputFiles d.torrent d.savePath d.options.overwrite w₀ =
      ((true, d.outputFiles), d.world))
    (hpaths : (d.outputFiles.map OutputFile.path).Nodup) (events : List Event) {d' : Downloader}
    (h' : Startable d') (htorrent : d'.torrent = d.torrent) (hpath : d'.savePath = d.savePath)
    (hresume : d'.options.overwrite = false)
    (hworld : d'.world.fs =
      (run sha1 (restoreCompletedPieces sha1 d d.torrent.numPieces) events).world.fs)
    {faults : List Fault} {w w' : World} {files : List OutputFile}
    (hopens : d'.Opens faults w w' files) :
    let s := run sha1 (restoreCompletedPieces sha1 d d.torrent.numPieces) events
    let r := (d'.start sha1 faults none).2
    r.outputFiles = s.outputFiles ∧
    disk r.world.fs r.outputFiles = disk s.world.fs s.outputFiles ∧
    (∀ i < d.torrent.numPieces, (r.pieceCompleted i = true ↔ s.VerifiedOnDisk sha1 i) ∧
      (s.pieceCompleted i = true → r.pieceCompleted i = true) ∧
      ∀ b, r.blockReceived i b = true ↔ b < r.blockCount i ∧ s.VerifiedOnDisk sha1 i) ∧
    r.downloadedBytes = (∑ i ∈ Finset.range d.torrent.numPieces,
      if r.pieceCompleted i then pieceSize d.torrent i else 0) ∧
    (s.isComplete = true → (d'.start sha1 faults none).1 = false) := by
  have ht := h.fitting hpieces hend
  obtain ⟨hconsecutive, hmounted⟩ := openOutputFiles_true h.accepted hopen hpaths
  intro s r
  obtain ⟨hwf, hts, hcounted⟩ := tracked_run sha1 h ht events
  have hsound := sound_run sha1 h ht hconsecutive hmounted events
  obtain ⟨-, rfl, hdisk, hspread, hstartable, hverified⟩ :=
    reopened sha1 h ht hopen hpaths events h' htorrent hpath hresume hworld hopens
  have hstart := hopens.start_eq sha1
  -- the state that restoring starts from
  set e : Downloader := { d' with world := w', outputFiles := s.outputFiles } with he
  have hte : e.torrent = d.torrent := htorrent
  have hr : r = restoreCompletedPieces sha1 e e.torrent.numPieces := congrArg Prod.snd hstart
  obtain ⟨hworld', hmarked⟩ := hspread.restore sha1 hopens.no_faults (hte.symm ▸ ht)
    hstartable.wellFormed e.torrent.numPieces le_rfl
  obtain ⟨hwfr, htr, -, hfr, -⟩ := restore_fields sha1 e e.torrent.numPieces hstartable.wellFormed
  have htracked := tracked_restore sha1 hstartable (hte.symm ▸ ht)
  rw [← hr] at hworld' hmarked hwfr htr hfr htracked
  rw [hte] at hmarked htracked
  have hcount : ∀ i < d.torrent.numPieces, e.blockCount i = r.blockCount i := by
    intro i hi
    rw [blockCount, blockCount, hstartable.wellFormed.totalBlocks i (hte.symm ▸ hi),
      hwfr.totalBlocks i (by rw [htr, hte]; exact hi), htr]
  have hexact : ∀ i < d.torrent.numPieces, (r.pieceCompleted i = true ↔ s.VerifiedOnDisk sha1 i) ∧
      (s.pieceCompleted i = true → r.pieceCompleted i = true) ∧
      ∀ b, r.blockReceived i b = true ↔ b < r.blockCount i ∧ s.VerifiedOnDisk sha1 i := by
    intro i hi
    obtain ⟨hflag, hblocks⟩ := hmarked i hi
    rw [hverified] at hflag
    refine ⟨hflag, fun hold => hflag.2 (hsound.verified i (hts.symm ▸ hi) hold), fun b => ?_⟩
    rw [hblocks, hverified, hcount i hi]
  refine ⟨hfr, ?_, hexact, ?_, fun hcomplete => ?_⟩
  · rw [hworld', hfr]
    exact hdisk
  · apply htracked.downloadedBytes_of_whole ht
    intro i hi b hb
    obtain ⟨hflag, -, hblocks⟩ := hexact i hi
    rw [Bool.eq_iff_iff, hblocks, hflag]
    exact and_iff_right hb
  · have hdone : r.isComplete = true := by
      apply isComplete_of_pieces hwfr htracked.counted.count
      intro i hi
      rw [htr, hte] at hi
      exact (hexact i hi).2.1 (pieceCompleted_of_isComplete hwf.wellFormed hcounted.count hcomplete
        (hts.symm ▸ hi))
    have hlaunched := congrArg Prod.fst hstart
    rw [show d'.torrent.numPieces = e.torrent.numPieces from rfl, ← hr, hdone] at hlaunched
    exact hlaunched

theorem startable_openedOneBlock : Startable openedOneBlock where
  accepted := startable_oneBlock.accepted
  pieceLength_le := startable_oneBlock.pieceLength_le
  wellFormed := startable_oneBlock.wellFormed.congr rfl rfl rfl
  no_pending := rfl

theorem opened_openedOneBlock :
    openOutputFiles oneBlockTorrent (ascii "d") false { fs := oneDirectory } =
      ((true, openedOneBlock.outputFiles), openedOneBlock.world) :=
  Prod.ext (Prod.ext (by decide +kernel) rfl) rfl

/-- What is there after the block has arrived. -/
def deliveredWorld : World :=
  (run sevenHash (restoreCompletedPieces sevenHash openedOneBlock 1) (delivery 7)).world

theorem opens_delivered : ∃ w w' files,
    (init oneBlockTorrent (ascii "d") {} deliveredWorld).Opens [] w w' files :=
  ⟨(Utils.createDirectories { deliveredWorld with faults := [] } (ascii "d")).2,
    (openOutputFiles oneBlockTorrent (ascii "d") false
      (Utils.createDirectories { deliveredWorld with faults := [] } (ascii "d")).2).2,
    (openOutputFiles oneBlockTorrent (ascii "d") false
      (Utils.createDirectories { deliveredWorld with faults := [] } (ascii "d")).2).1.2,
    Prod.ext (by decide +kernel) rfl, Prod.ext (Prod.ext (by decide +kernel) rfl) rfl,
    by decide +kernel⟩

/-- The block that has arrived is found again. -/
theorem restart_restores_oneBlock :
    let s := run sevenHash (restoreCompletedPieces sevenHash openedOneBlock 1) (delivery 7)
    let r := ((init oneBlockTorrent (ascii "d") {} s.world).start sevenHash [] none).2
    r.downloadedBytes = ∑ i ∈ Finset.range 1,
      if r.pieceCompleted i then pieceSize oneBlockTorrent i else 0 := by
  intro s r
  have hstart' : Startable (init oneBlockTorrent (ascii "d") {} s.world) :=
    startable_init (by decide +kernel) (by decide) _ _ _
  obtain ⟨w, w', files, hopens⟩ := opens_delivered
  exact (restart_restores sevenHash startable_openedOneBlock (by decide) (by decide)
    opened_openedOneBlock (by decide +kernel) (delivery 7) hstart' rfl rfl rfl rfl hopens).2.2.2.1

/-! ### Starting on a complete download -/

/-- Every round of restoring counts at most one piece. -/
theorem count_foldl_restorePiece (pieces : List ℕ) :
    (pieces.foldl (restorePiece sha1) d).piecesCompletedCount ≤
      d.piecesCompletedCount + pieces.length := by
  induction pieces generalizing d with
  | nil => exact le_rfl
  | cons i rest ih =>
    have hone : (restorePiece sha1 d i).piecesCompletedCount ≤ d.piecesCompletedCount + 1 := by
      rw [restorePiece]
      dsimp only
      split_ifs
      · exact le_rfl
      · exact Nat.le_succ _
    have hrest := ih (d := restorePiece sha1 d i)
    rw [List.foldl_cons, List.length_cons]
    omega

/-- Restoring that stops early has not found all pieces. -/
theorem restore_of_isComplete {rounds : ℕ}
    (h : (restoreCompletedPieces sha1 d rounds).isComplete = true) (hd : d.WellFormed) :
    restoreCompletedPieces sha1 d rounds = restoreCompletedPieces sha1 d d.torrent.numPieces := by
  have hall : (restoreCompletedPieces sha1 d rounds).torrent.numPieces ≤
      (restoreCompletedPieces sha1 d rounds).piecesCompletedCount := of_decide_eq_true h
  rw [(restore_fields sha1 d rounds hd).2.1] at hall
  have hcount : (restoreCompletedPieces sha1 d rounds).piecesCompletedCount ≤
      0 + ((List.range d.torrent.numPieces).take rounds).length := count_foldl_restorePiece _
  rw [List.length_take, List.length_range] at hcount
  rw [restoreCompletedPieces, restoreCompletedPieces, List.take_of_length_le,
    List.take_of_length_le] <;> rw [List.length_range]
  omega

/-- A download that is complete after `start` has opened its files and restored all pieces, whether or
not a stop was requested. -/
theorem start_complete {faults : List Fault} {stopAfter : Option ℕ}
    (h : (d.start sha1 faults stopAfter).2.isComplete = true) (hd : d.WellFormed)
    (hcount : d.piecesCompletedCount = 0) (hpos : 0 < d.torrent.numPieces) : ∃ w w' files,
      openOutputFiles d.torrent d.savePath d.options.overwrite w = ((true, files), w') ∧
      (d.start sha1 faults stopAfter).2 =
        restoreCompletedPieces sha1 { d with world := w', outputFiles := files } d.torrent.numPieces := by
  have hnot : ¬ d.torrent.numPieces ≤ d.piecesCompletedCount := by omega
  unfold start at h ⊢
  rcases hdir : Utils.createDirectories { d.world with faults } d.savePath with ⟨_ | _, w⟩ <;>
    rw [hdir] at h
  · exact absurd (of_decide_eq_true h) hnot
  dsimp only at h ⊢
  rcases hopen : openOutputFiles d.torrent d.savePath d.options.overwrite w with
    ⟨⟨_ | _, files⟩, w'⟩ <;> rw [hopen] at h
  · exact absurd (of_decide_eq_true h) hnot
  · exact ⟨w, w', files, hopen, restore_of_isComplete h (hd.congr rfl rfl rfl)⟩

/-! ### The torrent on disk -/

/-- The paths of the output files. -/
def paths (torrent : TorrentInfo) (savePath : Bytes) : List Bytes :=
  (plan torrent savePath).map OutputFile.path

/-- The output files have their paths, and hold all pieces. -/
structure OnDisk (sha1 : Bytes → Bytes) (torrent : TorrentInfo) (savePath : Bytes)
    (d : Downloader) : Prop where
  files : d.outputFiles.map OutputFile.path = paths torrent savePath
  verified : ∀ i < torrent.numPieces, d.VerifiedOnDisk sha1 i

theorem paths_of_open {torrent : TorrentInfo} (ht : torrent.Accepted) {savePath : Bytes}
    {overwrite : Bool} {w w' : World} {files : List OutputFile}
    (hopen : openOutputFiles torrent savePath overwrite w = ((true, files), w')) :
    files.map OutputFile.path = paths torrent savePath := by
  rw [openOutputFiles_files ht hopen, List.map_map]
  rfl

/-- The files that are restored. -/
theorem paths_of_restore (h : Startable d) {w w' : World} {files : List OutputFile}
    (hopen : openOutputFiles d.torrent d.savePath d.options.overwrite w = ((true, files), w')) :
    (restoreCompletedPieces sha1 { d with world := w', outputFiles := files }
      d.torrent.numPieces).outputFiles.map OutputFile.path = paths d.torrent d.savePath := by
  have hwf : WellFormed { d with world := w', outputFiles := files } := h.wellFormed.congr rfl rfl rfl
  rw [(restore_fields sha1 _ _ hwf).2.2.2.1]
  exact paths_of_open h.accepted hopen

/-- A download that is complete after `start` is on disk. -/
theorem onDisk_of_start (h : Startable d) (ht : Fitting d.torrent)
    (hpaths : (paths d.torrent d.savePath).Nodup) (hcount : d.piecesCompletedCount = 0)
    (hpos : 0 < d.torrent.numPieces) {faults : List Fault} {stopAfter : Option ℕ}
    (hcomplete : (d.start sha1 faults stopAfter).2.isComplete = true) :
    OnDisk sha1 d.torrent d.savePath (d.start sha1 faults stopAfter).2 := by
  obtain ⟨w, w', files, hopen, hrestored⟩ := start_complete hcomplete h.wellFormed hcount hpos
  have hopened : Startable { d with world := w', outputFiles := files } :=
    ⟨h.accepted, h.pieceLength_le, h.wellFormed.congr rfl rfl rfl, h.no_pending⟩
  have hfiles := paths_of_open h.accepted hopen
  obtain ⟨hconsecutive, hmounted⟩ := openOutputFiles_true h.accepted hopen (hfiles.symm ▸ hpaths)
  have hsound := sound_restore sha1 hopened ht hconsecutive hmounted
  have htracked := tracked_restore sha1 hopened ht
  have htorrent := htracked.torrent_eq
  rw [hrestored] at hcomplete ⊢
  refine ⟨paths_of_restore h hopen, fun i hi => hsound.verified i (htorrent.symm ▸ hi) ?_⟩
  exact pieceCompleted_of_isComplete htracked.orderly.wellFormed htracked.counted.count hcomplete
    (htorrent.symm ▸ hi)

theorem OnDisk.congr {torrent : TorrentInfo} {savePath : Bytes} {d' : Downloader}
    (h : OnDisk sha1 torrent savePath d) (htorrent : d'.torrent = d.torrent)
    (hfiles : d'.outputFiles = d.outputFiles) (hfs : d'.world.fs = d.world.fs) :
    OnDisk sha1 torrent savePath d' where
  files := hfiles ▸ h.files
  verified i hi := (h.verified i hi).congr htorrent hfiles hfs

end Gush.Downloader
