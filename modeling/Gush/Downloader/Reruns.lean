import Gush.Downloader.Restart
import Mathlib.Logic.Relation

/-!
# Any number of restarts

A download may be stopped at any point and be taken up again, as often as one likes. Once the pieces
are restored anything may happen: peers lie, the disk fails, pieces fail their check. What has once
been verified on disk stays so (`verified_kept`), because a start marks it and nothing writes to a
marked piece. While the pieces are restored no read may fail: a verified piece that cannot be read is
not marked, so it is asked for again and written over.
-/

namespace Gush.Downloader

open Cxx Posix

variable {sha1 : Bytes → Bytes} {d d' s t : Downloader} {i : ℕ}

/-! ### A run keeps its marks -/

theorem completed_of_frame (hframe : Frame d d') (h : d.pieceCompleted i = true) :
    d'.pieceCompleted i = true := by
  rw [pieceCompleted, hframe.piecesCompleted]
  exact h

/-- The check of a piece may mark it, and takes no mark back. -/
theorem completed_checkPiece (sha1 : Bytes → Bytes) (pieceIndex : ℕ) (h : d.pieceCompleted i = true) :
    (d.checkPiece sha1 pieceIndex).pieceCompleted i = true := by
  rcases checkPiece_eq sha1 d pieceIndex with ⟨-, heq⟩ | ⟨-, world, ⟨-, heq⟩ | ⟨-, heq⟩⟩ <;> rw [heq]
  · exact h
  · show (d.piecesCompleted.set pieceIndex true).getD i false = true
    have hi : i < d.piecesCompleted.length := by
      by_contra hle
      rw [pieceCompleted, List.getD_eq_default _ _ (not_lt.1 hle)] at h
      cases h
    rw [pieceCompleted, List.getD_eq_getElem _ _ hi] at h
    rw [List.getD_eq_getElem _ _ (by rwa [List.length_set]), List.getElem_set]
    split_ifs
    · rfl
    · exact h
  · exact h

theorem completed_handleBlock (sha1 : Bytes → Bytes) (ptr : ℕ) (payload : Bytes) (failing : List ℕ)
    (h : d.pieceCompleted i = true) : (d.handleBlock sha1 ptr payload failing).pieceCompleted i = true := by
  rcases handleBlock_cases sha1 d ptr payload failing with
    heq | ⟨pieceIndex, offset, blockData, req, -, hcases⟩
  · rw [heq]
    exact h
  · rcases hcases with ⟨-, heq⟩ | ⟨-, -, heq⟩ | ⟨-, -, -, heq⟩ <;> rw [heq]
    · have hcleared : (d.clearRequested pieceIndex offset).pieceCompleted i = true :=
        completed_of_frame (frame_clearRequested d pieceIndex offset) h
      exact hcleared
    · exact h
    · have haccepted : (d.acceptBlock pieceIndex offset ptr blockData).pieceCompleted i = true := h
      exact completed_of_frame ((clears_duplicates pieceIndex offset ptr failing).frame_eraseRequests _)
        (completed_checkPiece sha1 pieceIndex haccepted)

theorem completed_step (sha1 : Bytes → Bytes) (event : Event) (h : d.pieceCompleted i = true) :
    (step sha1 d event).pieceCompleted i = true := by
  cases event with
  | connections peers => exact h
  | message ptr msg faults failing =>
    show (handleMessage sha1 _ ptr msg failing).pieceCompleted i = true
    unfold handleMessage
    split
    · exact completed_of_frame ((clears_own _).frame_eraseRequests _) h
    · exact completed_handleBlock sha1 ptr msg.payload failing h
    · exact h
  | request ptr sends now => exact completed_of_frame (frame_requestBlocksFromPeer d ptr sends now) h
  | timeouts now => exact completed_of_frame ((clears_own _).frame_eraseRequests d) h
  | endgame value => exact h

/-- A piece that is marked stays marked. -/
theorem completed_run (sha1 : Bytes → Bytes) (events : List Event) (h : d.pieceCompleted i = true) :
    (run sha1 d events).pieceCompleted i = true :=
  Run.invariant (P := fun s : Downloader => s.pieceCompleted i = true)
    (fun _ event hs => completed_step sha1 event hs) events h

/-! ### Executions -/

/-- A state of an execution: the files, whose paths differ, have been opened and the pieces restored,
and then anything has happened. -/
def Executed (sha1 : Bytes → Bytes) (torrent : TorrentInfo) (savePath : Bytes) (s : Downloader) : Prop :=
  ∃ d w events, Startable d ∧ d.torrent = torrent ∧ d.savePath = savePath ∧
    openOutputFiles d.torrent d.savePath d.options.overwrite w = ((true, d.outputFiles), d.world) ∧
    (d.outputFiles.map OutputFile.path).Nodup ∧
    s = run sha1 (restoreCompletedPieces sha1 d d.torrent.numPieces) events

/-- The next execution, in the file system that the last one has left. It is without `--overwrite`, its
files open, no call fails while the pieces are restored, and then anything happens. -/
def Continues (sha1 : Bytes → Bytes) (torrent : TorrentInfo) (savePath : Bytes) (s t : Downloader) :
    Prop :=
  ∃ options world faults w w' files events, options.overwrite = false ∧ world.fs = s.world.fs ∧
    (init torrent savePath options world).Opens faults w w' files ∧
    t = run sha1 ((init torrent savePath options world).start sha1 faults none).2 events

variable {torrent : TorrentInfo} {savePath : Bytes}

theorem Executed.spec (h : Executed sha1 torrent savePath s) (ht : Fitting torrent) :
    Tracked torrent s ∧ Sound sha1 s := by
  obtain ⟨d, w, events, hd, rfl, rfl, hopen, hpaths, rfl⟩ := h
  obtain ⟨hconsecutive, hmounted⟩ := openOutputFiles_true hd.accepted hopen hpaths
  exact ⟨tracked_run sha1 hd ht events, sound_run sha1 hd ht hconsecutive hmounted events⟩

/-- The next execution marks what it finds, and keeps its marks. -/
theorem Executed.continues (h : Executed sha1 torrent savePath s) (ht : Fitting torrent)
    (hnext : Continues sha1 torrent savePath s t) : Executed sha1 torrent savePath t ∧
      ∀ i < torrent.numPieces, s.VerifiedOnDisk sha1 i → t.pieceCompleted i = true := by
  obtain ⟨d, w₀, events, hd, rfl, rfl, hopen, hpaths, rfl⟩ := h
  obtain ⟨options, world, faults, w, w', files, later, hresume, hworld, hopens, rfl⟩ := hnext
  obtain ⟨hfiles, -, -, hspread, hstartable, hverified⟩ := reopened sha1 hd ht hopen hpaths events
    (startable_init ht.accepted ht.pieceLength_le d.savePath options world) rfl rfl hresume hworld hopens
  rw [congrArg Prod.snd (hopens.start_eq sha1)]
  constructor
  · exact ⟨_, w, later, hstartable, rfl, rfl, hopens.opened, hfiles ▸ hpaths, rfl⟩
  · intro i hi hs
    obtain ⟨-, hmarked⟩ := hspread.restore sha1 hopens.no_faults ht hstartable.wellFormed
      d.torrent.numPieces le_rfl
    exact completed_run sha1 later ((hmarked i hi).1.2 ((hverified i).2 hs))

/-- **What is verified is kept**: take a torrent within the limits, whose output paths differ. However
often the download is taken up again so that no call fails while the pieces are restored, and whatever
happens after that in each execution, the pieces that were verified on disk still are, and a complete
download is still complete. -/
theorem verified_kept (ht : Fitting torrent) (hs : Executed sha1 torrent savePath s)
    (hst : Relation.ReflTransGen (Continues sha1 torrent savePath) s t) :
    (∀ i < torrent.numPieces, s.VerifiedOnDisk sha1 i → t.VerifiedOnDisk sha1 i) ∧
      (s.isComplete = true → t.isComplete = true) := by
  suffices hall : Executed sha1 torrent savePath t ∧
      (∀ i < torrent.numPieces, s.VerifiedOnDisk sha1 i → t.VerifiedOnDisk sha1 i) ∧
      (s.isComplete = true → t.isComplete = true) from hall.2
  induction hst with
  | refl => exact ⟨hs, fun _ _ h => h, id⟩
  | @tail t u _ hnext ih =>
    obtain ⟨ht', hkept, hdone⟩ := ih
    obtain ⟨htracked, hsound⟩ := ht'.spec ht
    obtain ⟨hu, hmarked⟩ := ht'.continues ht hnext
    obtain ⟨htracked', hsound'⟩ := hu.spec ht
    refine ⟨hu, fun i hi h => ?_, fun h => ?_⟩
    · exact hsound'.verified i (htracked'.torrent_eq.symm ▸ hi) (hmarked i hi (hkept i hi h))
    · apply isComplete_of_pieces htracked'.orderly.wellFormed htracked'.counted.count
      intro i hi
      rw [htracked'.torrent_eq] at hi
      have hi' : i < t.torrent.numPieces := htracked.torrent_eq.symm ▸ hi
      exact hmarked i hi (hsound.verified i hi' (pieceCompleted_of_isComplete
        htracked.orderly.wellFormed htracked.counted.count (hdone h) hi'))

/-- The block has arrived, and the download is started once more. -/
theorem verified_kept_oneBlock :
    ((init oneBlockTorrent (ascii "d") {} deliveredWorld).start sevenHash [] none).2.isComplete =
      true := by
  obtain ⟨w, w', files, hopens⟩ := opens_delivered
  have hexecuted : Executed sevenHash oneBlockTorrent (ascii "d")
      (run sevenHash (restoreCompletedPieces sevenHash openedOneBlock 1) (delivery 7)) :=
    ⟨openedOneBlock, _, delivery 7, startable_openedOneBlock, rfl, rfl, opened_openedOneBlock,
      by decide +kernel, rfl⟩
  have hnext : Continues sevenHash oneBlockTorrent (ascii "d")
      (run sevenHash (restoreCompletedPieces sevenHash openedOneBlock 1) (delivery 7))
      ((init oneBlockTorrent (ascii "d") {} deliveredWorld).start sevenHash [] none).2 :=
    ⟨{}, deliveredWorld, [], w, w', files, [], rfl, rfl, hopens, rfl⟩
  exact (verified_kept (startable_openedOneBlock.fitting (by decide) (by decide)) hexecuted
    (.single hnext)).2 (by decide +kernel)

end Gush.Downloader
