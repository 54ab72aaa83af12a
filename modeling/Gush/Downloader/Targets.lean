import Gush.Downloader.OnDisk

/-!
# One output file per entry

Several files of a torrent can have the same path once `sanitizePath` has dropped and replaced
what it does not accept, and nothing looks for that: `validateTorrentInfo` compares no paths, and
the preflight sees the disk as it was. `ownCells_iff` says for which torrents the opened files keep
the bytes of the torrent apart.
-/

namespace Gush

open Cxx Posix

namespace Downloader

/-- The bytes of the torrent that belong to an output file. -/
def OutputFile.Holds (f : OutputFile) (offset : ℤ) : Prop :=
  f.startOffset ≤ offset ∧ offset < f.startOffset + f.length

/-- The output files have different paths, and every byte of the torrent has a cell of its own: a
path and an offset in the file there. -/
structure OwnCells (torrent : TorrentInfo) (files : List OutputFile) : Prop where
  distinct : (files.map OutputFile.path).Nodup
  stored : ∀ offset, 0 ≤ offset → offset < torrent.totalLength → ∃ f ∈ files, f.Holds offset
  own : ∀ f ∈ files, ∀ g ∈ files, ∀ x y, f.Holds x → g.Holds y →
    (f.path, x - f.startOffset) = (g.path, y - g.startOffset) → x = y

/-- Consecutive files hold every byte from their start to their end. -/
theorem Consecutive.exists_holds {files : List OutputFile} :
    ∀ {off offset : ℤ}, Consecutive files off → off ≤ offset →
      offset < off + (files.map OutputFile.length).sum → ∃ f ∈ files, f.Holds offset := by
  induction files with
  | nil =>
    intro off offset _ hlo hhi
    simp only [List.map_nil, List.sum_nil] at hhi
    omega
  | cons f files ih =>
    rintro off offset ⟨hstart, -, hrest⟩ hlo hhi
    rw [List.map_cons, List.sum_cons] at hhi
    by_cases hend : offset < off + f.length
    · exact ⟨f, List.mem_cons_self, by omega, by omega⟩
    · obtain ⟨g, hg, hholds⟩ := ih hrest (not_lt.1 hend) (by omega)
      exact ⟨g, List.mem_cons_of_mem f hg, hholds⟩

/-- Files that follow each other under different paths keep the bytes apart. -/
theorem ownCells_of_nodup {torrent : TorrentInfo} {files : List OutputFile}
    (hfiles : Consecutive files 0)
    (htotal : (files.map OutputFile.length).sum = torrent.totalLength)
    (hpaths : (files.map OutputFile.path).Nodup) : OwnCells torrent files where
  distinct := hpaths
  stored offset hlo hhi := hfiles.exists_holds hlo (by omega)
  own := by
    intro f hf g hg x y _ _ hcell
    have hpath : f.path = g.path := congrArg Prod.fst hcell
    obtain rfl : f = g := List.inj_on_of_nodup_map hpaths hf hg hpath
    have hoffset : x - f.startOffset = y - f.startOffset := congrArg Prod.snd hcell
    omega

/-! ### The paths and lengths of the layout -/

theorem map_path_layout {savePath : Bytes} {files : List FileEntry} : ∀ {off : ℤ},
    (layout savePath files off).map OutputFile.path =
      (files.map fun f => Utils.sanitizePath f.path).map fun relPath =>
        savePath ++ '/'.toUInt8 :: relPath := by
  induction files with
  | nil => exact rfl
  | cons f files ih => exact congrArg (_ :: ·) ih

theorem map_length_layout {savePath : Bytes} {files : List FileEntry} : ∀ {off : ℤ},
    (layout savePath files off).map OutputFile.length = files.map fun f => f.length.toInt := by
  induction files with
  | nil => exact rfl
  | cons f files ih => exact congrArg (_ :: ·) ih

/-- Opening changes neither paths nor lengths. -/
theorem map_opened {α : Type} (field : OutputFile → α) (fs : FileSystem)
    (hfield : ∀ f, field (opened fs f) = field f) (files : List OutputFile) :
    (files.map (opened fs)).map field = files.map field := by
  rw [List.map_map]
  exact List.map_congr_left fun f _ => hfield f

/-- Behind the save directory and a slash, different relative paths are different paths. -/
theorem nodup_prepend_iff {savePath : Bytes} {relPaths : List Bytes} :
    (relPaths.map fun relPath => savePath ++ '/'.toUInt8 :: relPath).Nodup ↔ relPaths.Nodup := by
  apply List.nodup_map_iff
  intro p p' heq
  exact (List.cons.inj (List.append_cancel_left heq)).2

/-- **One output file per entry, exactly**: when `openOutputFiles` has opened the files of an
accepted torrent, their paths are distinct and every byte has a cell of its own if and only if the
paths of the entries are still distinct after `sanitizePath`. -/
theorem ownCells_iff {torrent : TorrentInfo} (h : validateTorrentInfo torrent = .ok ())
    (hmulti : torrent.isMultiFile = true) {savePath : Bytes} {overwrite : Bool} {w w' : World}
    {files : List OutputFile}
    (hopen : openOutputFiles torrent savePath overwrite w = ((true, files), w')) :
    OwnCells torrent files ↔ (torrent.files.map fun f => Utils.sanitizePath f.path).Nodup := by
  have haccepted : torrent.Accepted := h
  rw [openOutputFiles, if_neg (not_lt.2 haccepted.totalLength_nonneg), if_pos hmulti] at hopen
  obtain ⟨w₁, w₂, rfl, -⟩ := openMultiFile_true hopen
  have hpaths : (((layout savePath torrent.files 0).map (opened w₁.fs)).map OutputFile.path).Nodup ↔
      (torrent.files.map fun f => Utils.sanitizePath f.path).Nodup := by
    rw [map_opened OutputFile.path w₁.fs fun _ => rfl, map_path_layout, nodup_prepend_iff]
  rw [← hpaths]
  constructor
  · exact fun hcells => hcells.distinct
  · have hsum := haccepted.sum_lt
    rw [TorrentInfo.lengths, if_pos hmulti] at hsum
    have hconsecutive : Consecutive (layout savePath torrent.files 0) 0 :=
      consecutive_layout le_rfl (fun f hf => (haccepted.file_ok hf).2) (by omega)
    apply ownCells_of_nodup (consecutive_opened w₁.fs hconsecutive)
    rw [map_opened OutputFile.length w₁.fs fun _ => rfl, map_length_layout,
      haccepted.totalLength_eq, TorrentInfo.lengths, if_pos hmulti]

/-! ### Two entries for one file -/

/-- A torrent of two one-byte files whose paths are `a` and `./a`. -/
def collidingTorrent : TorrentInfo :=
  { name := ascii "t"
    pieceLength := 2
    pieces := List.replicate 20 0
    files := [{ path := ascii "a", length := 1 }, { path := ascii "./a", length := 1 }] }

theorem validate_collidingTorrent : validateTorrentInfo collidingTorrent = .ok () := by
  decide +kernel

/-- The result of opening, when it is `true`. -/
theorem open_of_true {torrent : TorrentInfo} {savePath : Bytes} {overwrite : Bool} {w : World}
    (h : (openOutputFiles torrent savePath overwrite w).1.1 = true) :
    openOutputFiles torrent savePath overwrite w =
      ((true, (openOutputFiles torrent savePath overwrite w).1.2),
        (openOutputFiles torrent savePath overwrite w).2) :=
  Prod.ext (Prod.ext h rfl) rfl

/-- Both entries are opened and resized, and the result is `true`. -/
theorem open_collidingTorrent :
    openOutputFiles collidingTorrent (ascii "d") false { fs := oneDirectory } =
      ((true, (openOutputFiles collidingTorrent (ascii "d") false { fs := oneDirectory }).1.2),
        (openOutputFiles collidingTorrent (ascii "d") false { fs := oneDirectory }).2) :=
  open_of_true (by decide +kernel)

/-- The same with files `a` and `b`. -/
def distinctTorrent : TorrentInfo :=
  { collidingTorrent with
    files := [{ path := ascii "a", length := 1 }, { path := ascii "b", length := 1 }] }

/-- Two files have cells of their own; for the two entries of one file this is equivalent to their
paths being distinct. -/
theorem ownCells_iff_twoFiles :
    OwnCells distinctTorrent
        (openOutputFiles distinctTorrent (ascii "d") false { fs := oneDirectory }).1.2 ∧
    (OwnCells collidingTorrent
        (openOutputFiles collidingTorrent (ascii "d") false { fs := oneDirectory }).1.2 ↔
      (collidingTorrent.files.map fun f => Utils.sanitizePath f.path).Nodup) :=
  ⟨(ownCells_iff (by decide +kernel) (by decide) (open_of_true (by decide +kernel))).2 (by decide +kernel),
    ownCells_iff validate_collidingTorrent (by decide) open_collidingTorrent⟩

/-- Distinct paths are not guaranteed. -/
theorem not_forall_ownCells :
    ¬ ∀ torrent, validateTorrentInfo torrent = .ok () → torrent.isMultiFile = true →
      ∀ savePath overwrite w files w',
        openOutputFiles torrent savePath overwrite w = ((true, files), w') →
        OwnCells torrent files := by
  intro h
  have hcells := h collidingTorrent validate_collidingTorrent (by decide) _ _ _ _ _
    open_collidingTorrent
  have hcollide : ¬ ((openOutputFiles collidingTorrent (ascii "d") false
      { fs := oneDirectory }).1.2.map OutputFile.path).Nodup := by
    decide +kernel
  exact hcollide hcells.distinct

end Downloader

end Gush
