import Gush.Downloader.Targets

/-!
# Writing and reading pieces

`writtenBytes` counts the bytes that the loop of `writePiece` gets written. Once it has written all
of its data, the data is where it belongs in the content of the torrent (`writeLoop_stored`), and
this is what happens unless a call fails (`writtenBytes_eq`). The same goes for the loop of
`readPieceFromDisk`, so that both agree on where a piece is: `write_read_piece`.
-/

namespace Gush

open Cxx Posix Slice

namespace Posix.World

variable {w : World} {handle : Handle} {c : Bytes}

theorem pop_of_nil (h : w.faults = []) : w.pop = w := by
  obtain ⟨fs, faults, calls⟩ := w
  cases h
  rfl

theorem attempt_ok (h : w.faults = []) : w.attempt = (.ok (), w) := by
  have hcall : w.attempt = (.ok (), { w.pop with fs := w.fs }) := by simp [attempt, call, fault, h]
  rw [hcall, pop_of_nil h]

theorem fread_ok (h : w.faults = []) (hc : w.fs.content handle.loc = some c) (pos n : ℕ) :
    w.fread handle pos n = (slice c pos n, w) := by
  rw [fread, hc, pop_of_nil h]
  simp [moved, fault, h, slice]

theorem fwrite_count_le (w : World) (handle : Handle) (pos : ℕ) (data : Bytes) :
    (w.fwrite handle pos data).1 ≤ data.length := by
  unfold fwrite moved
  split
  · exact Nat.zero_le _
  · simp only
    split
    · exact Nat.zero_le _
    · split
      · exact le_rfl
      · exact min_le_right _ _

/-- A full write within a file puts the data into it. -/
theorem fwrite_full (hc : w.fs.content handle.loc = some c) {pos : ℕ} {data : Bytes}
    (hfull : (w.fwrite handle pos data).1 = data.length) :
    (w.fwrite handle pos data).2.fs.content handle.loc = some (overwritten c pos data) := by
  obtain ⟨fs', hset⟩ := FileSystem.setContent_of_content hc
    (overwritten c pos (data.take (w.moved data.length)))
  have hwrite : w.fwrite handle pos data = (w.moved data.length, { w.pop with fs := fs' }) := by
    unfold fwrite
    rw [hc]
    simp only [hset]
  rw [hwrite] at hfull ⊢
  simp only at hfull ⊢
  rw [FileSystem.content_setContent hset, if_pos rfl, hfull, List.take_length]

/-- A write to a file is full unless it fails. -/
theorem fwrite_ok (h : w.faults = []) (hc : w.fs.content handle.loc = some c) (pos : ℕ)
    (data : Bytes) : (w.fwrite handle pos data).1 = data.length ∧
      (w.fwrite handle pos data).2.faults = [] := by
  obtain ⟨fs', hset⟩ := FileSystem.setContent_of_content hc
    (overwritten c pos (data.take (w.moved data.length)))
  unfold fwrite
  rw [hc]
  simp only [hset]
  simp [moved, fault, pop, h]

theorem length_overwritten {pos : ℕ} {data : Bytes} (hin : pos + data.length ≤ c.length) :
    (overwritten c pos data).length = c.length := by
  rw [overwritten]
  simp
  omega

/-- The slice that was written. -/
theorem slice_overwritten {pos : ℕ} {data : Bytes} (hin : pos + data.length ≤ c.length) :
    slice (overwritten c pos data) pos data.length = data := by
  have hgap : pos - c.length = 0 := by omega
  have hpos : (c.take pos).length = pos := by
    rw [List.length_take]
    omega
  rw [overwritten, hgap, List.replicate_zero, List.append_nil, List.append_assoc, slice,
    List.drop_left' hpos, List.take_left]

end Posix.World

namespace Downloader

/-- The number of bytes that the loop of `writePiece` has written when it ends. -/
def writtenBytes : List OutputFile → ℤ → Bytes → World → ℕ
  | [], _, _, _ => 0
  | f :: files, absOffset, data, w =>
    if data = [] then 0
    else if absOffset ≥ f.startOffset + f.length then writtenBytes files absOffset data w
    else if absOffset < f.startOffset then 0
    else
      let within := absOffset - f.startOffset
      let avail := f.length - within
      if avail ≤ 0 then writtenBytes files absOffset data w
      else
        match f.handle with
        | none => 0
        | some handle =>
          let chunk := min data.length avail.toNat
          match w.attempt with
          | (.error _, _) => 0
          | (.ok (), w) =>
            match w.fwrite handle within.toNat (data.take chunk) with
            | (count, w) =>
              if count ≠ chunk then count
              else count + writtenBytes files (absOffset + chunk) (data.drop chunk) w

/-- The loop over the other files leaves the content of the first one. -/
theorem disk_writeLoop_cons {f : OutputFile} {files : List OutputFile} {off : ℤ} {w : World}
    {handle : Handle} {c : Bytes} (hrest : Consecutive files off) (hmounted : Mounted w.fs files)
    (hne : ∀ g ∈ files, ∀ handle', g.handle = some handle' → handle'.loc ≠ handle.loc)
    (hhandle : f.handle = some handle) (hc : w.fs.content handle.loc = some c) (absOffset : ℤ)
    (data : Bytes) : disk (writeLoop files absOffset data w).fs (f :: files) =
      c ++ disk (writeLoop files absOffset data w).fs files := by
  have hwrote := @writeLoop_spec files off absOffset data w hrest hmounted
  have hc' : (writeLoop files absOffset data w).fs.content handle.loc = some c := by
    rw [hwrote.elsewhere handle.loc hne, hc]
  rw [← fileContent_eq hhandle hc']
  rfl

/-- Once all data is written, it is a slice of the content. -/
theorem writeLoop_stored {files : List OutputFile} : ∀ {off absOffset : ℤ} {data : Bytes}
    {w : World}, Consecutive files off → Mounted w.fs files → off ≤ absOffset →
      writtenBytes files absOffset data w = data.length →
      slice (disk (writeLoop files absOffset data w).fs files) (absOffset - off).toNat data.length =
        data := by
  induction files with
  | nil =>
    intro off absOffset data w _ _ _ hall
    have hnil : data = [] := List.length_eq_zero_iff.1 hall.symm
    simp [hnil]
  | cons f files ih =>
    intro off absOffset data w hconsecutive hmounted hoff hall
    obtain ⟨hstart, hlength, hrest⟩ := hconsecutive
    obtain ⟨handle, hhandle, c, hc, hlen⟩ := hmounted.ready f List.mem_cons_self
    rw [writtenBytes] at hall
    rw [writeLoop]
    split_ifs at hall ⊢ with hdone hbehind hbefore
    · simp [hdone]
    -- the file lies before the position, and stays as it is
    · have hstored := ih hrest hmounted.tail (by omega) hall
      have hpos : (absOffset - off).toNat - c.length = (absOffset - (off + f.length)).toNat := by
        omega
      rw [disk_writeLoop_cons hrest hmounted.tail (hmounted.head_ne hhandle) hhandle hc,
        slice_append_of_length_le (by omega), hpos]
      exact hstored
    · omega
    · simp only at hall ⊢
      split_ifs at hall ⊢ with havail
      · omega
      · rw [hhandle] at hall ⊢
        simp only at hall ⊢
        have hfs := World.fs_attempt (w := w)
        cases hattempt : w.attempt with
        | mk result w₁ =>
          rw [hattempt] at hfs
          simp only [hattempt] at hall ⊢
          cases result with
          | error e => exact absurd (List.length_eq_zero_iff.1 hall.symm) hdone
          -- a chunk goes to this file, and the rest of the data to the others
          | ok _ =>
            simp only at hall ⊢
            set within := absOffset - f.startOffset with hwithin
            set chunk := min data.length (f.length - within).toNat with hchunk
            have hc₁ : w₁.fs.content handle.loc = some c := by rw [hfs, hc]
            have hlen_chunk : (data.take chunk).length = chunk := by
              rw [List.length_take]
              omega
            have hcount := World.fwrite_count_le w₁ handle within.toNat (data.take chunk)
            have hfull := @World.fwrite_full w₁ handle c hc₁ within.toNat (data.take chunk)
            obtain ⟨hother, -⟩ := World.fwrite_spec hc₁ within.toNat (data.take chunk) (by omega)
            rw [hfs] at hother
            cases hwrite : w₁.fwrite handle within.toNat (data.take chunk) with
            | mk count w₂ =>
              rw [hwrite] at hall hcount hfull hother
              simp only at hall ⊢
              split_ifs at hall ⊢ with hshort
              · omega
              · rw [not_not] at hshort
                subst hshort
                have hc' := hfull hlen_chunk.symm
                set c' := World.overwritten c within.toNat (data.take chunk) with hoverwritten
                have hmounted₂ : Mounted w₂.fs files := hmounted.tail_of_other hhandle hother
                have hlen' : c'.length = c.length := World.length_overwritten (by omega)
                have hpos : (absOffset - off).toNat = within.toNat := by omega
                rw [disk_writeLoop_cons hrest hmounted₂ (hmounted.head_ne hhandle) hhandle hc', hpos]
                apply slice_append_eq (k := chunk) (by omega) (by omega)
                · have hslice : slice c' within.toNat (data.take chunk).length = data.take chunk :=
                    World.slice_overwritten (by omega)
                  rwa [hlen_chunk] at hslice
                · intro hend
                  have hstored := @ih (off + f.length) (absOffset + chunk) (data.drop chunk) w₂ hrest
                    hmounted₂ (by omega) (by rw [List.length_drop]; omega)
                  have hzero : (absOffset + chunk - (off + f.length)).toNat = 0 := by omega
                  rwa [hzero] at hstored

/-! ### Without failures -/

/-- Without failures, all data that lies within the files is written. -/
theorem writtenBytes_eq {files : List OutputFile} : ∀ {off absOffset : ℤ} {data : Bytes}
    {w : World}, Consecutive files off → Mounted w.fs files → w.faults = [] → off ≤ absOffset →
      absOffset + data.length ≤ off + (files.map OutputFile.length).sum →
      writtenBytes files absOffset data w = data.length := by
  induction files with
  | nil =>
    intro off absOffset data w _ _ _ hoff hend
    rw [List.map_nil, List.sum_nil] at hend
    show 0 = data.length
    omega
  | cons f files ih =>
    intro off absOffset data w hconsecutive hmounted hfaults hoff hend
    obtain ⟨hstart, hlength, hrest⟩ := hconsecutive
    obtain ⟨handle, hhandle, c, hc, hlen⟩ := hmounted.ready f List.mem_cons_self
    rw [List.map_cons, List.sum_cons] at hend
    rw [writtenBytes]
    split_ifs with hdone hbehind hbefore
    · simp [hdone]
    · exact ih hrest hmounted.tail hfaults (by omega) (by omega)
    · omega
    · simp only
      split_ifs with havail
      · omega
      · rw [hhandle, World.attempt_ok hfaults]
        simp only
        set within := absOffset - f.startOffset with hwithin
        set chunk := min data.length (f.length - within).toNat with hchunk
        have hlen_chunk : (data.take chunk).length = chunk := by
          rw [List.length_take]
          omega
        obtain ⟨hfull, hfaults'⟩ := World.fwrite_ok hfaults hc within.toNat (data.take chunk)
        obtain ⟨hother, -⟩ := World.fwrite_spec hc within.toNat (data.take chunk) (by omega)
        cases hwrite : w.fwrite handle within.toNat (data.take chunk) with
        | mk count w₂ =>
          rw [hwrite] at hfull hfaults' hother
          have hcount : count = chunk := by rw [← hlen_chunk, ← hfull]
          have hmounted₂ : Mounted w₂.fs files := hmounted.tail_of_other hhandle hother
          simp only
          rw [if_neg (not_not.2 hcount), hcount]
          by_cases hlast : data.length ≤ (f.length - within).toNat
          · -- nothing is left for the other files
            have hnil : data.drop chunk = [] := List.drop_of_length_le (by omega)
            have hzero : writtenBytes files (absOffset + chunk) (data.drop chunk) w₂ = 0 := by
              rw [hnil]
              cases files <;> rfl
            omega
          · have hstep := @ih (off + f.length) (absOffset + chunk) (data.drop chunk) w₂ hrest
              hmounted₂ hfaults' (by omega) (by rw [List.length_drop]; omega)
            rw [hstep, List.length_drop]
            omega

/-- Without failures, all bytes that lie within the files are read. -/
theorem readLoop_ok {files : List OutputFile} : ∀ {off absOffset : ℤ} {n : ℕ} {w : World},
    Consecutive files off → Mounted w.fs files → w.faults = [] → off ≤ absOffset →
      absOffset + n ≤ off + (files.map OutputFile.length).sum →
      (readLoop files absOffset n w).1 ≠ none := by
  induction files with
  | nil =>
    intro off absOffset n w _ _ _ hoff hend
    rw [List.map_nil, List.sum_nil] at hend
    have hn : n = 0 := by omega
    simp [readLoop, hn]
  | cons f files ih =>
    intro off absOffset n w hconsecutive hmounted hfaults hoff hend
    obtain ⟨hstart, hlength, hrest⟩ := hconsecutive
    obtain ⟨handle, hhandle, c, hc, hlen⟩ := hmounted.ready f List.mem_cons_self
    rw [List.map_cons, List.sum_cons] at hend
    rw [readLoop]
    split_ifs with hdone hbehind hbefore
    · simp
    · exact ih hrest hmounted.tail hfaults (by omega) (by omega)
    · omega
    · simp only
      split_ifs with havail
      · omega
      · rw [hhandle, World.attempt_ok hfaults]
        simp only
        rw [World.fread_ok hfaults hc]
        simp only
        set within := absOffset - f.startOffset with hwithin
        set chunk := min n (f.length - within).toNat with hchunk
        have hfull : (slice c within.toNat chunk).length = chunk := by
          rw [length_slice]
          omega
        rw [if_neg (not_not.2 hfull)]
        simp only [ne_eq, Option.map_eq_none_iff]
        by_cases hlast : n ≤ (f.length - within).toNat
        · have hnone : n - chunk = 0 := by omega
          rw [hnone]
          cases files <;> simp [readLoop]
        · exact ih hrest hmounted.tail hfaults (by omega) (by omega)

/-! ### Pieces -/

/-- The files of a torrent that have been opened are as long as the torrent. -/
theorem sum_length_opened {torrent : TorrentInfo} (h : torrent.Accepted) {savePath : Bytes}
    {overwrite : Bool} {w w' : World} {files : List OutputFile}
    (hopen : openOutputFiles torrent savePath overwrite w = ((true, files), w')) :
    (files.map OutputFile.length).sum = torrent.totalLength := by
  rw [openOutputFiles, if_neg (not_lt.2 h.totalLength_nonneg)] at hopen
  split_ifs at hopen with hmulti
  · obtain ⟨w₁, w₂, rfl, -⟩ := openMultiFile_true hopen
    rw [map_opened OutputFile.length w₁.fs fun _ => rfl, map_length_layout, h.totalLength_eq,
      TorrentInfo.lengths, if_pos hmulti]
  · unfold openSingleFile at hopen
    split at hopen
    · cases hopen
    · split at hopen
      · cases hopen
      · split at hopen
        · cases hopen
        · cases hopen
          simp

/-- The content of the torrent is as long as the torrent. -/
theorem length_disk {fs : FileSystem} {files : List OutputFile} (h : Mounted fs files) :
    ((disk fs files).length : ℤ) = (files.map OutputFile.length).sum := by
  induction files with
  | nil => rfl
  | cons f files ih =>
    obtain ⟨handle, hhandle, c, hc, hlen⟩ := h.ready f List.mem_cons_self
    show ((fileContent fs f ++ disk fs files).length : ℤ) = _
    rw [List.length_append, fileContent_eq hhandle hc, List.map_cons, List.sum_cons, Nat.cast_add,
      hlen, ih h.tail]

theorem length_fileContent {fs : FileSystem} {f : OutputFile} (h : Ready fs f) :
    ((fileContent fs f).length : ℤ) = f.length := by
  obtain ⟨handle, hhandle, c, hc, hlen⟩ := h
  rw [fileContent_eq hhandle hc, hlen]

section Opened

variable {d : Downloader} (h : validateTorrentInfo d.torrent = .ok ()) {overwrite : Bool}
  {w w' : World}
  (hopen : openOutputFiles d.torrent d.savePath overwrite w = ((true, d.outputFiles), w'))
  (hdistinct : (d.outputFiles.map OutputFile.path).Nodup)
  (hready : ∀ f ∈ d.outputFiles, Ready d.world.fs f) (hfaults : d.world.faults = []) {index : ℕ}
  (hindex : index < d.torrent.numPieces)

include h hopen hdistinct hready

/-- Files that were opened and still have their lengths are in place. -/
theorem mounted_of_ready : Consecutive d.outputFiles 0 ∧ Mounted d.world.fs d.outputFiles := by
  obtain ⟨hconsecutive, hmounted⟩ := openOutputFiles_true h hopen hdistinct
  exact ⟨hconsecutive, hmounted.distinct, hready⟩

include hfaults hindex

/-- The write that is asked for lies within the torrent and is made without failure. -/
theorem disk_writePiece {offset : ℕ} {data : Bytes}
    (hrange : (offset + data.length : ℤ) ≤ pieceSize d.torrent index) :
    disk (d.writePiece index offset data).world.fs d.outputFiles =
      (disk d.world.fs d.outputFiles).take ((index * d.torrent.pieceLength.toInt).toNat + offset) ++
        data ++ (disk d.world.fs d.outputFiles).drop
          ((index * d.torrent.pieceLength.toInt).toNat + offset + data.length) := by
  have hacc : d.torrent.Accepted := h
  obtain ⟨hconsecutive, hmounted⟩ := mounted_of_ready h hopen hdistinct hready
  have hsum := sum_length_opened hacc hopen
  have hsize := pieceSize_eq hacc hindex
  have hnonneg := pieceStart_nonneg hacc index
  have htotal := hacc.totalLength_lt
  have hlength := length_disk hmounted
  have habs : int64 (index * d.torrent.pieceLength.toInt + offset) =
      index * d.torrent.pieceLength.toInt + offset := int64_of_range (by omega) (by omega)
  have hpos : (index * d.torrent.pieceLength.toInt + offset - 0).toNat =
      (index * d.torrent.pieceLength.toInt).toNat + offset := by omega
  have hwrote := @writeLoop_spec d.outputFiles 0 (index * d.torrent.pieceLength.toInt + offset) data
    d.world hconsecutive hmounted
  have hall : writtenBytes d.outputFiles (index * d.torrent.pieceLength.toInt + offset) data
      d.world = data.length :=
    writtenBytes_eq hconsecutive hmounted hfaults (by omega) (by omega)
  have hstored := writeLoop_stored hconsecutive hmounted (by omega) hall
  rw [hpos] at hwrote hstored
  show disk (writeLoop d.outputFiles (int64 (index * d.torrent.pieceLength.toInt + offset)) data
    d.world).fs d.outputFiles = _
  rw [habs]
  exact hwrote.agree.eq_of_slice rfl hstored

/-- The piece is read where it lies. -/
theorem readPieceFromDisk_eq : (d.readPieceFromDisk index).1 =
      some (slice (disk d.world.fs d.outputFiles) (index * d.torrent.pieceLength.toInt).toNat
        (pieceSize d.torrent index).toNat) ∧
    ((slice (disk d.world.fs d.outputFiles) (index * d.torrent.pieceLength.toInt).toNat
        (pieceSize d.torrent index).toNat).length : ℤ) = pieceSize d.torrent index := by
  have hacc : d.torrent.Accepted := h
  obtain ⟨hconsecutive, hmounted⟩ := mounted_of_ready h hopen hdistinct hready
  have hsum := sum_length_opened hacc hopen
  have hsize := pieceSize_eq hacc hindex
  have hpos := pieceSize_pos hacc hindex
  have hnonneg := pieceStart_nonneg hacc index
  have hstart := hacc.piece_start_lt hindex
  have hne : d.outputFiles ≠ [] := by
    intro hnil
    rw [hnil, List.map_nil, List.sum_nil] at hsum
    omega
  rw [readPieceFromDisk, if_neg hne]
  simp only
  rw [if_neg (not_le.2 hpos), int64_pieceStart hacc hindex]
  have hok := readLoop_ok (n := (pieceSize d.torrent index).toNat) hconsecutive hmounted hfaults
    hnonneg (by omega)
  obtain ⟨data, hdata⟩ := Option.ne_none_iff_exists'.1 hok
  obtain ⟨rfl, hlen⟩ := readLoop_some hconsecutive hmounted hdata
  rw [sub_zero] at hdata hlen
  exact ⟨hdata, by omega⟩

/-- **Main result.** On opened files with distinct paths, and without failures, `writePiece` puts
the data of a block in its place in the content of the torrent and changes nothing else, and
`readPieceFromDisk` returns the piece. -/
theorem write_read_piece {offset : ℕ} {data : Bytes}
    (hrange : (offset + data.length : ℤ) ≤ pieceSize d.torrent index) :
    (disk (d.writePiece index offset data).world.fs d.outputFiles =
      (disk d.world.fs d.outputFiles).take ((index * d.torrent.pieceLength.toInt).toNat + offset) ++
        data ++ (disk d.world.fs d.outputFiles).drop
          ((index * d.torrent.pieceLength.toInt).toNat + offset + data.length)) ∧
    (∀ f ∈ d.outputFiles,
      (fileContent (d.writePiece index offset data).world.fs f).length =
        (fileContent d.world.fs f).length) ∧
    (∀ loc, (∀ f ∈ d.outputFiles, ∀ handle, f.handle = some handle → handle.loc ≠ loc) →
      (d.writePiece index offset data).world.fs.content loc = d.world.fs.content loc) ∧
    (d.readPieceFromDisk index).1 =
      some (slice (disk d.world.fs d.outputFiles) (index * d.torrent.pieceLength.toInt).toNat
        (pieceSize d.torrent index).toNat) ∧
    ((slice (disk d.world.fs d.outputFiles) (index * d.torrent.pieceLength.toInt).toNat
        (pieceSize d.torrent index).toNat).length : ℤ) = pieceSize d.torrent index := by
  obtain ⟨hconsecutive, hmounted⟩ := mounted_of_ready h hopen hdistinct hready
  have hwrote : Wrote d.outputFiles _ _ d.world (d.writePiece index offset data).world :=
    writeLoop_spec hconsecutive hmounted
  refine ⟨disk_writePiece h hopen hdistinct hready hfaults hindex hrange, fun f hf => ?_,
    hwrote.elsewhere, readPieceFromDisk_eq h hopen hdistinct hready hfaults hindex⟩
  have hafter := length_fileContent (hwrote.mounted.ready f hf)
  have hbefore := length_fileContent (hready f hf)
  omega

end Opened

/-- Two bytes in three files, the second of which is empty. -/
def straddlingTorrent : TorrentInfo :=
  { name := ascii "t"
    pieceLength := 2
    pieces := List.replicate 20 0
    files := [{ path := ascii "a", length := 1 }, { path := ascii "b", length := 0 },
      { path := ascii "c", length := 1 }] }

/-- The download of it, with its output files open. -/
def openedStraddling : Downloader :=
  let opening := openOutputFiles straddlingTorrent (ascii "d") false { fs := oneDirectory }
  { init straddlingTorrent (ascii "d") {} opening.2 with outputFiles := opening.1.2 }

theorem write_read_piece_straddling :
    disk (openedStraddling.writePiece 0 0 [7, 8]).world.fs openedStraddling.outputFiles = [7, 8] := by
  have hopen : openOutputFiles straddlingTorrent (ascii "d") false { fs := oneDirectory } =
      ((true, openedStraddling.outputFiles), openedStraddling.world) :=
    Prod.ext (Prod.ext (by decide +kernel) rfl) rfl
  have hvalid : validateTorrentInfo openedStraddling.torrent = .ok () := by decide +kernel
  have hdistinct : (openedStraddling.outputFiles.map OutputFile.path).Nodup := by decide +kernel
  have hready := (openOutputFiles_true hvalid hopen hdistinct).2.ready
  have hwrite := (write_read_piece hvalid hopen hdistinct hready (by decide +kernel)
    (show 0 < openedStraddling.torrent.numPieces by decide +kernel)
    (show ((0 : ℕ) + ([7, 8] : Bytes).length : ℤ) ≤ pieceSize openedStraddling.torrent 0 by
      decide +kernel)).1
  rw [hwrite]
  decide +kernel

end Downloader

end Gush
