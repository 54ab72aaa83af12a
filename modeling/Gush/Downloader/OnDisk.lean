import Gush.Downloader.Disk
import Gush.Lib.Slice

/-!
# What is on disk

The output files one behind the other make up the content of the torrent. `writePiece` changes
nothing outside the range of its block (`writeLoop_spec`), and what `readPieceFromDisk` returns is
the range of the piece (`readLoop_some`), however many files the range goes through.
-/

namespace Gush

open Cxx Posix Slice

namespace Posix.World

variable {w : World} {handle : Handle} {c : Bytes}

theorem fs_fread (w : World) (handle : Handle) (pos n : ℕ) : (w.fread handle pos n).2.fs = w.fs := by
  unfold fread
  split <;> rfl

/-- A full read returns a slice of the file. -/
theorem fread_full (hc : w.fs.content handle.loc = some c) (pos n : ℕ)
    (hfull : (w.fread handle pos n).1.length = n) : (w.fread handle pos n).1 = slice c pos n := by
  unfold fread at hfull ⊢
  rw [hc] at hfull ⊢
  simp only [List.length_take, List.length_drop] at hfull ⊢
  rw [slice]
  apply List.ext_getElem?
  intro k
  rw [List.getElem?_take, List.getElem?_take]
  have hmoved : w.moved n ≤ n := by
    unfold moved
    split
    · exact le_rfl
    · exact min_le_right _ _
  have heq : w.moved n = n := by omega
  rw [heq]

/-- A write within a file changes nothing outside the range that was asked for, even if it fails on
the way. -/
theorem fwrite_spec (hc : w.fs.content handle.loc = some c) (pos : ℕ) (data : Bytes)
    (hin : pos + data.length ≤ c.length) :
    (∀ loc, loc ≠ handle.loc →
      (w.fwrite handle pos data).2.fs.content loc = w.fs.content loc) ∧
    ∃ c', (w.fwrite handle pos data).2.fs.content handle.loc = some c' ∧
      AgreeOutside pos (pos + data.length) c c' := by
  obtain ⟨fs', hset⟩ := FileSystem.setContent_of_content hc
    (overwritten c pos (data.take (w.moved data.length)))
  have hfs : (w.fwrite handle pos data).2.fs = fs' := by
    unfold fwrite
    rw [hc]
    simp only [hset]
  rw [hfs]
  refine ⟨fun loc hloc => ?_, _, by rw [FileSystem.content_setContent hset, if_pos rfl], ?_⟩
  · rw [FileSystem.content_setContent hset, if_neg hloc]
  · have hgap : pos - c.length = 0 := by omega
    have hlen : (data.take (w.moved data.length)).length ≤ data.length := List.length_take_le' _ _
    rw [overwritten, hgap, List.replicate_zero, List.append_nil]
    exact (agreeOutside_replace (by omega)).mono le_rfl (by omega)

end Posix.World

namespace Downloader

/-! ### The files of a torrent -/

/-- The content of an output file. -/
def fileContent (fs : FileSystem) (f : OutputFile) : Bytes :=
  (f.handle.bind fun handle => fs.content handle.loc).getD []

/-- The content of the torrent, as far as the output files hold it. -/
def disk (fs : FileSystem) (files : List OutputFile) : Bytes := files.flatMap (fileContent fs)

/-- Files that lie one behind the other from an offset on. -/
def Consecutive : List OutputFile → ℤ → Prop
  | [], _ => True
  | f :: files, off => f.startOffset = off ∧ 0 ≤ f.length ∧ Consecutive files (off + f.length)

/-- Open files of the right size, each at its own place. -/
structure Mounted (fs : FileSystem) (files : List OutputFile) : Prop where
  distinct : (files.map fun f => f.handle.map Handle.loc).Nodup
  ready : ∀ f ∈ files, Ready fs f

section

variable {fs fs' : FileSystem} {f : OutputFile} {files : List OutputFile}

theorem fileContent_eq {handle : Handle} {c : Bytes} (hhandle : f.handle = some handle)
    (hc : fs.content handle.loc = some c) : fileContent fs f = c := by
  simp [fileContent, hhandle, hc]

/-- Files whose places are not touched keep their content. -/
theorem disk_congr (h : ∀ f ∈ files, ∀ handle, f.handle = some handle →
    fs'.content handle.loc = fs.content handle.loc) : disk fs' files = disk fs files := by
  induction files with
  | nil => rfl
  | cons f files ih =>
    have hf : fileContent fs' f = fileContent fs f := by
      cases hhandle : f.handle with
      | none => simp [fileContent, hhandle]
      | some handle => simp [fileContent, hhandle, h f List.mem_cons_self handle hhandle]
    show fileContent fs' f ++ disk fs' files = fileContent fs f ++ disk fs files
    rw [hf, ih fun g hg => h g (List.mem_cons_of_mem f hg)]

namespace Mounted

theorem tail (h : Mounted fs (f :: files)) : Mounted fs files :=
  ⟨(List.nodup_cons.1 h.distinct).2, fun g hg => h.ready g (List.mem_cons_of_mem f hg)⟩

/-- The first file lies at a place of its own. -/
theorem head_ne (h : Mounted fs (f :: files)) {handle : Handle} (hhandle : f.handle = some handle) :
    ∀ g ∈ files, ∀ handle', g.handle = some handle' → handle'.loc ≠ handle.loc := by
  intro g hg handle' hhandle' heq
  apply (List.nodup_cons.1 h.distinct).1
  refine List.mem_map.2 ⟨g, hg, ?_⟩
  show g.handle.map Handle.loc = f.handle.map Handle.loc
  rw [hhandle, hhandle', Option.map_some, Option.map_some, heq]

/-- Changes of the contents that keep their lengths do no harm. -/
theorem of_contents (h : Mounted fs files)
    (hkeep : ∀ f ∈ files, ∀ handle, f.handle = some handle → ∀ c, fs.content handle.loc = some c →
      ∃ c', fs'.content handle.loc = some c' ∧ c'.length = c.length) : Mounted fs' files := by
  refine ⟨h.distinct, fun f hf => ?_⟩
  obtain ⟨handle, hhandle, c, hc, hlen⟩ := h.ready f hf
  obtain ⟨c', hc', hlen'⟩ := hkeep f hf handle hhandle c hc
  exact ⟨handle, hhandle, c', hc', by rw [hlen', hlen]⟩

/-- A change of the first file leaves the others as they are. -/
theorem tail_of_other (h : Mounted fs (f :: files)) {handle : Handle}
    (hhandle : f.handle = some handle)
    (hother : ∀ loc, loc ≠ handle.loc → fs'.content loc = fs.content loc) : Mounted fs' files := by
  apply h.tail.of_contents
  intro g hg handle' hhandle' c hc
  exact ⟨c, by rw [hother _ (h.head_ne hhandle g hg handle' hhandle'), hc], rfl⟩

end Mounted

end

/-! ### Opening -/

/-- The place of a path below a directory. -/
theorem target_under (fs : FileSystem) (savePath : Bytes) {comps : List Bytes} (hne : comps ≠ [])
    (h : ∀ c ∈ comps, Utils.SafeComponent c) : fs.target (Utils.under savePath comps) =
      comps.reverse ++ FileSystem.lexical (fs.origin (savePath ++ ascii "/"))
        (savePath.splitOn '/'.toUInt8) := by
  have horigin : fs.origin (Utils.under savePath comps) = fs.origin (savePath ++ ascii "/") := by
    obtain ⟨c, comps, rfl⟩ := List.exists_cons_of_ne_nil hne
    cases savePath <;> rfl
  rw [FileSystem.target, horigin, Utils.splitOn_under fun c hc => (h c hc).no_slash,
    FileSystem.lexical_append, FileSystem.lexical_of_names]
  exact fun c hc => ⟨(h c hc).ne_nil, (h c hc).ne_dot, (h c hc).ne_dotdot⟩

/-- Different paths below a directory are different places. -/
theorem target_injective (fs : FileSystem) {savePath p p' : Bytes} (h : InDirectory savePath p)
    (h' : InDirectory savePath p') (heq : fs.target p = fs.target p') : p = p' := by
  obtain ⟨comps, hne, hsafe, rfl⟩ := h
  obtain ⟨comps', hne', hsafe', rfl⟩ := h'
  rw [target_under fs savePath hne hsafe, target_under fs savePath hne' hsafe'] at heq
  rw [List.reverse_inj.1 (List.append_cancel_right heq)]

theorem consecutive_layout {savePath : Bytes} {files : List FileEntry} : ∀ {off : ℤ}, 0 ≤ off →
    (∀ f ∈ files, 0 ≤ f.length.toInt) → off + (files.map fun f => f.length.toInt).sum < 2 ^ 63 →
    Consecutive (layout savePath files off) off := by
  induction files with
  | nil => exact fun _ _ _ => trivial
  | cons f files ih =>
    intro off hoff hlength hsum
    have hf := hlength f List.mem_cons_self
    have hrest : ∀ g ∈ files, 0 ≤ g.length.toInt :=
      fun g hg => hlength g (List.mem_cons_of_mem f hg)
    have hnonneg : 0 ≤ (files.map fun f => f.length.toInt).sum := by
      apply List.sum_nonneg
      intro x hx
      obtain ⟨g, hg, rfl⟩ := List.mem_map.1 hx
      exact hrest g hg
    rw [List.map_cons, List.sum_cons] at hsum
    refine ⟨rfl, hf, ?_⟩
    have hint : int64 (off + f.length.toInt) = off + f.length.toInt :=
      int64_of_range (by omega) (by omega)
    rw [hint]
    exact ih (by omega) hrest (by omega)

theorem consecutive_opened (fs : FileSystem) {files : List OutputFile} : ∀ {off : ℤ},
    Consecutive files off → Consecutive (files.map (opened fs)) off := by
  induction files with
  | nil => exact fun h => h
  | cons f files ih => exact fun ⟨hstart, hlength, hrest⟩ => ⟨hstart, hlength, ih hrest⟩

/-- Files with different paths lie at different places. -/
theorem nodup_places (fs : FileSystem) {savePath : Bytes} {files : List OutputFile}
    (hin : ∀ f ∈ files, InDirectory savePath f.path) (hpaths : (files.map OutputFile.path).Nodup) :
    ((files.map (opened fs)).map fun f => f.handle.map Handle.loc).Nodup := by
  have hplaces : (files.map (opened fs)).map (fun f => f.handle.map Handle.loc) =
      (files.map OutputFile.path).map fun path => some (fs.target path) := by
    rw [List.map_map, List.map_map]
    rfl
  rw [hplaces]
  apply hpaths.map_on
  intro p hp p' hp' heq
  obtain ⟨f, hf, rfl⟩ := List.mem_map.1 hp
  obtain ⟨f', hf', rfl⟩ := List.mem_map.1 hp'
  exact target_injective fs (hin f hf) (hin f' hf') (Option.some.inj heq)

/-- When `openOutputFiles` returns `true`, the files are open, have their sizes and follow each
other. -/
theorem openOutputFiles_true {torrent : TorrentInfo} (h : torrent.Accepted) {savePath : Bytes}
    {overwrite : Bool} {w w' : World} {files : List OutputFile}
    (hopen : openOutputFiles torrent savePath overwrite w = ((true, files), w'))
    (hdistinct : (files.map OutputFile.path).Nodup) :
    Consecutive files 0 ∧ Mounted w'.fs files := by
  rw [openOutputFiles] at hopen
  split_ifs at hopen with hneg hmulti
  · cases hopen
  -- several files
  · obtain ⟨w₁, w₂, rfl, hresize⟩ := openMultiFile_true hopen
    have hsum := h.sum_lt
    rw [TorrentInfo.lengths, if_pos hmulti] at hsum
    have hconsecutive : Consecutive (layout savePath torrent.files 0) 0 :=
      consecutive_layout le_rfl (fun f hf => (h.file_ok hf).2) (by omega)
    have hpaths : ((layout savePath torrent.files 0).map OutputFile.path).Nodup := by
      rw [List.map_map] at hdistinct
      exact hdistinct
    have hplaces := nodup_places w₁.fs (fun f hf => inDirectory_of_mem_layout f hf) hpaths
    exact ⟨consecutive_opened w₁.fs hconsecutive, hplaces, (resizeFiles_true hresize hplaces).1⟩
  -- a single file
  · unfold openSingleFile at hopen
    split at hopen
    · cases hopen
    · rename_i w₁ h₁
      split at hopen
      · cases hopen
      · rename_i handle w₂ h₂
        split at hopen
        · cases hopen
        · rename_i w₃ h₃
          cases hopen
          obtain ⟨handle', hhandle, hsize, -, c, hc, hlen⟩ := resizeFile_true h₃
          refine ⟨⟨rfl, hsize, trivial⟩, List.nodup_singleton _, fun f hf => ?_⟩
          rw [List.mem_singleton.1 hf]
          exact ⟨handle', hhandle, c, hc, by simp only; omega⟩

/-! ### Writing -/

/-- What a write to some files from a position on leaves as it was: the places of all other files,
the sizes, and every byte outside the range. -/
structure Wrote (files : List OutputFile) (pos n : ℕ) (w w' : World) : Prop where
  elsewhere : ∀ loc, (∀ f ∈ files, ∀ handle, f.handle = some handle → handle.loc ≠ loc) →
    w'.fs.content loc = w.fs.content loc
  mounted : Mounted w'.fs files
  agree : AgreeOutside pos (pos + n) (disk w.fs files) (disk w'.fs files)

theorem Wrote.refl {files : List OutputFile} {w w' : World} (h : Mounted w.fs files)
    (hfs : w'.fs = w.fs) (pos n : ℕ) : Wrote files pos n w w' :=
  ⟨fun _ _ => by rw [hfs], hfs ▸ h, by rw [hfs]; exact .refl _ _ _⟩

/-- A write to the first file, followed by a write to the others. -/
theorem Wrote.cons {f : OutputFile} {files : List OutputFile} {handle : Handle} {c c' : Bytes}
    {w w₁ w₂ : World} {pos pos' n n' m : ℕ} (hmounted : Mounted w.fs (f :: files))
    (hhandle : f.handle = some handle) (hc : w.fs.content handle.loc = some c)
    (hother : ∀ loc, loc ≠ handle.loc → w₁.fs.content loc = w.fs.content loc)
    (hc' : w₁.fs.content handle.loc = some c') (hagree : AgreeOutside pos (pos + m) c c')
    (htail : Wrote files pos' n' w₁ w₂) (hm : m ≤ n) (hlo : pos - c.length ≤ pos')
    (hhi : pos' + n' ≤ pos + n - c.length) : Wrote (f :: files) pos n w w₂ := by
  have hne := hmounted.head_ne hhandle
  have hc₂ : w₂.fs.content handle.loc = some c' := by
    rw [htail.elsewhere handle.loc hne, hc']
  have hdisk : disk w₁.fs files = disk w.fs files :=
    disk_congr fun g hg handle' hhandle' => hother _ (hne g hg handle' hhandle')
  refine ⟨fun loc hloc => ?_, ⟨hmounted.distinct, fun g hg => ?_⟩, ?_⟩
  · rw [htail.elsewhere loc fun g hg => hloc g (List.mem_cons_of_mem f hg)]
    exact hother loc (hloc f List.mem_cons_self handle hhandle).symm
  · rcases List.mem_cons.1 hg with rfl | hg
    · obtain ⟨handle', hhandle', c₀, hc₀, hlen⟩ := hmounted.ready g List.mem_cons_self
      cases hhandle.symm.trans hhandle'
      cases hc.symm.trans hc₀
      exact ⟨handle, hhandle, c', hc₂, by rw [hagree.length, hlen]⟩
    · exact htail.mounted.ready g hg
  · show AgreeOutside pos (pos + n) (fileContent w.fs f ++ disk w.fs files)
      (fileContent w₂.fs f ++ disk w₂.fs files)
    rw [fileContent_eq hhandle hc, fileContent_eq hhandle hc₂]
    apply (hagree.mono le_rfl (by omega)).append
    rw [← hdisk]
    exact htail.agree.mono hlo hhi

/-- The write loop changes nothing outside the range of its data. -/
theorem writeLoop_spec {files : List OutputFile} : ∀ {off absOffset : ℤ} {data : Bytes} {w : World},
    Consecutive files off → Mounted w.fs files →
      Wrote files (absOffset - off).toNat data.length w (writeLoop files absOffset data w) := by
  induction files with
  | nil => exact fun _ hmounted => .refl hmounted rfl _ _
  | cons f files ih =>
    intro off absOffset data w hconsecutive hmounted
    obtain ⟨hstart, hlength, hrest⟩ := hconsecutive
    obtain ⟨handle, hhandle, c, hc, hlen⟩ := hmounted.ready f List.mem_cons_self
    rw [writeLoop]
    split_ifs with hdone hbehind hbefore
    · exact .refl hmounted rfl _ _
    · exact Wrote.cons hmounted hhandle hc (fun _ _ => rfl) hc
        (.refl (absOffset - off).toNat ((absOffset - off).toNat + 0) c) (ih hrest hmounted.tail)
        (by omega) (by omega) (by omega)
    · exact .refl hmounted rfl _ _
    · simp only
      split_ifs with havail
      · omega
      · rw [hhandle]
        simp only
        have hfs := World.fs_attempt (w := w)
        split <;> rename_i w₁ hattempt <;> rw [hattempt] at hfs
        · exact .refl hmounted hfs _ _
        -- a chunk goes to this file, and the rest of the data to the others
        · set within := absOffset - f.startOffset with hwithin
          set chunk := min data.length (f.length - within).toNat with hchunk
          have hc₁ : w₁.fs.content handle.loc = some c := by rw [hfs, hc]
          have hlen_chunk : (data.take chunk).length = chunk := by
            rw [List.length_take]
            omega
          have hpos : (absOffset - off).toNat = within.toNat := by omega
          obtain ⟨hother, c', hc', hagree⟩ :=
            World.fwrite_spec hc₁ within.toNat (data.take chunk) (by omega)
          rw [hfs] at hother
          rw [hlen_chunk] at hagree
          cases hwrite : w₁.fwrite handle within.toNat (data.take chunk) with
          | mk count w₂ =>
            rw [hwrite] at hother hc'
            simp only
            have hmounted₂ : Mounted w₂.fs files := hmounted.tail_of_other hhandle hother
            rw [hpos]
            split_ifs
            · exact Wrote.cons hmounted hhandle hc hother hc' hagree (.refl hmounted₂ rfl 0 0)
                (by omega) (by omega) (by omega)
            · have htail : Wrote files (absOffset + chunk - (off + f.length)).toNat
                  (data.drop chunk).length w₂ _ := ih hrest hmounted₂
              refine Wrote.cons hmounted hhandle hc hother hc' hagree htail (by omega) ?_ ?_
              · omega
              · rw [List.length_drop]
                omega

/-! ### Reading -/

theorem fs_readLoop {files : List OutputFile} : ∀ {absOffset : ℤ} {n : ℕ} {w : World},
    (readLoop files absOffset n w).2.fs = w.fs := by
  induction files with
  | nil => exact rfl
  | cons f files ih =>
    intro absOffset n w
    rw [readLoop]
    split_ifs
    · rfl
    · exact ih
    · rfl
    · simp only
      split_ifs
      · exact ih
      · split
        · rfl
        · rename_i handle _
          have hattempt := World.fs_attempt (w := w)
          split <;> rename_i w₁ h₁ <;> rw [h₁] at hattempt
          · exact hattempt
          · cases hread : w₁.fread handle (absOffset - f.startOffset).toNat
                (min n (f.length - (absOffset - f.startOffset)).toNat) with
            | mk data w₂ =>
              have hfs : w₂.fs = w.fs := by
                rw [← hattempt, ← World.fs_fread w₁, hread]
              simp only
              split_ifs
              · exact hfs
              · exact ih.trans hfs

/-- The read loop returns the slice that it is asked for. -/
theorem readLoop_some {files : List OutputFile} : ∀ {off absOffset : ℤ} {n : ℕ} {w : World}
    {data : Bytes}, Consecutive files off → Mounted w.fs files →
      (readLoop files absOffset n w).1 = some data →
      data = slice (disk w.fs files) (absOffset - off).toNat n ∧ data.length = n := by
  induction files with
  | nil =>
    intro off absOffset n w data _ _ h
    rw [readLoop] at h
    split_ifs at h with hn
    cases h
    exact ⟨by simp [hn], hn.symm⟩
  | cons f files ih =>
    intro off absOffset n w data hconsecutive hmounted h
    obtain ⟨hstart, hlength, hrest⟩ := hconsecutive
    obtain ⟨handle, hhandle, c, hc, hlen⟩ := hmounted.ready f List.mem_cons_self
    have hdisk : disk w.fs (f :: files) = c ++ disk w.fs files := by
      rw [← fileContent_eq hhandle hc]
      rfl
    rw [readLoop] at h
    rw [hdisk]
    split_ifs at h with hn hbehind
    · cases h
      simp [hn]
    -- the file lies before the position
    · obtain ⟨hdata, hdatalen⟩ := ih hrest hmounted.tail h
      have hpos : (absOffset - off).toNat - c.length = (absOffset - (off + f.length)).toNat := by
        omega
      rw [slice_append_of_length_le (by omega), hpos]
      exact ⟨hdata, hdatalen⟩
    · simp only at h
      split_ifs at h with havail
      · omega
      -- a chunk comes from this file, and the rest from the others
      · rw [hhandle] at h
        simp only at h
        have hfs := World.fs_attempt (w := w)
        split at h <;> rename_i w₁ hattempt <;> rw [hattempt] at hfs
        · cases h
        · set within := absOffset - f.startOffset with hwithin
          set chunk := min n (f.length - within).toNat with hchunk
          have hc₁ : w₁.fs.content handle.loc = some c := by rw [hfs, hc]
          have hfull := World.fread_full hc₁ within.toNat chunk
          cases hread : w₁.fread handle within.toNat chunk with
          | mk head w₂ =>
            have hfs₂ : w₂.fs = w.fs := by
              rw [← hfs, ← World.fs_fread w₁, hread]
            rw [hread] at h hfull
            simp only at h
            split_ifs at h with hshort
            obtain ⟨rest, hrest', rfl⟩ := Option.map_eq_some_iff.1 h
            obtain ⟨hdata, hdatalen⟩ := ih hrest (hfs₂ ▸ hmounted.tail) hrest'
            have hpos : (absOffset - off).toNat = within.toNat := by omega
            have hhead : head = slice c within.toNat n := by
              have hmin : min n (c.length - within.toNat) = chunk := by omega
              rw [← slice_min, hmin]
              exact hfull (not_not.1 hshort)
            have hnext : within.toNat - c.length = (absOffset + chunk - (off + f.length)).toNat := by
              omega
            have hcount : n - (c.length - within.toNat) = n - chunk := by omega
            rw [slice_append, hpos, ← hhead, hnext, hcount, ← hfs₂, ← hdata]
            exact ⟨rfl, by rw [List.length_append]; omega⟩

end Downloader

end Gush
