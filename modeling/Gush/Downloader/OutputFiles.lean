import Gush.Posix.FileSystem
import Gush.Torrent.Info
import Gush.Utils.Sanitize

/-!
# The output files of a download

`openOutputFiles` with everything it calls. `opened_iff` says when all the paths it opens or
resizes lie below the save directory; `openFiles_some` and `resizeFiles_true` say what its loops
have established when they succeed.
-/

namespace Gush

open Cxx Posix

namespace Utils

/-- The parts of a path that end in front of a slash. -/
def slashPrefixes (p : Bytes) : List Bytes :=
  ((List.range p.length).filter fun pos => p[pos]? == some '/'.toUInt8).map p.take

/-- `mkdir` for every part that is not empty; an existing one is no failure. -/
def makeParts : List Bytes → World → Bool × World
  | [], w => (true, w)
  | part :: parts, w =>
    if part = [] then makeParts parts w
    else
      match w.mkdir part with
      | (.ok (), w) => makeParts parts w
      | (.error .exist, w) => makeParts parts w
      | (.error _, w) => (false, w)

def createDirectories (w : World) (path : Bytes) : Bool × World :=
  let p := (path.reverse.dropWhile (· == '/'.toUInt8)).reverse
  if p = [] then (false, w)
  else
    match w.stat p with
    | (.ok node, w) => (node = .directory, w)
    | (.error _, w) =>
      match makeParts (slashPrefixes p ++ [p]) w with
      | (false, w) => (false, w)
      | (true, w) =>
        match w.stat p with
        | (.ok node, w) => (node = .directory, w)
        | (.error _, w) => (false, w)

end Utils

namespace Downloader

/-- `OutputFile`; `startOffset` is an offset within the torrent. -/
structure OutputFile where
  path : Bytes
  startOffset : ℤ := 0
  length : ℤ := 0
  handle : Option Handle := none
  deriving DecidableEq

/-- A target is safe if it is missing, or a regular file that is not longer than expected. -/
def safeResumeTarget (w : World) (path : Bytes) (expectedSize : ℤ) : Bool × World :=
  match w.stat path with
  | (.error e, w) => (e = .noent, w)
  | (.ok .directory, w) => (false, w)
  | (.ok (.regular content), w) => ((content.length : ℤ) ≤ expectedSize, w)

def openOutputHandle (w : World) (path : Bytes) (overwrite : Bool) : Option Handle × World :=
  if overwrite then
    match w.fopen path .truncate with
    | (result, w) => (result.toOption, w)
  else
    match w.fopen path .update with
    | (.ok handle, w) => (some handle, w)
    | (.error .noent, w) =>
      match w.fopen path .truncate with
      | (result, w) => (result.toOption, w)
    | (.error _, w) => (none, w)

/-- `fflush`, `ftruncate` and `fseeko` in this order, as long as they succeed. -/
def resizeFile (w : World) (f : Option Handle) (size : ℤ) : Bool × World :=
  match f with
  | none => (false, w)
  | some handle =>
    if size < 0 then (false, w)
    else
      match w.attempt with
      | (.error _, w) => (false, w)
      | (.ok (), w) =>
        match w.ftruncate handle size with
        | (.error _, w) => (false, w)
        | (.ok (), w) =>
          match w.attempt with
          | (.error _, w) => (false, w)
          | (.ok (), w) => (true, w)

/-- The check before a target is opened: without `--overwrite` it must be safe. -/
def preflight (w : World) (path : Bytes) (length : ℤ) (overwrite : Bool) : Bool × World :=
  if overwrite then (true, w) else safeResumeTarget w path length

/-- The part of a path in front of its last slash, if it has one. -/
def parentPath (path : Bytes) : Option Bytes :=
  if '/'.toUInt8 ∈ path then
    some ((path.reverse.dropWhile (· != '/'.toUInt8)).drop 1).reverse
  else none

/-- The first loop: parent directories and preflight for every file. On failure the files that
passed are still returned, as they stay in `outputFiles_`. -/
def planFiles (savePath : Bytes) (overwrite : Bool) :
    List FileEntry → ℤ → World → (Bool × List OutputFile) × World
  | [], _, w => ((true, []), w)
  | fileEntry :: files, runningOffset, w =>
    let outputPath := savePath ++ '/'.toUInt8 :: Utils.sanitizePath fileEntry.path
    let made := match parentPath outputPath with
      | none => (true, w)
      | some dir => Utils.createDirectories w dir
    if made.1 then
      let checked := preflight made.2 outputPath fileEntry.length.toInt overwrite
      if checked.1 then
        let f : OutputFile :=
          { path := outputPath, startOffset := runningOffset, length := fileEntry.length.toInt }
        let rest := planFiles savePath overwrite files
          (int64 (runningOffset + fileEntry.length.toInt)) checked.2
        ((rest.1.1, f :: rest.1.2), rest.2)
      else ((false, []), checked.2)
    else ((false, []), made.2)

/-- The second loop: opens all handles. -/
def openFiles (overwrite : Bool) : List OutputFile → World → Option (List OutputFile) × World
  | [], w => (some [], w)
  | f :: files, w =>
    match openOutputHandle w f.path overwrite with
    | (none, w) => (none, w)
    | (some handle, w) =>
      match openFiles overwrite files w with
      | (none, w) => (none, w)
      | (some files, w) => (some ({ f with handle := some handle } :: files), w)

/-- The third loop: resizes all files. -/
def resizeFiles : List OutputFile → World → Bool × World
  | [], w => (true, w)
  | f :: files, w =>
    match resizeFile w f.handle f.length with
    | (false, w) => (false, w)
    | (true, w) => resizeFiles files w

/-- Multi-file mode: plan, open, resize. -/
def openMultiFile (savePath : Bytes) (overwrite : Bool) (files : List FileEntry) (w : World) :
    (Bool × List OutputFile) × World :=
  match planFiles savePath overwrite files 0 w with
  | ((false, planned), w) => ((false, planned), w)
  | ((true, planned), w) =>
    match openFiles overwrite planned w with
    | (none, w) => ((false, []), w)
    | (some files, w) =>
      match resizeFiles files w with
      | (false, w) => ((false, []), w)
      | (true, w) => ((true, files), w)

/-- Single-file mode. -/
def openSingleFile (outputPath : Bytes) (overwrite : Bool) (total : ℤ) (w : World) :
    (Bool × List OutputFile) × World :=
  match preflight w outputPath total overwrite with
  | (false, w) => ((false, []), w)
  | (true, w) =>
    match openOutputHandle w outputPath overwrite with
    | (none, w) => ((false, []), w)
    | (some handle, w) =>
      match resizeFile w (some handle) total with
      | (false, w) => ((false, []), w)
      | (true, w) => ((true, [{ path := outputPath, length := total, handle := some handle }]), w)

/-- The path of the file of a single-file torrent. -/
def singlePath (torrent : TorrentInfo) (savePath : Bytes) : Bytes :=
  savePath ++ '/'.toUInt8 :: Utils.sanitizeFileName
    (if torrent.name = [] then torrent.fileName else torrent.name)

/-- `openOutputFiles`, with the new value of `outputFiles_`. -/
def openOutputFiles (torrent : TorrentInfo) (savePath : Bytes) (overwrite : Bool) (w : World) :
    (Bool × List OutputFile) × World :=
  if torrent.totalLength < 0 then ((false, []), w)
  else if torrent.isMultiFile then openMultiFile savePath overwrite torrent.files w
  else openSingleFile (singlePath torrent savePath) overwrite torrent.totalLength w

end Downloader

/-! ### Where the calls lead -/

namespace Utils

variable {P : Bytes → Prop}

theorem makeParts_leads (parts : List Bytes) (w : World) :
    World.Leads P w (makeParts parts w).2 := by
  induction parts generalizing w with
  | nil => exact .refl w
  | cons part parts ih =>
    rw [makeParts]
    have hmk : World.Leads P w (w.mkdir part).2 := World.mkdir_leads
    split_ifs
    · exact ih w
    · split <;> rename_i h <;> rw [h] at hmk
      · exact hmk.trans (ih _)
      · exact hmk.trans (ih _)
      · exact hmk

theorem createDirectories_leads (w : World) (path : Bytes) :
    World.Leads P w (createDirectories w path).2 := by
  unfold createDirectories
  simp only
  split_ifs
  · exact .refl w
  · generalize (path.reverse.dropWhile (· == '/'.toUInt8)).reverse = p
    have hfirst : World.Leads P w (w.stat p).2 := World.stat_leads
    split <;> rename_i h <;> rw [h] at hfirst
    · exact hfirst
    · rename_i w₁
      have hparts : World.Leads P w₁ _ := makeParts_leads (slashPrefixes p ++ [p]) w₁
      split <;> rename_i h₂ <;> rw [h₂] at hparts
      · exact hfirst.trans hparts
      · rename_i w₂
        have hlast : World.Leads P w₂ (w₂.stat p).2 := World.stat_leads
        split <;> rename_i h₃ <;> rw [h₃] at hlast
        · exact hfirst.trans (hparts.trans hlast)
        · exact hfirst.trans (hparts.trans hlast)

end Utils

namespace Downloader

variable {P : Bytes → Prop}

theorem preflight_leads (w : World) (path : Bytes) (length : ℤ) (overwrite : Bool) :
    World.Leads P w (preflight w path length overwrite).2 := by
  unfold preflight safeResumeTarget
  have hstat : World.Leads P w (w.stat path).2 := World.stat_leads
  split_ifs
  · exact .refl w
  · split <;> rename_i h <;> rw [h] at hstat <;> exact hstat

theorem openOutputHandle_leads {w : World} {path : Bytes} {overwrite : Bool} (h : P path) :
    World.Leads P w (openOutputHandle w path overwrite).2 := by
  unfold openOutputHandle
  have hopen : ∀ (w : World) (mode : Mode), World.Leads P w (w.fopen path mode).2 :=
    fun w mode => World.fopen_leads h
  split_ifs
  · exact hopen w .truncate
  · have hupdate := hopen w .update
    split <;> rename_i heq <;> rw [heq] at hupdate
    · exact hupdate
    · exact hupdate.trans (hopen _ .truncate)
    · exact hupdate

/-- An opened handle stands for the file at the place of its path. -/
theorem openOutputHandle_some {w w' : World} {path : Bytes} {overwrite : Bool} {handle : Handle}
    (h : openOutputHandle w path overwrite = (some handle, w')) :
    handle = ⟨path, w.fs.target path⟩ ∧ (w'.fs.content handle.loc).isSome := by
  have htruncate : ∀ w : World,
      ((w.fopen path .truncate).1.toOption, (w.fopen path .truncate).2) = (some handle, w') →
      handle = ⟨path, w.fs.target path⟩ ∧ (w'.fs.content handle.loc).isSome := by
    intro w h
    obtain ⟨h, rfl⟩ := Prod.mk.inj h
    cases hopen : (w.fopen path .truncate).1 with
    | error e =>
      rw [hopen] at h
      cases h
    | ok handle' =>
      rw [hopen] at h
      cases h
      exact World.fopen_ok hopen
  unfold openOutputHandle at h
  split_ifs at h
  · exact htruncate w h
  · split at h
    · rename_i heq
      cases h
      have hok := World.fopen_ok (congrArg Prod.fst heq)
      rw [heq] at hok
      exact hok
    · rename_i w₁ heq
      -- the failed attempt has not changed anything that the second one depends on
      have hfirst : World.Leads (fun _ => True) w w₁ := by
        have hopen : World.Leads (fun _ => True) w (w.fopen path .update).2 :=
          World.fopen_leads trivial
        rwa [heq] at hopen
      rw [← hfirst.keeps.target path]
      exact htruncate w₁ h
    · cases h

theorem resizeFile_leads {w : World} {f : Option Handle} {size : ℤ}
    (h : ∀ handle, f = some handle → P handle.path) :
    World.Leads P w (resizeFile w f size).2 := by
  unfold resizeFile
  split
  · exact .refl w
  · rename_i handle
    split_ifs
    · exact .refl w
    · have hflush : World.Leads P w w.attempt.2 := World.attempt_leads
      split <;> rename_i h₁ <;> rw [h₁] at hflush
      · exact hflush
      · rename_i w₁
        have htrunc : World.Leads P w₁ (w₁.ftruncate handle size).2 :=
          World.ftruncate_leads (h handle rfl)
        split <;> rename_i h₂ <;> rw [h₂] at htrunc
        · exact hflush.trans htrunc
        · rename_i w₂
          have hseek : World.Leads P w₂ w₂.attempt.2 := World.attempt_leads
          split <;> rename_i h₃ <;> rw [h₃] at hseek
          · exact hflush.trans (htrunc.trans hseek)
          · exact hflush.trans (htrunc.trans hseek)

/-- A resized file has the size asked for, and no other file has changed. -/
theorem resizeFile_true {w w' : World} {f : Option Handle} {size : ℤ}
    (h : resizeFile w f size = (true, w')) :
    ∃ handle, f = some handle ∧ 0 ≤ size ∧
      (∀ loc, loc ≠ handle.loc → w'.fs.content loc = w.fs.content loc) ∧
      ∃ c, w'.fs.content handle.loc = some c ∧ c.length = size.toNat := by
  unfold resizeFile at h
  split at h
  · cases h
  · rename_i handle
    split_ifs at h with hneg
    · cases h
    · split at h
      · cases h
      · rename_i w₁ h₁
        have hfs₁ : w₁.fs = w.fs := by simpa [h₁] using World.fs_attempt (w := w)
        split at h
        · cases h
        · rename_i w₂ h₂
          split at h
          · cases h
          · rename_i w₃ h₃
            cases h
            have hfs₃ : w'.fs = w₂.fs := by simpa [h₃] using World.fs_attempt (w := w₂)
            have hres := World.ftruncate_ok (congrArg Prod.fst h₂)
            rw [h₂] at hres
            rw [hfs₃, ← hfs₁]
            exact ⟨handle, rfl, not_lt.1 hneg, hres⟩

/-! ### The loops -/

/-- The output files of a list of entries: where each of them lies and which part of the torrent
it holds. -/
def layout (savePath : Bytes) : List FileEntry → ℤ → List OutputFile
  | [], _ => []
  | fileEntry :: files, runningOffset =>
    { path := savePath ++ '/'.toUInt8 :: Utils.sanitizePath fileEntry.path
      startOffset := runningOffset
      length := fileEntry.length.toInt } ::
      layout savePath files (int64 (runningOffset + fileEntry.length.toInt))

/-- The first loop goes through the layout up to the file that it refuses. -/
theorem planFiles_spec {savePath : Bytes} {overwrite : Bool} {files : List FileEntry} :
    ∀ {off : ℤ} {w : World},
      World.Leads P w (planFiles savePath overwrite files off w).2 ∧
      (planFiles savePath overwrite files off w).1.2 <+: layout savePath files off ∧
      ((planFiles savePath overwrite files off w).1.1 = true →
        (planFiles savePath overwrite files off w).1.2 = layout savePath files off) := by
  induction files with
  | nil => exact fun {off w} => ⟨.refl w, List.prefix_refl _, fun _ => rfl⟩
  | cons fileEntry files ih =>
    intro off w
    have hmade : ∀ parent : Option Bytes, World.Leads P w
        (match parent with
          | none => (true, w)
          | some dir => Utils.createDirectories w dir).2 := by
      intro parent
      cases parent with
      | none => exact .refl w
      | some dir => exact Utils.createDirectories_leads w dir
    rw [planFiles, layout]
    simp only
    split_ifs with hmk hck
    · obtain ⟨hleads, hprefix, htrue⟩ := @ih (int64 (off + fileEntry.length.toInt))
        (preflight (match parentPath (savePath ++ '/'.toUInt8 :: Utils.sanitizePath fileEntry.path)
          with
          | none => (true, w)
          | some dir => Utils.createDirectories w dir).2
          (savePath ++ '/'.toUInt8 :: Utils.sanitizePath fileEntry.path)
          fileEntry.length.toInt overwrite).2
      refine ⟨(hmade _).trans ((preflight_leads _ _ _ _).trans hleads), ?_, fun h => ?_⟩
      · exact List.cons_prefix_cons.2 ⟨rfl, hprefix⟩
      · rw [htrue h]
    · exact ⟨(hmade _).trans (preflight_leads _ _ _ _), List.nil_prefix, fun h => by cases h⟩
    · exact ⟨hmade _, List.nil_prefix, fun h => by cases h⟩

/-- An output file with the handle that opening its path gives. -/
def opened (fs : FileSystem) (f : OutputFile) : OutputFile :=
  { f with handle := some ⟨f.path, fs.target f.path⟩ }

theorem openFiles_leads {overwrite : Bool} {files : List OutputFile} :
    ∀ {w : World}, (∀ f ∈ files, P f.path) → World.Leads P w (openFiles overwrite files w).2 := by
  induction files with
  | nil => exact fun {w} _ => .refl w
  | cons f files ih =>
    intro w h
    have hf : World.Leads P w (openOutputHandle w f.path overwrite).2 :=
      openOutputHandle_leads (h f List.mem_cons_self)
    rw [openFiles]
    split <;> rename_i h₁ <;> rw [h₁] at hf
    · exact hf
    · rename_i w₁
      have hrest : World.Leads P w₁ (openFiles overwrite files w₁).2 :=
        ih fun g hg => h g (List.mem_cons_of_mem f hg)
      split <;> rename_i h₂ <;> rw [h₂] at hrest
      · exact hf.trans hrest
      · exact hf.trans hrest

theorem openFiles_some {overwrite : Bool} {files : List OutputFile} :
    ∀ {w w' : World} {files' : List OutputFile},
      openFiles overwrite files w = (some files', w') →
      files' = files.map (opened w.fs) ∧
        ∀ f ∈ files, (w'.fs.content (w.fs.target f.path)).isSome := by
  induction files with
  | nil =>
    intro w w' files' h
    cases h
    exact ⟨rfl, by simp⟩
  | cons f files ih =>
    intro w w' files' h
    rw [openFiles] at h
    split at h
    · cases h
    · rename_i handle w₁ h₁
      split at h
      · cases h
      · rename_i rest w₂ h₂
        cases h
        obtain ⟨rfl, hsome⟩ := openOutputHandle_some h₁
        obtain ⟨rfl, hall⟩ := ih h₂
        have hfirst : World.Leads (fun _ => True) w w₁ := by
          have hopen : World.Leads (fun _ => True) w (openOutputHandle w f.path overwrite).2 :=
            openOutputHandle_leads trivial
          rwa [h₁] at hopen
        have hrest : World.Leads (fun _ => True) w₁ w' := by
          have hopen : World.Leads (fun _ => True) w₁ (openFiles overwrite files w₁).2 :=
            openFiles_leads fun _ _ => trivial
          rwa [h₂] at hopen
        -- opening keeps the working directory, so paths lead to the same places
        have htarget : opened w₁.fs = opened w.fs := by
          funext g
          rw [opened, opened, hfirst.keeps.target]
        refine ⟨by rw [htarget]; rfl, fun g hg => ?_⟩
        rcases List.mem_cons.1 hg with rfl | hg
        · exact hrest.keeps.content _ hsome
        · rw [← hfirst.keeps.target]
          exact hall g hg

theorem resizeFiles_leads {files : List OutputFile} :
    ∀ {w : World}, (∀ f ∈ files, ∀ handle, f.handle = some handle → P handle.path) →
      World.Leads P w (resizeFiles files w).2 := by
  induction files with
  | nil => exact fun {w} _ => .refl w
  | cons f files ih =>
    intro w h
    have hf : World.Leads P w (resizeFile w f.handle f.length).2 :=
      resizeFile_leads (h f List.mem_cons_self)
    rw [resizeFiles]
    split <;> rename_i h₁ <;> rw [h₁] at hf
    · exact hf
    · exact hf.trans (ih fun g hg => h g (List.mem_cons_of_mem f hg))

/-- An output file that is open and has the declared size on disk. -/
def Ready (fs : FileSystem) (f : OutputFile) : Prop :=
  ∃ handle, f.handle = some handle ∧ ∃ c, fs.content handle.loc = some c ∧ (c.length : ℤ) = f.length

theorem resizeFiles_true {files : List OutputFile} :
    ∀ {w w' : World}, resizeFiles files w = (true, w') →
      (files.map fun f => f.handle.map Handle.loc).Nodup →
      (∀ f ∈ files, Ready w'.fs f) ∧
      ∀ loc, (∀ f ∈ files, f.handle.map Handle.loc ≠ some loc) →
        w'.fs.content loc = w.fs.content loc := by
  induction files with
  | nil =>
    intro w w' h _
    cases h
    exact ⟨by simp, fun _ _ => rfl⟩
  | cons f files ih =>
    intro w w' h hnodup
    rw [resizeFiles] at h
    split at h
    · cases h
    · rename_i w₁ h₁
      obtain ⟨handle, hhandle, hsize, hother, c, hc, hlen⟩ := resizeFile_true h₁
      rw [List.map_cons, List.nodup_cons] at hnodup
      obtain ⟨hready, hrest⟩ := ih h hnodup.2
      -- the files behind this one do not touch its place
      have hnew : ∀ g ∈ files, g.handle.map Handle.loc ≠ some handle.loc := by
        intro g hg heq
        apply hnodup.1
        rw [hhandle]
        exact List.mem_map.2 ⟨g, hg, heq⟩
      refine ⟨fun g hg => ?_, fun loc hloc => ?_⟩
      · rcases List.mem_cons.1 hg with rfl | hg
        · refine ⟨handle, hhandle, c, ?_, by omega⟩
          rw [hrest _ hnew, hc]
        · exact hready g hg
      · rw [hrest loc fun g hg => hloc g (List.mem_cons_of_mem f hg)]
        apply hother
        rintro rfl
        exact hloc f List.mem_cons_self (by rw [hhandle]; rfl)

/-- What the loops hand on when all three of them succeed. -/
theorem openMultiFile_true {savePath : Bytes} {overwrite : Bool} {files : List FileEntry}
    {w w' : World} {outputFiles : List OutputFile}
    (h : openMultiFile savePath overwrite files w = ((true, outputFiles), w')) :
    ∃ w₁ w₂ : World, outputFiles = (layout savePath files 0).map (opened w₁.fs) ∧
      resizeFiles outputFiles w₂ = (true, w') := by
  unfold openMultiFile at h
  split at h
  · cases h
  · rename_i planned w₁ h₁
    split at h
    · cases h
    · rename_i opens w₂ h₂
      split at h
      · cases h
      · rename_i w₃ h₃
        cases h
        have hplan := @planFiles_spec (fun _ => True) savePath overwrite files 0 w
        rw [h₁] at hplan
        obtain ⟨rfl, -⟩ := openFiles_some h₂
        cases hplan.2.2 rfl
        exact ⟨w₁, w₂, rfl, h₃⟩

/-! ### The paths that are opened or resized -/

theorem openMultiFile_leads (savePath : Bytes) (overwrite : Bool) (files : List FileEntry)
    (w : World) :
    World.Leads (fun path => ∃ f ∈ layout savePath files 0, f.path = path) w
      (openMultiFile savePath overwrite files w).2 := by
  obtain ⟨hplan, hprefix, -⟩ := @planFiles_spec
    (fun path => ∃ f ∈ layout savePath files 0, f.path = path) savePath overwrite files 0 w
  unfold openMultiFile
  split <;> rename_i h₁ <;> rw [h₁] at hplan hprefix
  · exact hplan
  · rename_i planned w₁
    have hopen : World.Leads (fun path => ∃ f ∈ layout savePath files 0, f.path = path)
        w₁ (openFiles overwrite planned w₁).2 :=
      openFiles_leads fun f hf => ⟨f, hprefix.subset hf, rfl⟩
    split <;> rename_i h₂ <;> rw [h₂] at hopen
    · exact hplan.trans hopen
    · rename_i opens w₂
      obtain ⟨rfl, -⟩ := openFiles_some h₂
      have hresize : World.Leads (fun path => ∃ f ∈ layout savePath files 0, f.path = path)
          w₂ (resizeFiles (planned.map (opened w₁.fs)) w₂).2 := by
        apply resizeFiles_leads
        intro g hg handle hhandle
        obtain ⟨f, hf, rfl⟩ := List.mem_map.1 hg
        cases hhandle
        exact ⟨f, hprefix.subset hf, rfl⟩
      split <;> rename_i h₃ <;> rw [h₃] at hresize
      · exact hplan.trans (hopen.trans hresize)
      · exact hplan.trans (hopen.trans hresize)

theorem openSingleFile_leads (outputPath : Bytes) (overwrite : Bool) (total : ℤ) (w : World) :
    World.Leads (· = outputPath) w (openSingleFile outputPath overwrite total w).2 := by
  have hcheck : World.Leads (· = outputPath) w (preflight w outputPath total overwrite).2 :=
    preflight_leads _ _ _ _
  unfold openSingleFile
  split <;> rename_i h₁ <;> rw [h₁] at hcheck
  · exact hcheck
  · rename_i w₁
    have hopen : World.Leads (· = outputPath) w₁ (openOutputHandle w₁ outputPath overwrite).2 :=
      openOutputHandle_leads rfl
    split <;> rename_i h₂ <;> rw [h₂] at hopen
    · exact hcheck.trans hopen
    · rename_i handle w₂
      have hresize : World.Leads (· = outputPath) w₂ (resizeFile w₂ (some handle) total).2 := by
        apply resizeFile_leads
        intro handle' hhandle
        cases hhandle
        rw [(openOutputHandle_some h₂).1]
      split <;> rename_i h₃ <;> rw [h₃] at hresize
      · exact hcheck.trans (hopen.trans hresize)
      · exact hcheck.trans (hopen.trans hresize)

/-- The output files of a torrent, before they are opened. -/
def plan (torrent : TorrentInfo) (savePath : Bytes) : List OutputFile :=
  if torrent.isMultiFile then layout savePath torrent.files 0
  else [{ path := singlePath torrent savePath, length := torrent.totalLength }]

/-- Only planned paths are opened or resized. -/
theorem openOutputFiles_leads (torrent : TorrentInfo) (savePath : Bytes) (overwrite : Bool)
    (w : World) :
    World.Leads (fun path => ∃ f ∈ plan torrent savePath, f.path = path) w
      (openOutputFiles torrent savePath overwrite w).2 := by
  rw [openOutputFiles, plan]
  by_cases hneg : torrent.totalLength < 0
  · rw [if_pos hneg]
    exact .refl w
  · rw [if_neg hneg]
    by_cases hmulti : torrent.isMultiFile = true
    · rw [if_pos hmulti, if_pos hmulti]
      exact openMultiFile_leads _ _ _ _
    · rw [if_neg hmulti, if_neg hmulti]
      apply (openSingleFile_leads _ _ _ _).mono
      rintro path rfl
      exact ⟨_, List.mem_singleton_self _, rfl⟩

/-- A path below the save directory: one or more components, each of which is safe. -/
def InDirectory (savePath path : Bytes) : Prop :=
  ∃ comps, comps ≠ [] ∧ (∀ c ∈ comps, Utils.SafeComponent c) ∧ path = Utils.under savePath comps

theorem inDirectory_sanitizePath (savePath path : Bytes) :
    InDirectory savePath (savePath ++ '/'.toUInt8 :: Utils.sanitizePath path) :=
  ⟨Utils.pathComponents path, Utils.pathComponents_ne_nil path,
    fun _ hc => Utils.safeComponent_of_mem_pathComponents hc,
    Utils.under_pathComponents savePath path⟩

theorem inDirectory_of_mem_layout {savePath : Bytes} {files : List FileEntry} :
    ∀ {off : ℤ}, ∀ f ∈ layout savePath files off, InDirectory savePath f.path := by
  induction files with
  | nil => simp [layout]
  | cons fileEntry files ih =>
    intro off f hf
    rw [layout, List.mem_cons] at hf
    rcases hf with rfl | hf
    · exact inDirectory_sanitizePath savePath fileEntry.path
    · exact ih f hf

/-- A single name leads below the directory unless it is `.` or `..`. -/
theorem inDirectory_single_iff {savePath name : Bytes} (hname : name ≠ []) :
    InDirectory savePath (savePath ++ '/'.toUInt8 :: Utils.sanitizeFileName name) ↔
      name ≠ ascii "." ∧ name ≠ ascii ".." := by
  have hunder : savePath ++ '/'.toUInt8 :: Utils.sanitizeFileName name =
      Utils.under savePath [Utils.sanitizeFileName name] := by
    simp [Utils.under]
  constructor
  · rintro ⟨comps, hne, hsafe, hpath⟩
    rw [hunder] at hpath
    have hcomps : [Utils.sanitizeFileName name] = comps := by
      apply Utils.under_injective _ (fun c hc => (hsafe c hc).no_slash) hpath
      intro c hc hslash
      rw [List.mem_singleton.1 hc] at hslash
      have hunsafe := Utils.not_isUnsafe_sanitize hslash
      revert hunsafe
      decide
    subst hcomps
    have hc := hsafe _ (List.mem_singleton_self _)
    exact ⟨fun h => hc.ne_dot (Utils.sanitizeFileName_eq_dot.2 h),
      fun h => hc.ne_dotdot (Utils.sanitizeFileName_eq_dotdot.2 h)⟩
  · rintro ⟨h₁, h₂⟩
    refine ⟨[Utils.sanitizeFileName name], List.cons_ne_nil _ _, fun c hc => ?_, hunder⟩
    rw [List.mem_singleton.1 hc]
    apply Utils.safeComponent_sanitize
    · simpa [Utils.sanitizeFileName] using hname
    · exact fun h => h₁ (Utils.sanitizeFileName_eq_dot.1 h)
    · exact fun h => h₂ (Utils.sanitizeFileName_eq_dotdot.1 h)

/-- Opening a target starts with a call for its path. -/
theorem fopen_mem_calls (w : World) (path : Bytes) (overwrite : Bool) :
    .fopen path ∈ (openOutputHandle w path overwrite).2.calls := by
  have hmem : ∀ (w : World) (mode : Mode), .fopen path ∈ (w.fopen path mode).2.calls := by
    intro w mode
    rw [World.fopen, World.calls_call]
    simp [World.record]
  unfold openOutputHandle
  split_ifs
  · exact hmem w .truncate
  · have hupdate := hmem w .update
    split <;> rename_i h <;> rw [h] at hupdate
    · exact hupdate
    · exact hmem _ .truncate
    · exact hupdate

theorem fopen_mem_openSingleFile {outputPath : Bytes} {overwrite : Bool} {total : ℤ} {w : World}
    (h : (preflight w outputPath total overwrite).1 = true) :
    .fopen outputPath ∈ (openSingleFile outputPath overwrite total w).2.calls := by
  unfold openSingleFile
  split <;> rename_i h₁ <;> rw [h₁] at h
  · cases h
  · rename_i w₁
    have hmem := fopen_mem_calls w₁ outputPath overwrite
    split <;> rename_i h₂ <;> rw [h₂] at hmem
    · exact hmem
    · rename_i handle w₂
      obtain ⟨new, hnew, -⟩ :=
        (@resizeFile_leads (fun _ => True) w₂ (some handle) total fun _ _ => trivial).calls
      split <;> rename_i h₃ <;> rw [h₃] at hnew
      · exact hnew ▸ List.mem_append_left new hmem
      · exact hnew ▸ List.mem_append_left new hmem

/-- A refused target is not opened at all. -/
theorem calls_openSingleFile_refused {outputPath : Bytes} {overwrite : Bool} {total : ℤ} {w : World}
    (h : (preflight w outputPath total overwrite).1 = false) :
    (openSingleFile outputPath overwrite total w).2.calls = w.calls := by
  obtain ⟨new, hnew, hnone⟩ := (@preflight_leads (fun _ => False) w outputPath total overwrite).calls
  unfold openSingleFile
  split <;> rename_i h₁ <;> rw [h₁] at h hnew
  · rw [hnew, List.eq_nil_iff_forall_not_mem.2 hnone, List.append_nil]
  · cases h

/-- **The opened paths, exactly**: for an accepted torrent all the paths that are opened or resized
lie below the save directory if and only if the torrent has several files, or its name is neither
`.` nor `..`, or the target is refused before it is opened. -/
theorem opened_iff {torrent : TorrentInfo} (h : validateTorrentInfo torrent = .ok ())
    (savePath : Bytes) (overwrite : Bool) (fs : FileSystem) (faults : List Fault) :
    (∀ call ∈ (openOutputFiles torrent savePath overwrite { fs, faults }).2.calls,
        InDirectory savePath call.path) ↔
      torrent.isMultiFile = true ∨ (torrent.name ≠ ascii "." ∧ torrent.name ≠ ascii "..") ∨
        (overwrite = false ∧ (safeResumeTarget { fs, faults } (singlePath torrent savePath)
          torrent.totalLength).1 = false) := by
  have haccepted : torrent.Accepted := h
  have hname : torrent.name ≠ [] := haccepted.name_ne_nil
  have htotal : ¬ torrent.totalLength < 0 := not_lt.2 haccepted.totalLength_nonneg
  obtain ⟨new, hnew, hplanned⟩ :=
    (openOutputFiles_leads torrent savePath overwrite { fs, faults }).calls
  by_cases hmulti : torrent.isMultiFile = true
  -- every file goes through `sanitizePath`
  · refine iff_of_true (fun call hcall => ?_) (.inl hmulti)
    rw [hnew, List.nil_append] at hcall
    obtain ⟨f, hf, hpath⟩ := hplanned call hcall
    rw [plan, if_pos hmulti] at hf
    rw [← hpath]
    exact inDirectory_of_mem_layout f hf
  · have hsingle : singlePath torrent savePath =
        savePath ++ '/'.toUInt8 :: Utils.sanitizeFileName torrent.name := by
      rw [singlePath, if_neg hname]
    have hgood := @inDirectory_single_iff savePath torrent.name hname
    rw [← hsingle] at hgood
    constructor
    · intro hall
      by_cases hcheck : (preflight { fs, faults } (singlePath torrent savePath)
          torrent.totalLength overwrite).1 = true
      · have hmem := fopen_mem_openSingleFile hcheck
        rw [openOutputFiles, if_neg htotal, if_neg hmulti] at hall
        exact .inr (.inl (hgood.1 (hall _ hmem)))
      · unfold preflight at hcheck
        split_ifs at hcheck with hover
        · exact absurd rfl hcheck
        · exact .inr (.inr ⟨by simpa using hover, by simpa using hcheck⟩)
    · rintro (hm | hdots | ⟨rfl, hrefused⟩) call hcall
      · exact absurd hm hmulti
      · rw [hnew, List.nil_append] at hcall
        obtain ⟨f, hf, hpath⟩ := hplanned call hcall
        rw [plan, if_neg hmulti, List.mem_singleton] at hf
        rw [← hpath, hf]
        exact hgood.2 hdots
      · have hcheck : (preflight { fs, faults } (singlePath torrent savePath) torrent.totalLength
            false).1 = false := hrefused
        rw [openOutputFiles, if_neg htotal, if_neg hmulti, calls_openSingleFile_refused hcheck] at hcall
        cases hcall

/-- What the system makes of an unsafe name: a single-file torrent called `.` or `..` never gets
its output file, as the path is that of a directory. -/
theorem openOutputFiles_dots {torrent : TorrentInfo} (hmulti : torrent.isMultiFile = false)
    (hname : torrent.name = ascii "." ∨ torrent.name = ascii "..") (savePath : Bytes)
    (overwrite : Bool) (w : World) :
    (openOutputFiles torrent savePath overwrite w).1 = (false, []) := by
  have hpath : ∃ dots, (dots = ascii "." ∨ dots = ascii "..") ∧
      singlePath torrent savePath = savePath ++ '/'.toUInt8 :: dots := by
    rcases hname with hname | hname
    · exact ⟨ascii ".", .inl rfl, by rw [singlePath, hname]; rfl⟩
    · exact ⟨ascii "..", .inr rfl, by rw [singlePath, hname]; rfl⟩
  obtain ⟨dots, hdots, hpath⟩ := hpath
  have hfail : ∀ (w : World) (mode : Mode),
      ∃ e, (w.fopen (singlePath torrent savePath) mode).1 = .error e :=
    fun w mode => hpath ▸ World.fopen_dots hdots mode
  have hopen : ∀ w : World,
      (openOutputHandle w (singlePath torrent savePath) overwrite).1 = none := by
    intro w
    have htruncate : ∀ w : World,
        (w.fopen (singlePath torrent savePath) .truncate).1.toOption = none := by
      intro w
      obtain ⟨e, he⟩ := hfail w .truncate
      rw [he]
      rfl
    unfold openOutputHandle
    split_ifs
    · exact htruncate w
    · obtain ⟨e, he⟩ := hfail w .update
      split
      · rename_i h
        rw [h] at he
        cases he
      · exact htruncate _
      · rfl
  rw [openOutputFiles]
  split_ifs with hneg hm
  · rfl
  · rw [hmulti] at hm
    cases hm
  · rw [openSingleFile]
    split
    · rfl
    · rename_i w₁ h₁
      have hnone := hopen w₁
      split
      · rfl
      · rename_i h₂
        rw [h₂] at hnone
        cases hnone

/-! ### A torrent whose name is `..` -/

/-- An empty single-file torrent named `..`. -/
def dotdotTorrent : TorrentInfo :=
  { name := ascii "..", pieceLength := 1, fileName := ascii ".." }

/-- A file system that holds nothing but the directory `d`, from which the program is started. -/
def oneDirectory : FileSystem where
  node := fun loc => if loc = [] ∨ loc = [ascii "d"] then some .directory else none
  cwd := []
  root_dir := rfl
  parent_dir := by
    intro name dir h
    by_cases hdir : name :: dir = [ascii "d"]
    · simp [(List.cons.inj hdir).2]
    · simp [hdir] at h

theorem validate_dotdotTorrent : validateTorrentInfo dotdotTorrent = .ok () := by decide

theorem not_forall_opened :
    ¬ ∀ torrent, validateTorrentInfo torrent = .ok () →
      ∀ savePath overwrite fs faults,
      ∀ call ∈ (openOutputFiles torrent savePath overwrite { fs, faults }).2.calls,
        InDirectory savePath call.path := by
  intro h
  have hmem : .fopen (ascii "d/..") ∈
      (openOutputFiles dotdotTorrent (ascii "d") true { fs := oneDirectory }).2.calls := by
    decide +kernel
  have hbad : InDirectory (ascii "d") (ascii "d" ++ '/'.toUInt8 :: Utils.sanitizeFileName
      (ascii "..")) := h dotdotTorrent validate_dotdotTorrent (ascii "d") true oneDirectory [] _ hmem
  exact ((inDirectory_single_iff (by decide)).1 hbad).2 rfl

/-- An empty torrent named `a` stays in the directory; for the one named `..` this is equivalent to the
condition. -/
theorem opened_iff_names :
    (∀ call ∈ (openOutputFiles { dotdotTorrent with name := ascii "a" } (ascii "d") true
      { fs := oneDirectory }).2.calls, InDirectory (ascii "d") call.path) ∧
    ((∀ call ∈ (openOutputFiles dotdotTorrent (ascii "d") true { fs := oneDirectory }).2.calls,
        InDirectory (ascii "d") call.path) ↔
      dotdotTorrent.isMultiFile = true ∨
        (dotdotTorrent.name ≠ ascii "." ∧ dotdotTorrent.name ≠ ascii "..") ∨
        (true = false ∧ (safeResumeTarget { fs := oneDirectory }
          (singlePath dotdotTorrent (ascii "d")) dotdotTorrent.totalLength).1 = false)) :=
  ⟨(opened_iff (by decide) (ascii "d") true oneDirectory []).2 (.inr (.inl (by decide))),
    opened_iff validate_dotdotTorrent (ascii "d") true oneDirectory []⟩

end Downloader

end Gush
