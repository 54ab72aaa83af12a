import Gush.Downloader.OutputFiles

/-!
# Resuming without `--overwrite`

Without `--overwrite`, no file that was there before loses a byte, whatever fails on the way:
planning only makes directories, opening only creates files, and resizing goes no lower than the
size that the preflight has seen. `resume_preserves` is the whole of it.

A target counts as existing by its place in the tree. The preflight sees it there because
`createDirectories` has just made sure that the walk to its parent succeeds.
-/

namespace Gush

open Cxx Posix

namespace Posix

namespace FileSystem

/-- Everything that was there is still there and unchanged. -/
structure Grows (fs fs' : FileSystem) : Prop where
  cwd : fs'.cwd = fs.cwd
  node : ∀ loc node, fs.node loc = some node → fs'.node loc = some node

/-- The content of every file lives on as the beginning of its new content. -/
def Extends (fs fs' : FileSystem) : Prop :=
  ∀ loc c, fs.content loc = some c → ∃ c', fs'.content loc = some c' ∧ c <+: c'

/-- Every file has kept its content. -/
def Unchanged (fs fs' : FileSystem) : Prop :=
  ∀ loc c, fs.content loc = some c → fs'.content loc = some c

theorem Grows.refl (fs : FileSystem) : fs.Grows fs := ⟨rfl, fun _ _ h => h⟩

theorem Grows.trans {fs fs' fs'' : FileSystem} (h : fs.Grows fs') (h' : fs'.Grows fs'') :
    fs.Grows fs'' :=
  ⟨h'.cwd.trans h.cwd, fun loc node hnode => h'.node loc node (h.node loc node hnode)⟩

theorem Grows.unchanged {fs fs' : FileSystem} (h : fs.Grows fs') : fs.Unchanged fs' := by
  intro loc c hc
  rw [content_eq_some_iff] at hc ⊢
  exact h.node loc _ hc

theorem Unchanged.extends {fs fs' : FileSystem} (h : fs.Unchanged fs') : fs.Extends fs' :=
  fun loc c hc => ⟨c, h loc c hc, List.prefix_refl c⟩

theorem Grows.target {fs fs' : FileSystem} (h : fs.Grows fs') (path : Bytes) :
    fs'.target path = fs.target path := by
  simp only [FileSystem.target, origin, h.cwd]

/-- A new entry where there was nothing. -/
theorem grows_of_update {fs fs' : FileSystem} {loc : Loc} {node : Node} (hcwd : fs'.cwd = fs.cwd)
    (hnone : fs.node loc = none) (hnode : fs'.node = Function.update fs.node loc (some node)) :
    fs.Grows fs' := by
  refine ⟨hcwd, fun l n hl => ?_⟩
  have hne : l ≠ loc := by
    rintro rfl
    rw [hnone] at hl
    cases hl
  rw [hnode, Function.update_of_ne hne, hl]

theorem mkdir_grows {fs fs' : FileSystem} {path : Bytes} (h : fs.mkdir path = .ok ((), fs')) :
    fs.Grows fs' := by
  unfold mkdir at h
  split at h
  · cases h
  · rename_i loc _
    cases hadd : fs.addDirectory loc with
    | error e =>
      rw [hadd] at h
      cases h
    | ok fs₁ =>
      rw [hadd] at h
      cases h
      obtain ⟨hcwd, hnone, hnode⟩ := addDirectory_ok hadd
      exact grows_of_update hcwd hnone hnode

/-- A file that was missing when `"r+b"` was tried is created by `"w+b"`. -/
theorem fopen_truncate_grows {fs fs' : FileSystem} {path : Bytes} {handle : Handle}
    (hmissing : fs.fopen path .update = .error .noent)
    (h : fs.fopen path .truncate = .ok (handle, fs')) : fs.Grows fs' := by
  unfold fopen at hmissing h
  cases hres : fs.resolve path with
  | error e =>
    rw [hres] at h
    cases h
  | ok loc =>
    rw [hres] at hmissing h
    have hnone : fs.node loc = none := by
      cases hnode : fs.node loc with
      | none => rfl
      | some node => cases node <;> simp [hnode] at hmissing
    cases hset : fs.setContent loc [] with
    | error e => simp [hset, Except.map] at h
    | ok fs₁ =>
      simp only [hset, Except.map, Except.ok.injEq, Prod.mk.injEq] at h
      obtain ⟨-, rfl⟩ := h
      obtain ⟨hcwd, -, hnode⟩ := setContent_ok hset
      exact grows_of_update hcwd hnone hnode

/-! ### Walking in two parts -/

theorem walk_append (fs : FileSystem) (comps comps' : List Bytes) (loc : Loc) :
    fs.walk loc (comps ++ comps') =
      match fs.walk loc comps with
      | .error e => .error e
      | .ok loc' => fs.walk loc' comps' := by
  induction comps generalizing loc with
  | nil => rfl
  | cons comp comps ih =>
    rw [List.cons_append, walk, walk]
    split
    · rfl
    · rfl
    · split_ifs <;> exact ih _

/-- Slashes in a row and a name behind them. -/
theorem walk_slashes {fs : FileSystem} {loc : Loc} {name : Bytes}
    (hdir : fs.node loc = some .directory) (hname : Utils.SafeComponent name) (k : ℕ) :
    fs.walk loc (List.replicate k [] ++ [name]) = .ok (name :: loc) := by
  induction k with
  | zero =>
    rw [List.replicate_zero, List.nil_append, walk, hdir]
    simp only
    rw [if_neg (not_or.2 ⟨hname.ne_nil, hname.ne_dot⟩), if_neg hname.ne_dotdot, walk]
  | succ k ih =>
    rw [List.replicate_succ, List.cons_append, walk, hdir]
    simpa using ih

theorem splitOn_slashes {p name : Bytes} (hname : '/'.toUInt8 ∉ name) (k : ℕ) :
    (p ++ List.replicate k '/'.toUInt8 ++ '/'.toUInt8 :: name).splitOn '/'.toUInt8 =
      p.splitOn '/'.toUInt8 ++ (List.replicate k [] ++ [name]) := by
  induction k generalizing p with
  | zero =>
    simp [List.splitOn_append_cons_self, List.splitOn_eq_singleton hname]
  | succ k ih =>
    have hshift : p ++ List.replicate (k + 1) '/'.toUInt8 ++ '/'.toUInt8 :: name =
        p ++ '/'.toUInt8 :: ([] ++ List.replicate k '/'.toUInt8 ++ '/'.toUInt8 :: name) := by
      simp [List.replicate_succ]
    rw [hshift, List.splitOn_append_cons_self, ih]
    simp [List.replicate_succ]

/-- A safe name behind a path that leads to a directory leads into that directory. -/
theorem resolve_behind {fs : FileSystem} {p name : Bytes} {loc : Loc}
    (hres : fs.resolve p = .ok loc) (hdir : fs.node loc = some .directory)
    (hname : Utils.SafeComponent name) (k : ℕ) :
    fs.resolve (p ++ List.replicate k '/'.toUInt8 ++ '/'.toUInt8 :: name) = .ok (name :: loc) := by
  unfold resolve at hres ⊢
  split_ifs at hres with hp
  have horigin : fs.origin (p ++ List.replicate k '/'.toUInt8 ++ '/'.toUInt8 :: name) =
      fs.origin p := by
    obtain ⟨b, p, rfl⟩ := List.exists_cons_of_ne_nil hp
    rfl
  rw [if_neg (by simp), horigin, splitOn_slashes hname.no_slash, walk_append, hres]
  exact walk_slashes hdir hname k

end FileSystem

namespace World

variable {w : World}

theorem call_grows {α : Type} {op : FileSystem → Except Errno (α × FileSystem)}
    (h : ∀ a fs', op w.fs = .ok (a, fs') → w.fs.Grows fs') : w.fs.Grows (w.call op).2.fs := by
  rcases call_cases w op with ⟨-, hfs⟩ | ⟨a, -, hop⟩
  · rw [hfs]
    exact .refl _
  · exact h a _ hop

theorem mkdir_grows {path : Bytes} : w.fs.Grows (w.mkdir path).2.fs :=
  call_grows fun _ _ h => FileSystem.mkdir_grows h

/-- A successful `stat` has found its path. -/
theorem stat_ok {path : Bytes} {node : Node} (h : (w.stat path).1 = .ok node) :
    ∃ loc, w.fs.resolve path = .ok loc ∧ w.fs.node loc = some node := by
  have hop : w.fs.stat path = .ok (node, (w.stat path).2.fs) := call_ok h
  generalize (w.stat path).2.fs = fs' at hop
  unfold FileSystem.stat at hop
  split at hop
  · cases hop
  · rename_i loc hres
    split at hop
    · cases hop
    · rename_i node' hnode
      cases hop
      exact ⟨loc, hres, hnode⟩

/-- A `stat` that finds nothing at the end of a walk that succeeds. -/
theorem stat_noent {path : Bytes} {loc : Loc} (h : (w.stat path).1 = .error .noent)
    (hres : w.fs.resolve path = .ok loc) : w.fs.node loc = none := by
  unfold stat call at h
  split at h
  · cases h
  · split at h
    · rename_i e herr
      cases h
      have hop : w.fs.stat path = .error .noent := herr
      unfold FileSystem.stat at hop
      rw [hres] at hop
      simp only at hop
      split at hop
      · assumption
      · cases hop
    · cases h

end World

end Posix

namespace Utils

theorem makeParts_grows (parts : List Bytes) (w : World) : w.fs.Grows (makeParts parts w).2.fs := by
  induction parts generalizing w with
  | nil => exact .refl _
  | cons part parts ih =>
    rw [makeParts]
    have hmk : w.fs.Grows (w.mkdir part).2.fs := World.mkdir_grows
    split_ifs
    · exact ih w
    · split <;> rename_i h <;> rw [h] at hmk
      · exact hmk.trans (ih _)
      · exact hmk.trans (ih _)
      · exact hmk

theorem createDirectories_grows (w : World) (path : Bytes) :
    w.fs.Grows (createDirectories w path).2.fs := by
  unfold createDirectories
  simp only
  split_ifs
  · exact .refl _
  · generalize (path.reverse.dropWhile (· == '/'.toUInt8)).reverse = p
    have hfirst : (w.stat p).2.fs = w.fs := World.fs_stat
    split <;> rename_i h <;> rw [h] at hfirst
    · exact hfirst ▸ .refl _
    · rename_i w₁
      have hparts := makeParts_grows (slashPrefixes p ++ [p]) w₁
      rw [show w₁.fs = w.fs from hfirst] at hparts
      split <;> rename_i h₂ <;> rw [h₂] at hparts
      · exact hparts
      · rename_i w₂
        have hlast : (w₂.stat p).2.fs = w₂.fs := World.fs_stat
        split <;> rename_i h₃ <;> rw [h₃] at hlast
        · exact hlast ▸ hparts
        · exact hlast ▸ hparts

/-- A `stat` that finds a directory. -/
theorem stat_directory {w w' : World} {path : Bytes} {node : Node} (h : w.stat path = (.ok node, w'))
    (hnode : decide (node = .directory) = true) :
    ∃ loc, w'.fs.resolve path = .ok loc ∧ w'.fs.node loc = some .directory := by
  have hfs : w'.fs = w.fs := by simpa [h] using @World.fs_stat w path
  rw [hfs]
  have hok := World.stat_ok (congrArg Prod.fst h)
  rwa [of_decide_eq_true hnode] at hok

/-- After a success the path, without slashes at its end, leads to a directory. -/
theorem createDirectories_true {w : World} {path : Bytes}
    (h : (createDirectories w path).1 = true) :
    ∃ loc, (createDirectories w path).2.fs.resolve
        (path.reverse.dropWhile (· == '/'.toUInt8)).reverse = .ok loc ∧
      (createDirectories w path).2.fs.node loc = some .directory := by
  -- both ways to succeed end with a `stat` that finds a directory
  unfold createDirectories at h ⊢
  simp only at h ⊢
  split_ifs at h ⊢
  · generalize (path.reverse.dropWhile (· == '/'.toUInt8)).reverse = p at h ⊢
    cases h₁ : w.stat p with
    | mk r w₁ =>
      cases r with
      | ok node =>
        simp only [h₁] at h ⊢
        exact stat_directory h₁ h
      | error e =>
        simp only [h₁] at h ⊢
        cases h₂ : makeParts (slashPrefixes p ++ [p]) w₁ with
        | mk b w₂ =>
          cases b with
          | false => simp [h₂] at h
          | true =>
            simp only [h₂] at h ⊢
            cases h₃ : w₂.stat p with
            | mk r w₃ =>
              cases r with
              | ok node =>
                simp only [h₃] at h ⊢
                exact stat_directory h₃ h
              | error e => simp [h₃] at h

end Utils

namespace Downloader

/-! ### The preflight -/

/-- A target that is there and cannot be resumed: it is not a regular file, or longer than the
torrent declares. -/
def Obstructed (fs : FileSystem) (f : OutputFile) : Prop :=
  ∃ node, fs.node (fs.target f.path) = some node ∧
    ∀ content, node = .regular content → f.length < content.length

theorem Obstructed.mono {fs fs' : FileSystem} {f : OutputFile} (h : Obstructed fs f)
    (hgrows : fs.Grows fs') : Obstructed fs' f := by
  obtain ⟨node, hnode, hlong⟩ := h
  refine ⟨node, ?_, hlong⟩
  rw [hgrows.target]
  exact hgrows.node _ _ hnode

/-- A file at the place of a target that is not obstructed fits. -/
theorem length_le_of_not_obstructed {fs : FileSystem} {f : OutputFile} {c : Bytes}
    (h : ¬ Obstructed fs f) (hc : fs.content (fs.target f.path) = some c) :
    (c.length : ℤ) ≤ f.length := by
  by_contra hlt
  refine h ⟨.regular c, FileSystem.content_eq_some_iff.1 hc, ?_⟩
  rintro _ ⟨⟩
  exact not_le.1 hlt

theorem fs_preflight (w : World) (path : Bytes) (length : ℤ) (overwrite : Bool) :
    (preflight w path length overwrite).2.fs = w.fs := by
  unfold preflight safeResumeTarget
  have hstat : (w.stat path).2.fs = w.fs := World.fs_stat
  split_ifs
  · rfl
  · split <;> rename_i h <;> rw [h] at hstat <;> exact hstat

/-- What passes the preflight is not obstructed, provided that the walk to it succeeds. -/
theorem not_obstructed_of_preflight {w : World} {f : OutputFile}
    (hres : w.fs.resolve f.path = .ok (w.fs.target f.path))
    (h : (preflight w f.path f.length false).1 = true) : ¬ Obstructed w.fs f := by
  rintro ⟨node, hnode, hlong⟩
  unfold preflight safeResumeTarget at h
  rw [if_neg Bool.false_ne_true] at h
  split at h
  · rename_i e w₁ hstat
    have hnoent : e = .noent := of_decide_eq_true h
    subst hnoent
    have hnone := World.stat_noent (congrArg Prod.fst hstat) hres
    rw [hnone] at hnode
    cases hnode
  · cases h
  · rename_i content w₁ hstat
    obtain ⟨loc, hloc, hcontent⟩ := World.stat_ok (congrArg Prod.fst hstat)
    rw [hres] at hloc
    cases hloc
    rw [hcontent] at hnode
    cases hnode
    have := hlong content rfl
    have hle : (content.length : ℤ) ≤ f.length := of_decide_eq_true h
    omega

/-! ### Planning -/

theorem parentPath_append {dir name : Bytes} (hname : '/'.toUInt8 ∉ name) :
    parentPath (dir ++ '/'.toUInt8 :: name) = some dir := by
  have hstop : ∀ b ∈ name.reverse, (b != '/'.toUInt8) = true := by
    intro b hb
    rw [List.mem_reverse] at hb
    have hne : b ≠ '/'.toUInt8 := by
      rintro rfl
      exact hname hb
    simpa using hne
  rw [parentPath, if_pos (by simp), List.reverse_append, List.reverse_cons, List.append_assoc,
    List.dropWhile_append_of_pos hstop]
  simp

/-- A path without its slashes at the end, and the slashes. -/
theorem exists_slashes (dir : Bytes) :
    ∃ k, dir = (dir.reverse.dropWhile (· == '/'.toUInt8)).reverse ++
      List.replicate k '/'.toUInt8 := by
  refine ⟨(dir.reverse.takeWhile (· == '/'.toUInt8)).length, ?_⟩
  have hall : dir.reverse.takeWhile (· == '/'.toUInt8) =
      List.replicate (dir.reverse.takeWhile (· == '/'.toUInt8)).length '/'.toUInt8 := by
    refine List.eq_replicate_iff.2 ⟨rfl, fun b hb => ?_⟩
    simpa using List.mem_takeWhile_imp hb
  have hsplit := congrArg List.reverse
    (List.takeWhile_append_dropWhile (p := (· == '/'.toUInt8)) (l := dir.reverse))
  rw [List.reverse_append, List.reverse_reverse, hall, List.reverse_replicate] at hsplit
  exact hsplit.symm

/-- Once its parent directories are made, the walk to a target below the save directory
succeeds. -/
theorem resolve_of_createDirectories {w : World} {savePath path dir : Bytes}
    (hin : InDirectory savePath path) (hdir : parentPath path = some dir)
    (h : (Utils.createDirectories w dir).1 = true) :
    (Utils.createDirectories w dir).2.fs.resolve path =
      .ok ((Utils.createDirectories w dir).2.fs.target path) := by
  obtain ⟨comps, hne, hsafe, rfl⟩ := hin
  obtain ⟨init, name, rfl⟩ := (List.eq_nil_or_concat' comps).resolve_left hne
  have hname : Utils.SafeComponent name := hsafe name (by simp)
  have hpath : Utils.under savePath (init ++ [name]) =
      Utils.under savePath init ++ '/'.toUInt8 :: name := by
    simp [Utils.under]
  rw [hpath, parentPath_append hname.no_slash] at hdir
  obtain ⟨loc, hloc, hnode⟩ := Utils.createDirectories_true h
  obtain ⟨k, hk⟩ := exists_slashes dir
  have hres := FileSystem.resolve_behind hloc hnode hname k
  rw [← hk] at hres
  rw [hpath, Option.some.inj hdir, hres, FileSystem.target_of_resolve hres]

/-- The first loop only makes directories. If it succeeds, no target is obstructed. -/
theorem planFiles_resume {savePath : Bytes} {files : List FileEntry} : ∀ {off : ℤ} {w : World},
    w.fs.Grows (planFiles savePath false files off w).2.fs ∧
    ((planFiles savePath false files off w).1.1 = true →
      ∀ f ∈ layout savePath files off, ¬ Obstructed w.fs f) := by
  induction files with
  | nil => exact fun {off w} => ⟨.refl _, fun _ f hf => absurd hf List.not_mem_nil⟩
  | cons fileEntry files ih =>
    intro off w
    have hin : InDirectory savePath (savePath ++ '/'.toUInt8 :: Utils.sanitizePath fileEntry.path) :=
      inDirectory_sanitizePath savePath fileEntry.path
    have hparent : ∃ dir, parentPath
        (savePath ++ '/'.toUInt8 :: Utils.sanitizePath fileEntry.path) = some dir :=
      ⟨_, by rw [parentPath, if_pos (by simp)]⟩
    obtain ⟨dir, hdir⟩ := hparent
    rw [planFiles, layout]
    simp only [hdir]
    have hmade := Utils.createDirectories_grows w dir
    split_ifs with hmk hck
    · have hcheck := fs_preflight (Utils.createDirectories w dir).2
        (savePath ++ '/'.toUInt8 :: Utils.sanitizePath fileEntry.path)
        fileEntry.length.toInt false
      obtain ⟨hrest, hfree⟩ := @ih (int64 (off + fileEntry.length.toInt))
        (preflight (Utils.createDirectories w dir).2
          (savePath ++ '/'.toUInt8 :: Utils.sanitizePath fileEntry.path)
          fileEntry.length.toInt false).2
      rw [hcheck] at hrest hfree
      refine ⟨hmade.trans hrest, fun htrue f hf hobs => ?_⟩
      rcases List.mem_cons.1 hf with rfl | hf
      · exact not_obstructed_of_preflight (resolve_of_createDirectories hin hdir hmk) hck
          (hobs.mono hmade)
      · exact hfree htrue f hf (hobs.mono hmade)
    · exact ⟨(fs_preflight _ _ _ _).symm ▸ hmade, fun h => by cases h⟩
    · exact ⟨hmade, fun h => by cases h⟩

/-! ### Opening -/

/-- What `"r+b"` leaves behind: the same tree, and the walk to the path if it succeeded. -/
theorem fopen_walks {w : World} {path : Bytes} {mode : Mode} {handle : Handle}
    (h : (w.fopen path mode).1 = .ok handle) : w.fs.resolve path = .ok (w.fs.target path) := by
  have hop : w.fs.fopen path mode = .ok (handle, _) :=
    World.call_ok (w := w.record (.fopen path)) h
  unfold FileSystem.fopen at hop
  split at hop
  · cases hop
  · rename_i loc hres
    rw [hres, FileSystem.target_of_resolve hres]

theorem fs_fopen_update (w : World) (path : Bytes) : (w.fopen path .update).2.fs = w.fs := by
  rcases World.call_cases (w.record (.fopen path)) (·.fopen path .update) with
    ⟨-, hfs⟩ | ⟨handle, -, hop⟩
  · exact hfs
  · unfold FileSystem.fopen at hop
    split at hop
    · cases hop
    · simp only at hop
      split at hop
      · cases hop
      · cases hop
      · exact (congrArg Prod.snd (Except.ok.inj hop)).symm

/-- Only the file system itself reports that a file is missing. -/
theorem fopen_noent {w : World} {path : Bytes} {mode : Mode}
    (h : (w.fopen path mode).1 = .error .noent) : w.fs.fopen path mode = .error .noent := by
  unfold World.fopen World.call at h
  split at h
  · cases h
  · split at h
    · rename_i e herr
      cases h
      exact herr
    · cases h

/-- Without `--overwrite`, opening creates what is missing and changes nothing else. -/
theorem openOutputHandle_grows (w : World) (path : Bytes) :
    w.fs.Grows (openOutputHandle w path false).2.fs := by
  unfold openOutputHandle
  rw [if_neg Bool.false_ne_true]
  have hupdate := fs_fopen_update w path
  split <;> rename_i h <;> rw [h] at hupdate
  · exact hupdate ▸ .refl _
  · rename_i w₁
    have hmissing : w₁.fs.fopen path .update = .error .noent := by
      rw [show w₁.fs = w.fs from hupdate]
      exact fopen_noent (congrArg Prod.fst h)
    rw [← show w₁.fs = w.fs from hupdate]
    exact World.call_grows (w := w₁.record (.fopen path)) fun handle fs' hop =>
      FileSystem.fopen_truncate_grows hmissing hop
  · exact hupdate ▸ .refl _

/-- A target that could be opened can be walked to. -/
theorem openOutputHandle_walks {w w' : World} {path : Bytes} {handle : Handle}
    (h : openOutputHandle w path false = (some handle, w')) :
    w.fs.resolve path = .ok (w.fs.target path) := by
  unfold openOutputHandle at h
  rw [if_neg Bool.false_ne_true] at h
  have hupdate := fs_fopen_update w path
  split at h
  · rename_i h₁
    exact fopen_walks (congrArg Prod.fst h₁)
  · rename_i w₁ h₁
    rw [h₁] at hupdate
    rw [← show w₁.fs = w.fs from hupdate]
    cases hopen : (w₁.fopen path .truncate).1 with
    | error e => simp [hopen, Except.toOption] at h
    | ok handle => exact fopen_walks hopen
  · cases h

theorem openFiles_grows {files : List OutputFile} : ∀ {w : World},
    w.fs.Grows (openFiles false files w).2.fs := by
  induction files with
  | nil => exact fun {w} => .refl _
  | cons f files ih =>
    intro w
    have hf := openOutputHandle_grows w f.path
    rw [openFiles]
    split <;> rename_i h₁ <;> rw [h₁] at hf
    · exact hf
    · rename_i w₁
      have hrest : w₁.fs.Grows (openFiles false files w₁).2.fs := ih
      split <;> rename_i h₂ <;> rw [h₂] at hrest
      · exact hf.trans hrest
      · exact hf.trans hrest

/-! ### Resizing -/

/-- Setting the size of a file to no less than its old size keeps the old content at its beginning,
whatever has been put behind it. -/
theorem ftruncate_extends {fs : FileSystem} {w : World} {handle : Handle} {size : ℤ}
    (hold : ∀ c, fs.content handle.loc = some c → (c.length : ℤ) ≤ size)
    (h : fs.Extends w.fs) : fs.Extends (w.ftruncate handle size).2.fs := by
  rcases World.call_cases (w.record (.ftruncate handle.path)) (·.ftruncate handle size) with
    ⟨-, hfs⟩ | ⟨u, -, hop⟩
  · rw [show (w.ftruncate handle size).2.fs = w.fs from hfs]
    exact h
  · intro loc c hc
    obtain ⟨c', hc', hstart⟩ := h loc c hc
    change w.fs.ftruncate handle size = .ok (u, (w.ftruncate handle size).2.fs) at hop
    unfold FileSystem.ftruncate at hop
    split at hop
    · cases hop
    · rename_i content hcontent
      cases hset : w.fs.setContent handle.loc (resized content size) with
      | error e => simp [hset, Except.map] at hop
      | ok fs₁ =>
        simp only [hset, Except.map, Except.ok.injEq, Prod.mk.injEq] at hop
        rw [← hop.2, FileSystem.content_setContent hset]
        by_cases hloc : loc = handle.loc
        · subst hloc
          rw [hc'] at hcontent
          cases hcontent
          rw [if_pos rfl]
          have hsize := hold c hc
          refine ⟨_, rfl, (List.prefix_take_iff.2 ⟨hstart, ?_⟩).trans (List.prefix_append _ _)⟩
          omega
        · rw [if_neg hloc]
          exact ⟨c', hc', hstart⟩

/-- Resizing a file to no less than its old size keeps the old content at its beginning, however
often the file has been resized before. -/
theorem resizeFile_extends {fs : FileSystem} {w : World} {handle : Handle} {size : ℤ}
    (hold : ∀ c, fs.content handle.loc = some c → (c.length : ℤ) ≤ size)
    (h : fs.Extends w.fs) : fs.Extends (resizeFile w (some handle) size).2.fs := by
  unfold resizeFile
  simp only
  split_ifs
  · exact h
  · have hflush : w.attempt.2.fs = w.fs := World.fs_attempt
    split <;> rename_i h₁ <;> rw [h₁] at hflush
    · rwa [show _ = w.fs from hflush]
    · rename_i w₁
      have hextends : fs.Extends w₁.fs := by rwa [show w₁.fs = w.fs from hflush]
      have hcut := ftruncate_extends hold hextends
      split <;> rename_i h₂ <;> rw [h₂] at hcut
      · exact hcut
      · rename_i w₂
        have hseek : w₂.attempt.2.fs = w₂.fs := World.fs_attempt
        split <;> rename_i h₃ <;> rw [h₃] at hseek
        · rwa [show _ = w₂.fs from hseek]
        · rwa [show _ = w₂.fs from hseek]

/-- The third loop, on handles whose files were not longer than they are to become. -/
theorem resizeFiles_extends {fs : FileSystem} {files : List OutputFile}
    (hold : ∀ f ∈ files, ∀ handle, f.handle = some handle →
      ∀ c, fs.content handle.loc = some c → (c.length : ℤ) ≤ f.length) :
    ∀ {w : World}, fs.Extends w.fs → fs.Extends (resizeFiles files w).2.fs := by
  induction files with
  | nil => exact fun h => h
  | cons f files ih =>
    intro w h
    have hf : fs.Extends (resizeFile w f.handle f.length).2.fs := by
      cases hhandle : f.handle with
      | none => exact h
      | some handle => exact resizeFile_extends (hold f List.mem_cons_self handle hhandle) h
    rw [resizeFiles]
    split <;> rename_i h₁ <;> rw [h₁] at hf
    · exact hf
    · exact ih (fun g hg => hold g (List.mem_cons_of_mem f hg)) hf

/-! ### The whole of it -/

/-- What a call of `openOutputFiles` does to the files that were there before: they keep their
content as a beginning, and if a planned target is obstructed the call fails and changes none of
them. -/
structure Resumes (fs : FileSystem) (planned : List OutputFile)
    (result : (Bool × List OutputFile) × World) : Prop where
  keeps : fs.Extends result.2.fs
  refuses : (∃ f ∈ planned, Obstructed fs f) → result.1.1 = false ∧ fs.Unchanged result.2.fs

theorem openMultiFile_resumes (savePath : Bytes) (files : List FileEntry) (w : World) :
    Resumes w.fs (layout savePath files 0) (openMultiFile savePath false files w) := by
  obtain ⟨hplan, hfree⟩ := @planFiles_resume savePath files 0 w
  have hlayout := (@planFiles_spec (fun _ => True) savePath false files 0 w).2.2
  unfold openMultiFile
  split <;> rename_i h₁ <;> rw [h₁] at hplan hfree hlayout
  -- refused by the preflight: only directories have been made
  · exact ⟨hplan.unchanged.extends, fun _ => ⟨rfl, hplan.unchanged⟩⟩
  · rename_i planned w₁
    cases hlayout rfl
    have hclear : ¬ ∃ f ∈ layout savePath files 0, Obstructed w.fs f := by
      rintro ⟨f, hf, hobs⟩
      exact hfree rfl f hf hobs
    have hopen := hplan.trans (@openFiles_grows (layout savePath files 0) w₁)
    split <;> rename_i h₂ <;> rw [h₂] at hopen
    · exact ⟨hopen.unchanged.extends, fun h => absurd h hclear⟩
    · rename_i opens w₂
      obtain ⟨rfl, -⟩ := openFiles_some h₂
      have hresize := @resizeFiles_extends w.fs ((layout savePath files 0).map (opened w₁.fs)) (by
        intro g hg handle hhandle c hc
        obtain ⟨f, hf, rfl⟩ := List.mem_map.1 hg
        cases hhandle
        rw [hplan.target] at hc
        exact length_le_of_not_obstructed (hfree rfl f hf) hc) w₂ hopen.unchanged.extends
      split <;> rename_i h₃ <;> rw [h₃] at hresize
      · exact ⟨hresize, fun h => absurd h hclear⟩
      · exact ⟨hresize, fun h => absurd h hclear⟩

theorem openSingleFile_resumes (outputPath : Bytes) (total : ℤ) (w : World) :
    Resumes w.fs [{ path := outputPath, length := total }]
      (openSingleFile outputPath false total w) := by
  have hcheck := fs_preflight w outputPath total false
  unfold openSingleFile
  split <;> rename_i h₁ <;> rw [h₁] at hcheck
  · rename_i w₁
    have hfs : w.fs.Unchanged w₁.fs := by
      rw [show w₁.fs = w.fs from hcheck]
      exact fun loc c hc => hc
    exact ⟨hfs.extends, fun _ => ⟨rfl, hfs⟩⟩
  · rename_i w₁
    have hfs : w₁.fs = w.fs := hcheck
    have hopen := openOutputHandle_grows w₁ outputPath
    rw [hfs] at hopen
    split <;> rename_i h₂ <;> rw [h₂] at hopen
    -- an obstructed target that passed could not be walked to, and nothing is opened
    · exact ⟨hopen.unchanged.extends, fun _ => ⟨rfl, hopen.unchanged⟩⟩
    · rename_i handle w₂
      have hwalk := openOutputHandle_walks h₂
      rw [hfs] at hwalk
      have hclear : ¬ Obstructed w.fs { path := outputPath, length := total } :=
        not_obstructed_of_preflight hwalk (congrArg Prod.fst h₁)
      have hresize := @resizeFile_extends w.fs w₂ handle total (by
        intro c hc
        rw [(openOutputHandle_some h₂).1, hfs] at hc
        exact length_le_of_not_obstructed hclear hc) hopen.unchanged.extends
      have hnone : ¬ ∃ f ∈ [({ path := outputPath, length := total } : OutputFile)],
          Obstructed w.fs f := by
        rintro ⟨f, hf, hobs⟩
        rw [List.mem_singleton.1 hf] at hobs
        exact hclear hobs
      split <;> rename_i h₃ <;> rw [h₃] at hresize
      · exact ⟨hresize, fun h => absurd h hnone⟩
      · exact ⟨hresize, fun h => absurd h hnone⟩

/-- **Resuming loses nothing**: without `--overwrite`, whatever fails on the way, the old content
of every file is the beginning of its new content; and if a target exists that is not a regular
file or is longer than declared, `openOutputFiles` fails and no file has changed. -/
theorem resume_preserves {torrent : TorrentInfo} (h : validateTorrentInfo torrent = .ok ())
    (savePath : Bytes) (w : World) :
    w.fs.Extends (openOutputFiles torrent savePath false w).2.fs ∧
    ((∃ f ∈ plan torrent savePath, Obstructed w.fs f) →
      (openOutputFiles torrent savePath false w).1.1 = false ∧
        w.fs.Unchanged (openOutputFiles torrent savePath false w).2.fs) := by
  have haccepted : torrent.Accepted := h
  have hresumes : Resumes w.fs (plan torrent savePath)
      (openOutputFiles torrent savePath false w) := by
    rw [openOutputFiles, if_neg (not_lt.2 haccepted.totalLength_nonneg), plan]
    split_ifs
    · exact openMultiFile_resumes savePath torrent.files w
    · exact openSingleFile_resumes (singlePath torrent savePath) torrent.totalLength w
  exact ⟨hresumes.keeps, hresumes.refuses⟩

/-- A file of the user, in the directory `d`. -/
def userFile : FileSystem :=
  oneDirectory.put (ascii "f") [ascii "d"] (.regular [1, 2, 3]) (by decide) (by decide)

/-- A torrent of one file `f` with pieces of one byte. -/
def fileTorrent (length : ℕ) : TorrentInfo where
  name := ascii "f"
  pieceLength := 1
  pieces := List.replicate (length * 20) 0
  fileName := ascii "f"
  fileLength := .ofNat length

/-- Where the torrent declares 5 bytes, the 3 that are there stay and 2 follow; where it declares 2,
nothing is opened and the file stays as it is. -/
theorem resume_preserves_userFile :
    let opened := fun length => openOutputFiles (fileTorrent length) (ascii "d") false { fs := userFile }
    ((opened 5).1.1 = true ∧ userFile.Extends (opened 5).2.fs ∧
      (opened 5).2.fs.content [ascii "f", ascii "d"] = some [1, 2, 3, 0, 0]) ∧
    (opened 2).1.1 = false ∧ userFile.Unchanged (opened 2).2.fs := by
  have hlong : Obstructed userFile
      { path := singlePath (fileTorrent 2) (ascii "d"), length := (fileTorrent 2).totalLength } := by
    refine ⟨.regular [1, 2, 3], by decide +kernel, fun content hcontent => ?_⟩
    rw [← Node.regular.inj hcontent]
    decide +kernel
  exact ⟨⟨by decide +kernel, (resume_preserves (by decide +kernel) (ascii "d") { fs := userFile }).1,
    by decide +kernel⟩, (resume_preserves (by decide +kernel) (ascii "d") { fs := userFile }).2
      ⟨_, List.mem_singleton_self _, hlong⟩⟩

end Downloader

end Gush
