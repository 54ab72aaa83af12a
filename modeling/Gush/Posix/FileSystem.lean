import Gush.Cxx

/-!
# A POSIX file system

The calls that the program makes: `stat`, `mkdir`, `fopen`, `ftruncate`, `fseeko`, `fread` and
`fwrite`, on a tree of directories and regular files that nobody else changes. Paths hold no NUL
byte: they are made of a command-line argument and of sanitized names.

A `World` is a file system together with the failures that the next calls meet and a record of the
paths that were opened or resized.
-/

namespace Gush.Posix

open Cxx

/-- A place in the tree: the names from the innermost directory up to the root. -/
abbrev Loc := List Bytes

inductive Node where
  | directory
  | regular (content : Bytes)
  deriving DecidableEq

inductive Errno where
  | noent
  | notdir
  | exist
  | isdir
  /-- Anything else: a full disk, missing permissions, too many open files. -/
  | other
  deriving DecidableEq

/-- The tree. Everything but the root lies in a directory. -/
structure FileSystem where
  node : Loc → Option Node
  /-- The working directory. -/
  cwd : Loc
  root_dir : node [] = some .directory
  parent_dir : ∀ name dir, node (name :: dir) ≠ none → node dir = some .directory

namespace FileSystem

/-- The tree with one more entry, or with another content of a regular file. -/
def put (fs : FileSystem) (name : Bytes) (dir : Loc) (node : Node)
    (hdir : fs.node dir = some .directory) (hleaf : fs.node (name :: dir) ≠ some .directory) :
    FileSystem where
  node := Function.update fs.node (name :: dir) (some node)
  cwd := fs.cwd
  root_dir := by
    rw [Function.update_of_ne (List.cons_ne_nil name dir).symm]
    exact fs.root_dir
  parent_dir := by
    intro name' dir' h
    have hparent : fs.node dir' = some .directory := by
      by_cases heq : name' :: dir' = name :: dir
      · rw [(List.cons.inj heq).2]
        exact hdir
      · rw [Function.update_of_ne heq] at h
        exact fs.parent_dir name' dir' h
    have hne : dir' ≠ name :: dir := by
      rintro rfl
      exact hleaf hparent
    rw [Function.update_of_ne hne]
    exact hparent

/-- The steps through the components of a path, each of which must start in a directory. -/
def walk (fs : FileSystem) : Loc → List Bytes → Except Errno Loc
  | loc, [] => .ok loc
  | loc, comp :: comps =>
    match fs.node loc with
    | none => .error .noent
    | some (.regular _) => .error .notdir
    | some .directory =>
      if comp = [] ∨ comp = ascii "." then fs.walk loc comps
      else if comp = ascii ".." then fs.walk loc.tail comps
      else fs.walk (comp :: loc) comps

/-- Where the walk of a path starts. -/
def origin (fs : FileSystem) (path : Bytes) : Loc :=
  if path.head? = some '/'.toUInt8 then [] else fs.cwd

/-- The place a path leads to, whether or not there is anything. -/
def resolve (fs : FileSystem) (path : Bytes) : Except Errno Loc :=
  if path = [] then .error .noent else fs.walk (fs.origin path) (path.splitOn '/'.toUInt8)

/-- The content of a regular file. -/
def content (fs : FileSystem) (loc : Loc) : Option Bytes :=
  match fs.node loc with
  | some (.regular content) => some content
  | _ => none

/-- Gives a file a new content, creating it if it is missing. -/
def setContent (fs : FileSystem) (loc : Loc) (content : Bytes) : Except Errno FileSystem :=
  match loc with
  | [] => .error .isdir
  | name :: dir =>
    if hdir : fs.node dir = some .directory then
      if hleaf : fs.node (name :: dir) ≠ some .directory then
        .ok (fs.put name dir (.regular content) hdir hleaf)
      else .error .isdir
    else .error .noent

/-- Makes a directory where there is nothing. -/
def addDirectory (fs : FileSystem) (loc : Loc) : Except Errno FileSystem :=
  match loc with
  | [] => .error .exist
  | name :: dir =>
    if hdir : fs.node dir = some .directory then
      if hleaf : fs.node (name :: dir) = none then
        .ok (fs.put name dir .directory hdir (by simp [hleaf]))
      else .error .exist
    else .error .noent

/-! ### What changes -/

theorem setContent_ok {fs fs' : FileSystem} {loc : Loc} {c : Bytes}
    (h : fs.setContent loc c = .ok fs') :
    fs'.cwd = fs.cwd ∧ fs.node loc ≠ some .directory ∧
      fs'.node = Function.update fs.node loc (some (.regular c)) := by
  cases loc with
  | nil => simp [setContent] at h
  | cons name dir =>
    rw [setContent] at h
    split_ifs at h with hdir hleaf
    cases h
    exact ⟨rfl, hleaf, rfl⟩

theorem addDirectory_ok {fs fs' : FileSystem} {loc : Loc} (h : fs.addDirectory loc = .ok fs') :
    fs'.cwd = fs.cwd ∧ fs.node loc = none ∧
      fs'.node = Function.update fs.node loc (some .directory) := by
  cases loc with
  | nil => simp [addDirectory] at h
  | cons name dir =>
    rw [addDirectory] at h
    split_ifs at h with hdir hleaf
    cases h
    exact ⟨rfl, hleaf, rfl⟩

theorem content_eq_some_iff {fs : FileSystem} {loc : Loc} {c : Bytes} :
    fs.content loc = some c ↔ fs.node loc = some (.regular c) := by
  unfold content
  split <;> simp_all

/-- An existing file can always be given a new content. -/
theorem setContent_of_content {fs : FileSystem} {loc : Loc} {c : Bytes}
    (h : fs.content loc = some c) (c' : Bytes) : ∃ fs', fs.setContent loc c' = .ok fs' := by
  have hnode := content_eq_some_iff.1 h
  cases loc with
  | nil =>
    rw [fs.root_dir] at hnode
    cases hnode
  | cons name dir =>
    have hdir : fs.node dir = some .directory := fs.parent_dir name dir (by simp [hnode])
    have hleaf : fs.node (name :: dir) ≠ some .directory := by simp [hnode]
    exact ⟨_, by rw [setContent, dif_pos hdir, dif_pos hleaf]⟩

theorem content_setContent {fs fs' : FileSystem} {loc : Loc} {c : Bytes}
    (h : fs.setContent loc c = .ok fs') (l : Loc) :
    fs'.content l = if l = loc then some c else fs.content l := by
  obtain ⟨-, -, hnode⟩ := setContent_ok h
  unfold content
  rw [hnode]
  by_cases hl : l = loc
  · rw [if_pos hl, hl, Function.update_self]
  · rw [if_neg hl, Function.update_of_ne hl]

/-! ### Paths -/

/-- The place a walk leads to if nothing stops it. -/
def lexical : Loc → List Bytes → Loc
  | loc, [] => loc
  | loc, comp :: comps =>
    if comp = [] ∨ comp = ascii "." then lexical loc comps
    else if comp = ascii ".." then lexical loc.tail comps
    else lexical (comp :: loc) comps

theorem lexical_of_walk {fs : FileSystem} {comps : List Bytes} : ∀ {loc l : Loc},
    fs.walk loc comps = .ok l → l = lexical loc comps := by
  induction comps with
  | nil =>
    intro loc l h
    cases h
    rfl
  | cons comp comps ih =>
    intro loc l h
    rw [walk] at h
    split at h
    · cases h
    · cases h
    · rw [lexical]
      split_ifs at h ⊢ with h₁ h₂
      · exact ih h
      · exact ih h
      · exact ih h

theorem lexical_append (loc : Loc) (comps comps' : List Bytes) :
    lexical loc (comps ++ comps') = lexical (lexical loc comps) comps' := by
  induction comps generalizing loc with
  | nil => rfl
  | cons comp comps ih =>
    rw [List.cons_append, lexical, lexical]
    split_ifs <;> exact ih _

/-- Names that are neither empty nor dots are simply appended. -/
theorem lexical_of_names {comps : List Bytes}
    (h : ∀ c ∈ comps, c ≠ [] ∧ c ≠ ascii "." ∧ c ≠ ascii "..") (loc : Loc) :
    lexical loc comps = comps.reverse ++ loc := by
  induction comps generalizing loc with
  | nil => rfl
  | cons comp comps ih =>
    obtain ⟨h₀, h₁, h₂⟩ := h comp List.mem_cons_self
    rw [lexical, if_neg (not_or.2 ⟨h₀, h₁⟩), if_neg h₂,
      ih (fun c hc => h c (List.mem_cons_of_mem comp hc))]
    simp

/-- A walk that ends in `.` or `..` ends in a directory. -/
theorem node_of_walk_dots {fs : FileSystem} {dots : Bytes} (hd : dots = ascii "." ∨ dots = ascii "..")
    (comps : List Bytes) : ∀ {loc l : Loc}, fs.walk loc (comps ++ [dots]) = .ok l →
      fs.node l = some .directory := by
  induction comps with
  | nil =>
    intro loc l h
    rw [List.nil_append, walk] at h
    split at h
    · cases h
    · cases h
    · rename_i hloc
      split_ifs at h with h₁ h₂
      · cases h
        exact hloc
      · cases h
        cases loc with
        | nil => exact fs.root_dir
        | cons name dir => exact fs.parent_dir name dir (by simp [hloc])
      · tauto
  | cons comp comps ih =>
    intro loc l h
    rw [List.cons_append, walk] at h
    split at h
    · cases h
    · cases h
    · split_ifs at h
      · exact ih h
      · exact ih h
      · exact ih h

end FileSystem

/-! ### Calls -/

/-- A stream, as `fopen` returns it. -/
structure Handle where
  path : Bytes
  loc : Loc
  deriving DecidableEq

/-- The two ways in which the program opens files. -/
inductive Mode where
  /-- `"r+b"` -/
  | update
  /-- `"w+b"` -/
  | truncate
  deriving DecidableEq

/-- The content cut or filled up with zeros to a size. -/
def resized (content : Bytes) (size : ℤ) : Bytes :=
  content.take size.toNat ++ List.replicate (size.toNat - content.length) 0

@[simp] theorem length_resized {content : Bytes} {size : ℤ} :
    (resized content size).length = size.toNat := by
  simp [resized]
  omega

namespace FileSystem

def stat (fs : FileSystem) (path : Bytes) : Except Errno (Node × FileSystem) :=
  match fs.resolve path with
  | .error e => .error e
  | .ok loc =>
    match fs.node loc with
    | none => .error .noent
    | some node => .ok (node, fs)

def mkdir (fs : FileSystem) (path : Bytes) : Except Errno (Unit × FileSystem) :=
  match fs.resolve path with
  | .error e => .error e
  | .ok loc => (fs.addDirectory loc).map fun fs => ((), fs)

def fopen (fs : FileSystem) (path : Bytes) (mode : Mode) : Except Errno (Handle × FileSystem) :=
  match fs.resolve path with
  | .error e => .error e
  | .ok loc =>
    match mode with
    | .update =>
      match fs.node loc with
      | none => .error .noent
      | some .directory => .error .isdir
      | some (.regular _) => .ok (⟨path, loc⟩, fs)
    | .truncate => (fs.setContent loc []).map fun fs => (⟨path, loc⟩, fs)

def ftruncate (fs : FileSystem) (handle : Handle) (size : ℤ) : Except Errno (Unit × FileSystem) :=
  match fs.content handle.loc with
  | none => .error .other
  | some content => (fs.setContent handle.loc (resized content size)).map fun fs => ((), fs)

end FileSystem

/-- What becomes of a call: `none` if the system lets it succeed, `some k` if it fails, a read or
a write after `k` bytes. -/
abbrev Fault := Option ℕ

/-- The calls that are recorded. -/
inductive Call where
  | fopen (path : Bytes)
  | ftruncate (path : Bytes)
  deriving DecidableEq

def Call.path : Call → Bytes
  | .fopen path => path
  | .ftruncate path => path

structure World where
  fs : FileSystem
  faults : List Fault := []
  calls : List Call := []

namespace World

/-- The fate of the next call. -/
def fault (w : World) : Fault := w.faults.headD none

def pop (w : World) : World := { w with faults := w.faults.tail }

def record (w : World) (call : Call) : World := { w with calls := w.calls ++ [call] }

/-- A call that may fail for a reason of its own or because the system refuses it. -/
def call {α : Type} (w : World) (op : FileSystem → Except Errno (α × FileSystem)) :
    Except Errno α × World :=
  match w.fault with
  | some _ => (.error .other, w.pop)
  | none =>
    match op w.fs with
    | .error e => (.error e, w.pop)
    | .ok (a, fs) => (.ok a, { w.pop with fs })

def stat (w : World) (path : Bytes) : Except Errno Node × World := w.call (·.stat path)

def mkdir (w : World) (path : Bytes) : Except Errno Unit × World := w.call (·.mkdir path)

def fopen (w : World) (path : Bytes) (mode : Mode) : Except Errno Handle × World :=
  (w.record (.fopen path)).call (·.fopen path mode)

def ftruncate (w : World) (handle : Handle) (size : ℤ) : Except Errno Unit × World :=
  (w.record (.ftruncate handle.path)).call (·.ftruncate handle size)

/-- `fflush` on a stream that was not written to, and `fseeko`. -/
def attempt (w : World) : Except Errno Unit × World := w.call fun fs => .ok ((), fs)

/-- The content with some bytes put in at a position; a gap before them is filled with zeros. -/
def overwritten (content : Bytes) (pos : ℕ) (data : Bytes) : Bytes :=
  content.take pos ++ List.replicate (pos - content.length) 0 ++ data ++
    content.drop (pos + data.length)

/-- The number of bytes that a read or a write of `n` bytes moves. -/
def moved (w : World) (n : ℕ) : ℕ :=
  match w.fault with
  | none => n
  | some k => min k n

/-- `fwrite` at the position that `fseeko` has set, with the number of bytes written. -/
def fwrite (w : World) (handle : Handle) (pos : ℕ) (data : Bytes) : ℕ × World :=
  match w.fs.content handle.loc with
  | none => (0, w.pop)
  | some content =>
    let count := w.moved data.length
    match w.fs.setContent handle.loc (overwritten content pos (data.take count)) with
    | .error _ => (0, w.pop)
    | .ok fs => (count, { w.pop with fs })

/-- `fread` of `n` bytes at the position that `fseeko` has set. -/
def fread (w : World) (handle : Handle) (pos n : ℕ) : Bytes × World :=
  match w.fs.content handle.loc with
  | none => ([], w.pop)
  | some content => ((content.drop pos).take (w.moved n), w.pop)

end World

/-! ### What the calls leave alone -/

/-- No file disappears and the working directory stays. -/
structure FileSystem.Keeps (fs fs' : FileSystem) : Prop where
  cwd : fs'.cwd = fs.cwd
  content : ∀ loc, (fs.content loc).isSome → (fs'.content loc).isSome

namespace FileSystem

@[refl] theorem Keeps.refl (fs : FileSystem) : fs.Keeps fs := ⟨rfl, fun _ h => h⟩

theorem Keeps.trans {fs fs' fs'' : FileSystem} (h : fs.Keeps fs') (h' : fs'.Keeps fs'') :
    fs.Keeps fs'' :=
  ⟨h'.cwd.trans h.cwd, fun loc hloc => h'.content loc (h.content loc hloc)⟩

theorem keeps_setContent {fs fs' : FileSystem} {loc : Loc} {c : Bytes}
    (h : fs.setContent loc c = .ok fs') : fs.Keeps fs' := by
  refine ⟨(setContent_ok h).1, fun l hl => ?_⟩
  rw [content_setContent h]
  split_ifs
  · rfl
  · exact hl

theorem keeps_addDirectory {fs fs' : FileSystem} {loc : Loc} (h : fs.addDirectory loc = .ok fs') :
    fs.Keeps fs' := by
  obtain ⟨hcwd, hnone, hnode⟩ := addDirectory_ok h
  refine ⟨hcwd, fun l hl => ?_⟩
  have hne : l ≠ loc := by
    rintro rfl
    simp [content, hnone] at hl
  unfold content
  rw [hnode, Function.update_of_ne hne]
  exact hl

/-- The place of a path. -/
def target (fs : FileSystem) (path : Bytes) : Loc :=
  lexical (fs.origin path) (path.splitOn '/'.toUInt8)

theorem target_of_resolve {fs : FileSystem} {path : Bytes} {loc : Loc}
    (h : fs.resolve path = .ok loc) : loc = fs.target path := by
  unfold resolve at h
  split_ifs at h
  exact lexical_of_walk h

theorem Keeps.target {fs fs' : FileSystem} (h : fs.Keeps fs') (path : Bytes) :
    fs'.target path = fs.target path := by
  simp only [FileSystem.target, origin, h.cwd]

theorem keeps_stat {fs fs' : FileSystem} {path : Bytes} {node : Node}
    (h : fs.stat path = .ok (node, fs')) : fs' = fs := by
  unfold stat at h
  split at h
  · cases h
  · split at h
    · cases h
    · cases h
      rfl

theorem keeps_mkdir {fs fs' : FileSystem} {path : Bytes} (h : fs.mkdir path = .ok ((), fs')) :
    fs.Keeps fs' := by
  unfold mkdir at h
  split at h
  · cases h
  · rename_i loc _
    cases hadd : fs.addDirectory loc with
    | error e =>
      rw [hadd] at h
      cases h
    | ok fs₁ =>
      rw [hadd] at h
      cases h
      exact keeps_addDirectory hadd

/-- An opened stream stands for the file at the place of its path. -/
theorem fopen_ok {fs fs' : FileSystem} {path : Bytes} {mode : Mode} {handle : Handle}
    (h : fs.fopen path mode = .ok (handle, fs')) :
    fs.Keeps fs' ∧ handle = ⟨path, fs.target path⟩ ∧ (fs'.content handle.loc).isSome := by
  unfold fopen at h
  split at h
  · cases h
  · rename_i loc hloc
    cases target_of_resolve hloc
    split at h
    · split at h
      · cases h
      · cases h
      · rename_i c hnode
        cases h
        exact ⟨Keeps.refl fs, rfl, by simp [content, hnode]⟩
    · cases hset : fs.setContent (fs.target path) [] with
      | error e =>
        rw [hset] at h
        cases h
      | ok fs₁ =>
        rw [hset] at h
        cases h
        exact ⟨keeps_setContent hset, rfl, by simp [content_setContent hset]⟩

theorem ftruncate_ok {fs fs' : FileSystem} {handle : Handle} {size : ℤ}
    (h : fs.ftruncate handle size = .ok ((), fs')) :
    fs.Keeps fs' ∧ (∀ loc, loc ≠ handle.loc → fs'.content loc = fs.content loc) ∧
      ∃ c, fs'.content handle.loc = some c ∧ c.length = size.toNat := by
  unfold ftruncate at h
  split at h
  · cases h
  · rename_i c _
    cases hset : fs.setContent handle.loc (resized c size) with
    | error e =>
      rw [hset] at h
      cases h
    | ok fs₁ =>
      rw [hset] at h
      cases h
      refine ⟨keeps_setContent hset, fun loc hloc => ?_, resized c size, ?_, length_resized⟩
      · rw [content_setContent hset, if_neg hloc]
      · rw [content_setContent hset, if_pos rfl]

/-- A path that ends in a component `.` or `..` cannot be opened. -/
theorem fopen_dots {fs : FileSystem} {path dots : Bytes} (hd : dots = ascii "." ∨ dots = ascii "..")
    (mode : Mode) : ∃ e, fs.fopen (path ++ '/'.toUInt8 :: dots) mode = .error e := by
  unfold fopen
  cases hres : fs.resolve (path ++ '/'.toUInt8 :: dots) with
  | error e => exact ⟨e, rfl⟩
  | ok loc =>
    have hnode : fs.node loc = some .directory := by
      unfold resolve at hres
      split_ifs at hres
      have hslash : '/'.toUInt8 ∉ dots := by
        rcases hd with rfl | rfl <;> decide
      rw [List.splitOn_append_cons_self, List.splitOn_eq_singleton hslash] at hres
      exact node_of_walk_dots hd _ hres
    cases mode with
    | update => exact ⟨.isdir, by simp [hnode]⟩
    | truncate =>
      have herr : ∃ e, fs.setContent loc [] = .error e := by
        cases hset : fs.setContent loc [] with
        | error e => exact ⟨e, rfl⟩
        | ok fs' => exact absurd hnode (setContent_ok hset).2.1
      obtain ⟨e, he⟩ := herr
      exact ⟨e, by simp [he, Except.map]⟩

end FileSystem

namespace World

variable {w : World}

section

variable {α : Type} {op : FileSystem → Except Errno (α × FileSystem)}

@[simp] theorem calls_call : (w.call op).2.calls = w.calls := by
  unfold call
  split
  · rfl
  · split <;> rfl

/-- A call either fails and changes nothing, or it does what the operation does. -/
theorem call_cases (w : World) (op : FileSystem → Except Errno (α × FileSystem)) :
    ((∃ e, (w.call op).1 = .error e) ∧ (w.call op).2.fs = w.fs) ∨
      ∃ a, (w.call op).1 = .ok a ∧ op w.fs = .ok (a, (w.call op).2.fs) := by
  unfold call
  split
  · exact .inl ⟨⟨_, rfl⟩, rfl⟩
  · split
    · exact .inl ⟨⟨_, rfl⟩, rfl⟩
    · rename_i a fs h
      exact .inr ⟨a, rfl, h⟩

theorem call_keeps (h : ∀ a fs', op w.fs = .ok (a, fs') → w.fs.Keeps fs') :
    w.fs.Keeps (w.call op).2.fs := by
  rcases call_cases w op with ⟨-, hfs⟩ | ⟨a, -, hop⟩
  · rw [hfs]
  · exact h a _ hop

theorem call_ok {a : α} (h : (w.call op).1 = .ok a) : op w.fs = .ok (a, (w.call op).2.fs) := by
  rcases call_cases w op with ⟨⟨e, he⟩, -⟩ | ⟨b, hb, hop⟩
  · rw [he] at h
    cases h
  · rw [hb] at h
    cases h
    exact hop

end

/-- On the way from one world to another, files were kept and all recorded paths satisfy `P`. -/
structure Leads (P : Bytes → Prop) (w w' : World) : Prop where
  calls : ∃ new, w'.calls = w.calls ++ new ∧ ∀ call ∈ new, P call.path
  keeps : w.fs.Keeps w'.fs

theorem Leads.refl {P : Bytes → Prop} (w : World) : Leads P w w :=
  ⟨⟨[], by simp, by simp⟩, .refl _⟩

theorem Leads.trans {P : Bytes → Prop} {w w' w'' : World} (h : Leads P w w')
    (h' : Leads P w' w'') : Leads P w w'' := by
  obtain ⟨new, hnew, hP⟩ := h.calls
  obtain ⟨new', hnew', hP'⟩ := h'.calls
  refine ⟨⟨new ++ new', by rw [hnew', hnew, List.append_assoc], ?_⟩, h.keeps.trans h'.keeps⟩
  intro call hcall
  rcases List.mem_append.1 hcall with hcall | hcall
  · exact hP call hcall
  · exact hP' call hcall

theorem Leads.mono {P Q : Bytes → Prop} {w w' : World} (hPQ : ∀ path, P path → Q path)
    (h : Leads P w w') : Leads Q w w' := by
  obtain ⟨new, hnew, hP⟩ := h.calls
  exact ⟨⟨new, hnew, fun call hcall => hPQ _ (hP call hcall)⟩, h.keeps⟩

variable {P : Bytes → Prop}

theorem fs_stat {path : Bytes} : (w.stat path).2.fs = w.fs := by
  rcases call_cases w (·.stat path) with ⟨-, hfs⟩ | ⟨node, -, hop⟩
  · exact hfs
  · exact FileSystem.keeps_stat hop

theorem fs_attempt : w.attempt.2.fs = w.fs := by
  rcases call_cases w fun fs => .ok ((), fs) with ⟨-, hfs⟩ | ⟨a, -, hop⟩
  · exact hfs
  · exact (congrArg Prod.snd (Except.ok.inj hop)).symm

theorem stat_leads {path : Bytes} : Leads P w (w.stat path).2 :=
  ⟨⟨[], by simp [stat], by simp⟩, by rw [fs_stat]⟩

theorem attempt_leads : Leads P w w.attempt.2 :=
  ⟨⟨[], by simp [attempt], by simp⟩, by rw [fs_attempt]⟩

theorem mkdir_leads {path : Bytes} : Leads P w (w.mkdir path).2 :=
  ⟨⟨[], by simp [mkdir], by simp⟩, call_keeps fun _ _ h => FileSystem.keeps_mkdir h⟩

theorem fopen_leads {path : Bytes} {mode : Mode} (h : P path) : Leads P w (w.fopen path mode).2 :=
  ⟨⟨[.fopen path], calls_call, by simpa [Call.path] using h⟩,
    call_keeps (w := w.record (.fopen path)) fun _ _ h => (FileSystem.fopen_ok h).1⟩

theorem ftruncate_leads {handle : Handle} {size : ℤ} (h : P handle.path) :
    Leads P w (w.ftruncate handle size).2 :=
  ⟨⟨[.ftruncate handle.path], calls_call, by simpa [Call.path] using h⟩,
    call_keeps (w := w.record (.ftruncate handle.path)) fun _ _ h => (FileSystem.ftruncate_ok h).1⟩

theorem fopen_ok {path : Bytes} {mode : Mode} {handle : Handle}
    (h : (w.fopen path mode).1 = .ok handle) :
    handle = ⟨path, w.fs.target path⟩ ∧ ((w.fopen path mode).2.fs.content handle.loc).isSome :=
  (FileSystem.fopen_ok (call_ok (w := w.record (.fopen path)) h)).2

theorem ftruncate_ok {handle : Handle} {size : ℤ} (h : (w.ftruncate handle size).1 = .ok ()) :
    (∀ loc, loc ≠ handle.loc → (w.ftruncate handle size).2.fs.content loc = w.fs.content loc) ∧
      ∃ c, (w.ftruncate handle size).2.fs.content handle.loc = some c ∧ c.length = size.toNat :=
  (FileSystem.ftruncate_ok (call_ok (w := w.record (.ftruncate handle.path)) h)).2

/-- A path that ends in a component `.` or `..` cannot be opened. -/
theorem fopen_dots {path dots : Bytes} (hd : dots = ascii "." ∨ dots = ascii "..") (mode : Mode) :
    ∃ e, (w.fopen (path ++ '/'.toUInt8 :: dots) mode).1 = .error e := by
  cases hopen : (w.fopen (path ++ '/'.toUInt8 :: dots) mode).1 with
  | error e => exact ⟨e, rfl⟩
  | ok handle =>
    have hok : w.fs.fopen (path ++ '/'.toUInt8 :: dots) mode = .ok (handle, _) :=
      call_ok (w := w.record (.fopen (path ++ '/'.toUInt8 :: dots))) hopen
    obtain ⟨e, he⟩ : ∃ e, w.fs.fopen (path ++ '/'.toUInt8 :: dots) mode = .error e :=
      FileSystem.fopen_dots hd mode
    rw [he] at hok
    cases hok

end World

end Gush.Posix
