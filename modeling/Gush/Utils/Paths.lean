import Gush.Lib.Split
import Gush.Utils.Sanitize

/-!
# The paths that `sanitizePath` returns

`sanitizePath_eq_pathLoop` is the loop of the source with its index. The results are the paths that
stay below a directory, `SafePath`, and they are the fixed points of the function.
-/

namespace Gush.Utils

open Cxx

variable {path : Bytes}

/-! ### The loop -/

/-- The loop of `sanitizePath`: the components are cut off at the next slash, from an index on. -/
def pathLoop (path : Bytes) (pos : ℕ) (state : Bytes × Bool) : Bytes × Bool :=
  if pos ≤ path.length then
    match _hslash : find path '/'.toUInt8 pos with
    | none => appendComponent state (path.drop pos)
    | some slash => pathLoop path (slash + 1) (appendComponent state (substr path pos (slash - pos)))
  else state
termination_by path.length + 1 - pos
decreasing_by
  have hbounds := find_bounds _hslash
  omega

/-- From an index on, the loop goes through the components of the rest. -/
theorem pathLoop_eq {rest : Bytes} : ∀ {pos : ℕ} {state : Bytes × Bool}, path.drop pos = rest →
    pos ≤ path.length →
      pathLoop path pos state = (rest.splitOn '/'.toUInt8).foldl appendComponent state := by
  induction rest using Split.split_induction (a := '/'.toUInt8) with
  | last rest hrest =>
    intro pos state hdrop hpos
    have hnone := find_eq_none (hdrop.symm ▸ hrest)
    rw [List.splitOn_eq_singleton hrest, pathLoop, if_pos hpos]
    split
    · rw [hdrop]
      rfl
    · rename_i slash hsome
      rw [hnone] at hsome
      cases hsome
  | cons comp rest hcomp ih =>
    intro pos state hdrop hpos
    have hfind := find_of_drop hdrop hcomp
    have hrest : path.drop (pos + comp.length + 1) = rest := by
      rw [← List.drop_drop, drop_of_drop hdrop, List.drop_one, List.tail_cons]
    have hbounds := find_bounds hfind
    rw [List.splitOn_append_cons_self_of_not_mem hcomp, List.foldl_cons, pathLoop, if_pos hpos]
    split
    · rename_i hnone
      rw [hfind] at hnone
      cases hnone
    · rename_i slash hsome
      rw [hfind] at hsome
      cases hsome
      rw [Nat.add_sub_cancel_left, substr_of_drop hdrop]
      exact ih hrest hbounds.2

/-- `sanitizePath` with the loop of the source. -/
theorem sanitizePath_eq_pathLoop (path : Bytes) : sanitizePath path =
    let result := (pathLoop path 0 ([], true)).1
    if result = [] then ascii "_" else result := by
  rw [sanitizePath, pathLoop_eq List.drop_zero (Nat.zero_le _)]

/-! ### Safe paths -/

/-- A path that stays below the directory it is put in. -/
structure SafePath (p : Bytes) : Prop where
  ne_nil : p ≠ []
  head : p.head? ≠ some '/'.toUInt8
  last : p.getLast? ≠ some '/'.toUInt8
  components : ∀ c ∈ p.splitOn '/'.toUInt8, c ≠ [] ∧ c ≠ ascii "." ∧ c ≠ ascii ".."
  bytes : ∀ b ∈ p, b ≠ '\\'.toUInt8 ∧ b ≠ 0 ∧ ¬ b < 0x20

/-- A path is safe if its components are. -/
theorem safePath_iff {p : Bytes} :
    SafePath p ↔ ∀ c ∈ p.splitOn '/'.toUInt8, SafeComponent c := by
  constructor
  · intro h c hc
    obtain ⟨hne, hdot, hdotdot⟩ := h.components c hc
    have hbytes := fun b (hb : b ∈ c) => h.bytes b (Split.mem_of_mem_part hc hb)
    exact {
      ne_nil := hne
      ne_dot := hdot
      ne_dotdot := hdotdot
      no_slash := Split.not_mem_of_mem_splitOn hc
      no_backslash := fun hb => (hbytes _ hb).1 rfl
      no_control := fun b hb => (hbytes b hb).2.2 }
  · intro h
    have hempty : [] ∉ p.splitOn '/'.toUInt8 := fun hnil => (h [] hnil).ne_nil rfl
    refine ⟨?_, ?_, ?_, fun c hc => ⟨(h c hc).ne_nil, (h c hc).ne_dot, (h c hc).ne_dotdot⟩, ?_⟩
    · rintro rfl
      exact hempty (by simp)
    · intro hhead
      obtain ⟨t, rfl⟩ := List.head?_eq_some_iff.1 hhead
      refine hempty ?_
      have hcut := List.splitOn_append_cons_self (a := '/'.toUInt8) [] t
      rw [List.nil_append] at hcut
      simp [hcut]
    · intro hlast
      obtain ⟨t, rfl⟩ := List.getLast?_eq_some_iff.1 hlast
      refine hempty ?_
      rw [List.splitOn_append_cons_self]
      simp
    · intro b hb
      by_cases hslash : b = '/'.toUInt8
      · rw [hslash]
        decide
      · obtain ⟨c, hc, hb⟩ := Split.exists_part_of_mem hb hslash
        have hcontrol := (h c hc).no_control b hb
        refine ⟨fun hback => (h c hc).no_backslash (hback ▸ hb), ?_, hcontrol⟩
        rintro rfl
        exact hcontrol (by decide)

/-- The components of the result are the ones that were kept. -/
theorem splitOn_sanitizePath (path : Bytes) :
    (sanitizePath path).splitOn '/'.toUInt8 = pathComponents path := by
  have hslash : ∀ c ∈ pathComponents path, '/'.toUInt8 ∉ c :=
    fun c hc => (safeComponent_of_mem_pathComponents hc).no_slash
  have hcut := congrArg (List.splitOn '/'.toUInt8) (under_pathComponents [] path)
  rw [splitOn_under hslash, List.splitOn_append_cons_self] at hcut
  exact List.append_cancel_left hcut

theorem safePath_sanitizePath (path : Bytes) : SafePath (sanitizePath path) := by
  rw [safePath_iff, splitOn_sanitizePath]
  exact fun c hc => safeComponent_of_mem_pathComponents hc

/-- A safe name is kept as it is. -/
theorem sanitizeFileName_eq_self {c : Bytes} (h : SafeComponent c) : sanitizeFileName c = c := by
  have hid : c.map id = c := List.map_id c
  rw [← hid, sanitizeFileName, List.map_map]
  apply List.map_congr_left
  intro b hb
  have hslash : b ≠ '/'.toUInt8 := fun heq => h.no_slash (heq ▸ hb)
  have hback : b ≠ '\\'.toUInt8 := fun heq => h.no_backslash (heq ▸ hb)
  have hcontrol := h.no_control b hb
  have hzero : b ≠ 0 := by
    rintro rfl
    exact hcontrol (by decide)
  have hsafe : isUnsafe b = false := by
    simp [isUnsafe, hslash, hback, hzero, hcontrol]
  simp [hsafe]

theorem keptComponents_eq_self {comps : List Bytes} (h : ∀ c ∈ comps, SafeComponent c) :
    keptComponents comps = comps := by
  have hmap : comps.map sanitizeFileName = comps.map id :=
    List.map_congr_left fun c hc => sanitizeFileName_eq_self (h c hc)
  rw [List.map_id] at hmap
  rw [keptComponents, hmap, List.filter_eq_self]
  exact fun c hc => decide_eq_true ⟨(h c hc).ne_nil, (h c hc).ne_dot, (h c hc).ne_dotdot⟩

theorem sanitizePath_eq_self {p : Bytes} (h : SafePath p) : sanitizePath p = p := by
  apply Split.splitOn_injective '/'.toUInt8
  rw [splitOn_sanitizePath, pathComponents, keptComponents_eq_self (safePath_iff.1 h)]
  split
  · rename_i hnil
    exact absurd hnil (List.splitOn_ne_nil _ _)
  · rename_i hcons
    exact hcons.symm

/-- **Main result.** `sanitizePath` returns safe paths, it is idempotent, and it leaves safe paths
and no others as they are. -/
theorem sanitizePath_spec (p : Bytes) : SafePath (sanitizePath p) ∧
    sanitizePath (sanitizePath p) = sanitizePath p ∧ (SafePath p ↔ sanitizePath p = p) := by
  refine ⟨safePath_sanitizePath p, sanitizePath_eq_self (safePath_sanitizePath p),
    sanitizePath_eq_self, fun h => ?_⟩
  rw [← h]
  exact safePath_sanitizePath p

end Gush.Utils
