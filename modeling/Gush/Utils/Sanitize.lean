import Gush.Cxx

/-!
# File names from torrents

`sanitizeFileName` and `sanitizePath` turn names that an attacker may choose into names below the
download directory. The first leaves the names that are empty, `.` or `..` to its caller; the
second drops such components. `under_pathComponents` is what the second writes for every string.
-/

namespace Gush.Utils

open Cxx

/-- The bytes that are replaced: separators, NUL and control characters. -/
def isUnsafe (c : UInt8) : Bool :=
  c == '/'.toUInt8 || c == '\\'.toUInt8 || c == 0 || decide (c < 0x20)

def sanitizeFileName (name : Bytes) : Bytes :=
  name.map fun c => if isUnsafe c then '_'.toUInt8 else c

/-- One round of the loop of `sanitizePath`: the text written so far, and whether the component is
the first one. -/
def appendComponent : Bytes × Bool → Bytes → Bytes × Bool
  | (oss, first), comp =>
    let safe := sanitizeFileName comp
    if safe ≠ [] ∧ safe ≠ ascii "." ∧ safe ≠ ascii ".." then
      (if first then oss ++ safe else oss ++ ['/'.toUInt8] ++ safe, false)
    else (oss, first)

def sanitizePath (path : Bytes) : Bytes :=
  let result := ((path.splitOn '/'.toUInt8).foldl appendComponent ([], true)).1
  if result = [] then ascii "_" else result

/-! ### Components -/

/-- A name that stays below the directory it is put in. -/
structure SafeComponent (c : Bytes) : Prop where
  ne_nil : c ≠ []
  ne_dot : c ≠ ascii "."
  ne_dotdot : c ≠ ascii ".."
  no_slash : '/'.toUInt8 ∉ c
  no_backslash : '\\'.toUInt8 ∉ c
  no_control : ∀ b ∈ c, ¬ b < 0x20

/-- The path of the components below a directory. -/
def under (dir : Bytes) (comps : List Bytes) : Bytes :=
  dir ++ comps.flatMap fun c => '/'.toUInt8 :: c

theorem not_isUnsafe_sanitize {name : Bytes} {b : UInt8} (h : b ∈ sanitizeFileName name) :
    isUnsafe b = false := by
  obtain ⟨c, -, rfl⟩ := List.mem_map.1 h
  by_cases hc : isUnsafe c = true
  · rw [if_pos hc]
    decide
  · rw [if_neg hc]
    simpa using hc

/-- All that a caller of `sanitizeFileName` has to check. -/
theorem safeComponent_sanitize {name : Bytes} (h₀ : sanitizeFileName name ≠ [])
    (h₁ : sanitizeFileName name ≠ ascii ".") (h₂ : sanitizeFileName name ≠ ascii "..") :
    SafeComponent (sanitizeFileName name) := by
  have hsafe : ∀ b ∈ sanitizeFileName name,
      b ≠ '/'.toUInt8 ∧ b ≠ '\\'.toUInt8 ∧ ¬ b < 0x20 := by
    intro b hb
    have hfalse := not_isUnsafe_sanitize hb
    simp only [isUnsafe, Bool.or_eq_false_iff, beq_eq_false_iff_ne, decide_eq_false_iff_not]
      at hfalse
    exact ⟨hfalse.1.1.1, hfalse.1.1.2, hfalse.2⟩
  exact {
    ne_nil := h₀
    ne_dot := h₁
    ne_dotdot := h₂
    no_slash := fun hb => (hsafe _ hb).1 rfl
    no_backslash := fun hb => (hsafe _ hb).2.1 rfl
    no_control := fun b hb => (hsafe b hb).2.2 }

/-- Only a dot becomes a dot. -/
theorem eq_dot_of_sanitize {c : UInt8}
    (h : (if isUnsafe c then '_'.toUInt8 else c) = '.'.toUInt8) : c = '.'.toUInt8 := by
  by_cases hc : isUnsafe c = true
  · rw [if_pos hc] at h
    exact absurd h (by decide)
  · rwa [if_neg hc] at h

theorem sanitizeFileName_eq_dots {name : Bytes} {n : ℕ} :
    sanitizeFileName name = List.replicate n '.'.toUInt8 ↔
      name = List.replicate n '.'.toUInt8 := by
  constructor
  · intro h
    refine List.eq_replicate_iff.2 ⟨?_, fun c hc => ?_⟩
    · simpa [sanitizeFileName] using congrArg List.length h
    · have hmem : (if isUnsafe c then '_'.toUInt8 else c) ∈ sanitizeFileName name :=
        List.mem_map_of_mem hc
      rw [h] at hmem
      exact eq_dot_of_sanitize (List.eq_of_mem_replicate hmem)
  · rintro rfl
    rw [sanitizeFileName, List.map_replicate]
    rfl

theorem sanitizeFileName_eq_dot {name : Bytes} :
    sanitizeFileName name = ascii "." ↔ name = ascii "." :=
  sanitizeFileName_eq_dots (n := 1)

theorem sanitizeFileName_eq_dotdot {name : Bytes} :
    sanitizeFileName name = ascii ".." ↔ name = ascii ".." :=
  sanitizeFileName_eq_dots (n := 2)

/-! ### What `sanitizePath` writes -/

/-- The components that the loop keeps, sanitized. -/
def keptComponents (comps : List Bytes) : List Bytes :=
  (comps.map sanitizeFileName).filter fun safe =>
    safe ≠ [] ∧ safe ≠ ascii "." ∧ safe ≠ ascii ".."

theorem safeComponent_of_mem_kept {comps : List Bytes} {c : Bytes} (h : c ∈ keptComponents comps) :
    SafeComponent c := by
  obtain ⟨hmem, hc⟩ := List.mem_filter.1 h
  obtain ⟨name, -, rfl⟩ := List.mem_map.1 hmem
  obtain ⟨h₀, h₁, h₂⟩ := of_decide_eq_true hc
  exact safeComponent_sanitize h₀ h₁ h₂

/-- The loop after the first component: every kept component is written behind a slash. -/
theorem foldl_appendComponent_false (comps : List Bytes) (oss : Bytes) :
    comps.foldl appendComponent (oss, false) = (under oss (keptComponents comps), false) := by
  induction comps generalizing oss with
  | nil => simp [under, keptComponents]
  | cons comp comps ih =>
    rw [List.foldl_cons]
    by_cases h : sanitizeFileName comp ≠ [] ∧ sanitizeFileName comp ≠ ascii "." ∧
        sanitizeFileName comp ≠ ascii ".."
    · simp [appendComponent, h, ih, keptComponents, under]
    · simp [appendComponent, h, ih, keptComponents]

/-- The whole loop: the kept components, with slashes in between. -/
theorem foldl_appendComponent_true (comps : List Bytes) :
    (comps.foldl appendComponent ([], true)).1 = (under [] (keptComponents comps)).drop 1 := by
  induction comps with
  | nil => simp [under, keptComponents]
  | cons comp comps ih =>
    rw [List.foldl_cons]
    by_cases h : sanitizeFileName comp ≠ [] ∧ sanitizeFileName comp ≠ ascii "." ∧
        sanitizeFileName comp ≠ ascii ".."
    · simp [appendComponent, h, foldl_appendComponent_false, keptComponents, under]
    · simp [appendComponent, h, ih, keptComponents]

/-- The components of the result of `sanitizePath`. -/
def pathComponents (path : Bytes) : List Bytes :=
  match keptComponents (path.splitOn '/'.toUInt8) with
  | [] => [ascii "_"]
  | c :: comps => c :: comps

theorem pathComponents_ne_nil (path : Bytes) : pathComponents path ≠ [] := by
  unfold pathComponents
  split <;> simp

theorem safeComponent_of_mem_pathComponents {path c : Bytes} (h : c ∈ pathComponents path) :
    SafeComponent c := by
  unfold pathComponents at h
  split at h
  · rw [List.mem_singleton.1 h]
    show SafeComponent (sanitizeFileName (ascii "_"))
    exact safeComponent_sanitize (by decide) (by decide) (by decide)
  · rename_i hkept
    exact safeComponent_of_mem_kept (hkept ▸ h)

/-- Behind a directory and a slash, the result of `sanitizePath` is the path of its components. -/
theorem under_pathComponents (dir path : Bytes) :
    dir ++ '/'.toUInt8 :: sanitizePath path = under dir (pathComponents path) := by
  rw [sanitizePath, foldl_appendComponent_true, pathComponents]
  cases hkept : keptComponents (path.splitOn '/'.toUInt8) with
  | nil => simp [under]
  | cons c comps =>
    have hc : c ≠ [] := (safeComponent_of_mem_kept (hkept ▸ List.mem_cons_self)).ne_nil
    simp [under, hc]

/-- Splitting the path gives back the components. -/
theorem splitOn_under {dir : Bytes} {comps : List Bytes} (h : ∀ c ∈ comps, '/'.toUInt8 ∉ c) :
    (under dir comps).splitOn '/'.toUInt8 = dir.splitOn '/'.toUInt8 ++ comps := by
  induction comps generalizing dir with
  | nil => simp [under]
  | cons c comps ih =>
    have hcut : under dir (c :: comps) = under (dir ++ '/'.toUInt8 :: c) comps := by
      simp [under]
    rw [hcut, ih (fun d hd => h d (List.mem_cons_of_mem c hd)), List.splitOn_append_cons_self,
      List.splitOn_eq_singleton (h c List.mem_cons_self)]
    simp

/-- Names without a slash are determined by the path they make. -/
theorem under_injective {dir : Bytes} {cs cs' : List Bytes} (h : ∀ c ∈ cs, '/'.toUInt8 ∉ c)
    (h' : ∀ c ∈ cs', '/'.toUInt8 ∉ c) (heq : under dir cs = under dir cs') : cs = cs' := by
  have hsplit := congrArg (List.splitOn '/'.toUInt8) heq
  rw [splitOn_under h, splitOn_under h'] at hsplit
  exact List.append_cancel_left hsplit

end Gush.Utils
