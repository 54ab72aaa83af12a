import Mathlib.Tactic

/-!
# Fields that are written one after the other

What a list of writes leaves in a field is the last write to it. Some of the writes may be lost:
`lastWrite_kept_iff` says when the fields do not tell, and `filterMap_kept_iff` does the same for a
field that collects what is written to it.
-/

namespace LastWrite

variable {W κ : Type} [DecidableEq κ]

/-- The last write, or what stood there before. -/
def lastOr (initial : W) (ws : List W) : W := ws.getLast?.getD initial

/-- What is left of a list of writes that are marked `false` where they are lost. -/
def kept (l : List (Bool × W)) : List W := (l.filter Prod.fst).map Prod.snd

@[simp] theorem lastOr_nil (initial : W) : lastOr initial [] = initial := rfl

@[simp] theorem lastOr_concat (initial : W) (ws : List W) (w : W) :
    lastOr initial (ws ++ [w]) = w := by
  simp [lastOr]

@[simp] theorem kept_nil : kept ([] : List (Bool × W)) = [] := rfl

@[simp] theorem kept_cons (b : Bool) (w : W) (l : List (Bool × W)) :
    kept ((b, w) :: l) = if b then w :: kept l else kept l := by
  cases b <;> rfl

theorem kept_append (l l' : List (Bool × W)) : kept (l ++ l') = kept l ++ kept l' := by
  simp [kept]

theorem kept_sublist (l : List (Bool × W)) : (kept l).Sublist (l.map Prod.snd) :=
  List.filter_sublist.map Prod.snd

/-- Choosing writes and losing some goes in any order. -/
theorem kept_filter (p : W → Bool) (l : List (Bool × W)) :
    kept (l.filter fun x => p x.2) = (kept l).filter p := by
  induction l with
  | nil => rfl
  | cons x l ih =>
    obtain ⟨b, w⟩ := x
    cases hp : p w <;> cases b <;> simp [hp, ih]

/-- One field: it does not tell that writes are lost, unless the last one is, and was a change. -/
theorem lastOr_kept_iff {initial : W} {l : List (Bool × W)} :
    lastOr initial (kept l) = lastOr initial (l.map Prod.snd) ↔
      ∀ front w, l = front ++ [(false, w)] → w = lastOr initial (kept front) := by
  induction l using List.reverseRecOn with
  | nil => simp
  | append_singleton l x _ =>
    obtain ⟨b, w⟩ := x
    have hall : lastOr initial ((l ++ [(b, w)]).map Prod.snd) = w := by simp
    rw [hall, kept_append]
    cases b with
    | true => simp
    | false =>
      have hkept : kept l ++ kept [(false, w)] = kept l := List.append_nil _
      rw [hkept]
      constructor
      · intro h front w' hfront
        obtain ⟨rfl, hw⟩ := List.append_inj' hfront rfl
        cases hw
        exact h.symm
      · exact fun h => (h l w rfl).symm

section Fields

variable (field : W → Option κ) (initial : κ → W)

/-- The last write to a field. -/
def lastWrite (ws : List W) (k : κ) : W :=
  lastOr (initial k) (ws.filter fun w => field w = some k)

theorem lastWrite_concat (ws : List W) (w : W) (k : κ) :
    lastWrite field initial (ws ++ [w]) k =
      if field w = some k then w else lastWrite field initial ws k := by
  unfold lastWrite
  rw [List.filter_append]
  split_ifs with h <;> simp [h]

/-- The fields do not tell that writes are lost, unless one of them is the last one to its field,
and was a change. -/
theorem lastWrite_kept_iff {l : List (Bool × W)} :
    (∀ k, lastWrite field initial (kept l) k = lastWrite field initial (l.map Prod.snd) k) ↔
      ∀ front w back, l = front ++ (false, w) :: back → (∀ x ∈ back, field x.2 ≠ field w) →
        ∀ k, field w = some k → w = lastWrite field initial (kept front) k := by
  have hfield : ∀ k, lastWrite field initial (kept l) k =
      lastWrite field initial (l.map Prod.snd) k ↔
        ∀ front w, (l.filter fun x => field x.2 = some k) = front ++ [(false, w)] →
          w = lastOr (initial k) (kept front) := by
    intro k
    rw [← lastOr_kept_iff, kept_filter (fun w => decide (field w = some k)), lastWrite, lastWrite,
      List.filter_map]
    rfl
  simp only [hfield]
  constructor
  · intro h front w back hl hback k hk
    have hnone : (back.filter fun x => field x.2 = some k) = [] := by
      rw [List.filter_eq_nil_iff]
      intro x hx
      simpa [hk] using hback x hx
    have hcut : (l.filter fun x => field x.2 = some k) =
        (front.filter fun x => field x.2 = some k) ++ [(false, w)] := by
      rw [hl, List.filter_append, List.filter_cons_of_pos (by simpa using hk), hnone]
    rw [lastWrite, ← kept_filter (fun w => decide (field w = some k))]
    exact h k _ w hcut
  · intro h k front w hl
    obtain ⟨front', rest, rfl, rfl, hrest⟩ := List.filter_eq_append_iff.1 hl
    obtain ⟨gap, back, rfl, hgap, hw, hback⟩ := List.filter_eq_cons_iff.1 hrest
    have hk : field w = some k := by simpa using hw
    have hnone : (gap.filter fun x => field x.2 = some k) = [] := List.filter_eq_nil_iff.2 hgap
    have hlast := h (front' ++ gap) w back (List.append_assoc ..).symm ?_ k hk
    · rw [hlast, lastWrite, ← kept_filter (fun w => decide (field w = some k)), List.filter_append,
        hnone, List.append_nil]
    · intro x hx
      have hx := List.filter_eq_nil_iff.1 hback x hx
      simpa [hk] using hx

end Fields

/-- A field that collects: it tells of every lost write to it. -/
theorem filterMap_kept_iff {V : Type} (g : W → Option V) {l : List (Bool × W)} :
    (kept l).filterMap g = (l.map Prod.snd).filterMap g ↔ ∀ w, (false, w) ∈ l → g w = none := by
  induction l with
  | nil => simp
  | cons x l ih =>
    obtain ⟨b, w⟩ := x
    cases b with
    | true =>
      rw [kept_cons, if_pos rfl, List.map_cons, List.filterMap_cons, List.filterMap_cons]
      cases hw : g w with
      | none => simpa using ih
      | some v => simpa using ih
    | false =>
      rw [kept_cons, if_neg Bool.false_ne_true, List.map_cons, List.filterMap_cons]
      cases hw : g w with
      | none =>
        simp only [ih, List.mem_cons, Prod.mk.injEq, true_and]
        constructor
        · rintro h w' (rfl | hmem)
          · exact hw
          · exact h w' hmem
        · exact fun h w' hmem => h w' (.inr hmem)
      | some v =>
        -- one write is missing
        refine iff_of_false (fun h => ?_) fun h => ?_
        · have hle := ((kept_sublist l).filterMap g).length_le
          rw [h, List.length_cons] at hle
          omega
        · rw [h w List.mem_cons_self] at hw
          cases hw

end LastWrite
