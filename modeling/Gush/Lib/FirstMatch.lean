import Mathlib.Data.List.Nodup
import Mathlib.Tactic

/-!
# Lists that are searched by a key

A list of items with a key, of which the first one with a given key is read or changed. Changing an
item keeps its key, so what is found under another key stays the same (`lookup_modifyFirst`). If the
keys are distinct, looking up is membership (`mem_iff_lookup`).
-/

namespace FirstMatch

variable {α κ : Type*} [DecidableEq κ]

/-- The first item with a key. -/
def lookup (key : α → κ) (k : κ) (l : List α) : Option α := l.find? fun a => key a = k

/-- Changes the first item with a key. -/
def modifyFirst (key : α → κ) (k : κ) (f : α → α) : List α → List α
  | [] => []
  | a :: l => if key a = k then f a :: l else a :: modifyFirst key k f l

variable {key : α → κ} {k k' : κ} {f : α → α} {l : List α} {a : α}

@[simp] theorem lookup_nil : lookup key k [] = none := rfl

@[simp] theorem lookup_cons :
    lookup key k (a :: l) = if key a = k then some a else lookup key k l := by
  by_cases h : key a = k <;> simp [lookup, h]

theorem key_of_lookup (h : lookup key k l = some a) : key a = k := by
  simpa using List.find?_some h

theorem mem_of_lookup (h : lookup key k l = some a) : a ∈ l := List.mem_of_find?_eq_some h

theorem lookup_eq_none_iff : lookup key k l = none ↔ k ∉ l.map key := by
  simp [lookup, List.find?_eq_none]

theorem exists_lookup_iff : (∃ a, lookup key k l = some a) ↔ k ∈ l.map key := by
  rw [← Option.ne_none_iff_exists', Ne, lookup_eq_none_iff, not_not]

theorem lookup_append_singleton :
    lookup key k (l ++ [a]) = (lookup key k l).or (if key a = k then some a else none) := by
  by_cases h : key a = k <;> simp [lookup, List.find?_append, h]

section Modify

variable (hf : ∀ a, key (f a) = key a)

include hf

@[simp] theorem map_key_modifyFirst : (modifyFirst key k f l).map key = l.map key := by
  induction l with
  | nil => rfl
  | cons a l ih =>
    rw [modifyFirst]
    by_cases h : key a = k
    · simp [h, hf]
    · simp [h, ih]

/-- Only what is found under the key changes. -/
theorem lookup_modifyFirst : lookup key k' (modifyFirst key k f l) =
    if k' = k then (lookup key k' l).map f else lookup key k' l := by
  induction l with
  | nil => simp [modifyFirst]
  | cons a l ih =>
    rw [modifyFirst]
    by_cases h : key a = k
    · by_cases h' : k' = k
      · simp [h, h', hf]
      · have hne : ¬ k = k' := fun he => h' he.symm
        simp [h, h', hf, hne]
    · by_cases h' : k' = k
      · subst h'
        simpa [h] using ih
      · by_cases ha : key a = k'
        · simp [h', ha]
        · simpa [h, h', ha] using ih

end Modify

/-- Without an item under the key nothing changes. -/
theorem modifyFirst_of_not_mem (h : k ∉ l.map key) : modifyFirst key k f l = l := by
  induction l with
  | nil => rfl
  | cons a l ih =>
    rw [List.map_cons, List.mem_cons, not_or] at h
    rw [modifyFirst, if_neg (Ne.symm h.1), ih h.2]

/-- A map that does not see the change. -/
theorem map_modifyFirst_of_eq {β : Type*} {g : α → β}
    (h : ∀ a, lookup key k l = some a → g (f a) = g a) : (modifyFirst key k f l).map g = l.map g := by
  induction l with
  | nil => rfl
  | cons a l ih =>
    rw [modifyFirst]
    split_ifs with hk
    · rw [List.map_cons, List.map_cons, h a (by rw [lookup_cons, if_pos hk])]
    · rw [List.map_cons, List.map_cons, ih fun b hb => h b (by rw [lookup_cons, if_neg hk, hb])]

/-- With distinct keys, changing the first item is changing all items with the key. -/
theorem modifyFirst_eq_map (h : (l.map key).Nodup) :
    modifyFirst key k f l = l.map fun a => if key a = k then f a else a := by
  induction l with
  | nil => rfl
  | cons a l ih =>
    obtain ⟨ha, hl⟩ := List.nodup_cons.1 (List.map_cons ▸ h)
    rw [modifyFirst, List.map_cons]
    split_ifs with hk
    · have hrest : (l.map fun a => if key a = k then f a else a) = l := by
        rw [← ih hl, modifyFirst_of_not_mem (hk ▸ ha)]
      rw [hrest]
    · rw [ih hl]

/-- What a change does to the number of items that pass a test. -/
theorem countP_modifyFirst (p : α → Bool) (h : lookup key k l = some a) :
    (modifyFirst key k f l).countP p + (if p a then 1 else 0) =
      l.countP p + if p (f a) then 1 else 0 := by
  induction l with
  | nil => cases h
  | cons b l ih =>
    rw [lookup_cons] at h
    by_cases hk : key b = k
    · rw [if_pos hk] at h
      obtain rfl := Option.some.inj h
      rw [modifyFirst, if_pos hk, List.countP_cons, List.countP_cons]
      omega
    · rw [if_neg hk] at h
      have hcount := ih h
      rw [modifyFirst, if_neg hk, List.countP_cons, List.countP_cons]
      omega

/-- With distinct keys, every item is found under its key. -/
theorem mem_iff_lookup (h : (l.map key).Nodup) : a ∈ l ↔ lookup key (key a) l = some a := by
  refine ⟨fun ha => ?_, mem_of_lookup⟩
  induction l with
  | nil => cases ha
  | cons b l ih =>
    obtain ⟨hb, hl⟩ := List.nodup_cons.1 (List.map_cons ▸ h)
    rcases List.mem_cons.1 ha with rfl | ha
    · simp
    · have hne : key b ≠ key a := fun he => hb (he ▸ List.mem_map_of_mem ha)
      simpa [hne] using ih hl ha

end FirstMatch
