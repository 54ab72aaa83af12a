import Mathlib.Tactic

/-!
# Comparing with a tolerance

Elements that have a value and a key: whoever has the greater value comes first, but values that
differ by less than a tolerance count as equal, and then the smaller key decides. Such a comparison
is seldom a strict weak ordering, because being close is not transitive.
`isStrictWeakOrder_before_iff` says exactly when it is one: whenever a third element bridges two
values that are far apart, the keys must not undo the order of the values.
-/

namespace Tolerance

section Cotransitive

variable {α : Type*} {lt : α → α → Prop}

/-- An asymmetric relation is a strict weak ordering if and only if every element splits every
related pair. -/
theorem isStrictWeakOrder_iff_cotransitive (hasymm : ∀ a b, lt a b → ¬ lt b a) :
    IsStrictWeakOrder α lt ↔ ∀ a b c, lt a c → lt a b ∨ lt b c := by
  constructor
  · intro h a b c hac
    by_contra hnot
    obtain ⟨hab, hbc⟩ := not_or.1 hnot
    -- an element that is related to neither end would make the ends incomparable
    by_cases hba : lt b a
    · exact hbc (h.trans b a c hba hac)
    by_cases hcb : lt c b
    · exact hab (h.trans a c b hac hcb)
    exact (h.incomp_trans a b c ⟨hab, hba⟩ ⟨hbc, hcb⟩).1 hac
  · intro hsplit
    have htrans : ∀ a b c, lt a b → lt b c → lt a c := by
      intro a b c hab hbc
      rcases hsplit a c b hab with hac | hcb
      · exact hac
      · exact absurd hcb (hasymm b c hbc)
    refine { irrefl := fun a haa => hasymm a a haa haa, trans := htrans, incomp_trans := ?_ }
    rintro a b c ⟨hab, hba⟩ ⟨hbc, hcb⟩
    refine ⟨fun hac => ?_, fun hca => ?_⟩
    · rcases hsplit a b c hac with h | h
      · exact hab h
      · exact hbc h
    · rcases hsplit c b a hca with h | h
      · exact hcb h
      · exact hba h

end Cotransitive

variable {α K R : Type*} [Field K] [LinearOrder K] [LinearOrder R]

/-- `a` comes before `b`: by the greater value, or by the smaller key if the values are close. -/
def Before (tolerance : K) (value : α → K) (key : α → R) (a b : α) : Prop :=
  if |value a - value b| < tolerance then key a < key b else value a > value b

variable {tolerance : K} {value : α → K} {key : α → R} {a b c : α}

theorem before_of_close (h : |value a - value b| < tolerance) :
    Before tolerance value key a b ↔ key a < key b := by
  rw [Before, if_pos h]

variable [IsStrictOrderedRing K]

/-- The far side of the tolerance, above. -/
theorem before_of_above (hpos : 0 < tolerance) (h : tolerance ≤ value a - value b) :
    Before tolerance value key a b := by
  have hfar : ¬ |value a - value b| < tolerance := not_lt.2 (h.trans (le_abs_self _))
  rw [Before, if_neg hfar]
  linarith

/-- The far side of the tolerance, below. -/
theorem not_before_of_below (hpos : 0 < tolerance) (h : tolerance ≤ value b - value a) :
    ¬ Before tolerance value key a b := by
  have hfar : ¬ |value a - value b| < tolerance := by
    rw [abs_sub_comm]
    exact not_lt.2 (h.trans (le_abs_self _))
  rw [Before, if_neg hfar]
  linarith

/-- Two elements are close, or one of them is above the other by the tolerance. -/
theorem close_or_far (tolerance : K) (value : α → K) (a b : α) :
    |value a - value b| < tolerance ∨ tolerance ≤ value a - value b ∨
      tolerance ≤ value b - value a := by
  rcases lt_or_ge |value a - value b| tolerance with h | h
  · exact .inl h
  · rcases le_abs.1 h with h | h
    · exact .inr (.inl h)
    · exact .inr (.inr (by linarith))

theorem before_asymm (hpos : 0 < tolerance) (h : Before tolerance value key a b) :
    ¬ Before tolerance value key b a := by
  rcases close_or_far tolerance value a b with hclose | habove | hbelow
  · rw [before_of_close hclose] at h
    rw [before_of_close (by rwa [abs_sub_comm])]
    exact h.asymm
  · exact not_before_of_below hpos habove
  · exact absurd h (not_before_of_below hpos hbelow)

/-- Wherever `mid` is close to both ends of a pair that is far apart, its key is above that of the
greater value or below that of the smaller one. -/
def Bridged (tolerance : K) (value : α → K) (key : α → R) (s : Set α) : Prop :=
  ∀ fast ∈ s, ∀ mid ∈ s, ∀ slow ∈ s, tolerance ≤ value fast - value slow →
    |value fast - value mid| < tolerance → |value mid - value slow| < tolerance →
    key fast < key mid ∨ key mid < key slow

/-- The bridges are all that splitting can fail at. -/
theorem Bridged.split (hpos : 0 < tolerance) {s : Set α} (h : Bridged tolerance value key s)
    (ha : a ∈ s) (hb : b ∈ s) (hc : c ∈ s) (hac : Before tolerance value key a c) :
    Before tolerance value key a b ∨ Before tolerance value key b c := by
  rcases close_or_far tolerance value a b with hab | hab | hab
  -- `b` is close to `a`
  · rw [before_of_close hab]
    rcases close_or_far tolerance value b c with hbc | hbc | hbc
    · rw [before_of_close hbc]
      rcases close_or_far tolerance value a c with hclose | habove | hbelow
      · rw [before_of_close hclose] at hac
        exact (lt_or_ge (key a) (key b)).imp_right fun hle => hle.trans_lt hac
      · exact h a ha b hb c hc habove hab hbc
      · exact absurd hac (not_before_of_below hpos hbelow)
    · exact .inr (before_of_above hpos hbc)
    · -- `a` bridges `c` and `b`
      rcases close_or_far tolerance value a c with hclose | habove | hbelow
      · have hkey := (before_of_close hclose).1 hac
        rcases h c hc a ha b hb hbc (by rwa [abs_sub_comm]) hab with hca | hab'
        · exact absurd hca hkey.asymm
        · exact .inl hab'
      · have hlt := (abs_lt.1 hab).2
        linarith
      · exact absurd hac (not_before_of_below hpos hbelow)
  · exact .inl (before_of_above hpos hab)
  -- `b` is far above `a`
  · rcases close_or_far tolerance value b c with hbc | hbc | hbc
    · rw [before_of_close hbc]
      rcases close_or_far tolerance value a c with hclose | habove | hbelow
      · have hkey := (before_of_close hclose).1 hac
        rcases h b hb c hc a ha hab hbc (by rwa [abs_sub_comm]) with hbc' | hca
        · exact .inr hbc'
        · exact absurd hca hkey.asymm
      · have hlt := (abs_lt.1 hbc).2
        linarith
      · exact absurd hac (not_before_of_below hpos hbelow)
    · exact .inr (before_of_above hpos hbc)
    · exact absurd hac (not_before_of_below hpos (by linarith))

/-- **Main result.** When the comparison is a strict weak ordering on a set. -/
theorem isStrictWeakOrder_before_iff (hpos : 0 < tolerance) (s : Set α) :
    IsStrictWeakOrder s (Subrel (Before tolerance value key) (· ∈ s)) ↔
      Bridged tolerance value key s := by
  have hasymm : ∀ a b : s, Subrel (Before tolerance value key) (· ∈ s) a b →
      ¬ Subrel (Before tolerance value key) (· ∈ s) b a :=
    fun _ _ hab => before_asymm hpos hab
  rw [isStrictWeakOrder_iff_cotransitive hasymm]
  constructor
  · intro hsplit fast hf mid hm slow hs hfar hfast hslow
    have hbefore := hsplit ⟨fast, hf⟩ ⟨mid, hm⟩ ⟨slow, hs⟩ (before_of_above hpos hfar)
    exact hbefore.imp (before_of_close hfast).1 (before_of_close hslow).1
  · rintro h ⟨a, ha⟩ ⟨b, hb⟩ ⟨c, hc⟩ hac
    exact h.split hpos ha hb hc hac

end Tolerance
