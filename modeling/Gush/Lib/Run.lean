import Mathlib.Tactic

/-!
# Runs of a machine

A run is a fold of a step function over a list of events. `Along step guard s events` says that
every step of the run meets a guard on the state before it and on the event; `Along.invariant` is
the induction that carries an invariant through such a run. A run whose steps may fail to return is
one over `Option`; `Along.invariant_bind` is the same rule for the states that such a run reaches.
-/

namespace Run

variable {σ ε : Type} {step : σ → ε → σ}

/-- Every step of the run from `s` meets the guard. -/
def Along (step : σ → ε → σ) (guard : σ → ε → Prop) : σ → List ε → Prop
  | _, [] => True
  | s, e :: events => guard s e ∧ Along step guard (step s e) events

/-- A guard that always holds is met by every run. -/
theorem along_of_forall {guard : σ → ε → Prop} (h : ∀ s e, guard s e) (s : σ) (events : List ε) :
    Along step guard s events := by
  induction events generalizing s with
  | nil => trivial
  | cons e events ih => exact ⟨h s e, ih (step s e)⟩

/-- A run in two parts meets a guard if both parts do. -/
theorem along_append {guard : σ → ε → Prop} {s : σ} {events events' : List ε} :
    Along step guard s (events ++ events') ↔
      Along step guard s events ∧ Along step guard (events.foldl step s) events' := by
  induction events generalizing s with
  | nil => simp [Along]
  | cons e events ih => simp [Along, ih, and_assoc]

/-- An event of a history that has grown by one is the new one or one of the old ones. -/
theorem append_singleton_eq {events pre post : List ε} {e e' : ε}
    (h : events ++ [e] = pre ++ e' :: post) :
    (post = [] ∧ events = pre ∧ e = e') ∨
      ∃ post', post = post' ++ [e] ∧ events = pre ++ e' :: post' := by
  rcases List.eq_nil_or_concat' post with rfl | ⟨post', last, rfl⟩
  · obtain ⟨hpre, hlast⟩ := List.append_inj' h rfl
    exact .inl ⟨rfl, hpre, List.singleton_inj.1 hlast⟩
  · have hsplit : events ++ [e] = (pre ++ e' :: post') ++ [last] := by simpa using h
    obtain ⟨hpre, hlast⟩ := List.append_inj' hsplit rfl
    obtain rfl := List.singleton_inj.1 hlast
    exact .inr ⟨post', rfl, hpre⟩

/-- Guards that a run meets one by one, it meets together. -/
theorem Along.and {guard guard' : σ → ε → Prop} {s : σ} {events : List ε}
    (h : Along step guard s events) (h' : Along step guard' s events) :
    Along step (fun s e => guard s e ∧ guard' s e) s events := by
  induction events generalizing s with
  | nil => trivial
  | cons e events ih => exact ⟨⟨h.1, h'.1⟩, ih h.2 h'.2⟩

/-- A run that meets a guard meets every weaker one. -/
theorem Along.mono {guard guard' : σ → ε → Prop} (hguard : ∀ s e, guard s e → guard' s e) {s : σ}
    {events : List ε} (h : Along step guard s events) : Along step guard' s events := by
  induction events generalizing s with
  | nil => trivial
  | cons e events ih => exact ⟨hguard s e h.1, ih h.2⟩

/-- What a guarded step preserves, a guarded run preserves. -/
theorem Along.invariant {guard : σ → ε → Prop} {P : σ → Prop}
    (hstep : ∀ s e, P s → guard s e → P (step s e)) {s : σ} {events : List ε}
    (h : Along step guard s events) (hs : P s) : P (events.foldl step s) := by
  induction events generalizing s with
  | nil => exact hs
  | cons e events ih => exact ih h.2 (hstep s e hs h.1)

/-- What every step preserves, every run preserves. -/
theorem invariant {P : σ → Prop} (hstep : ∀ s e, P s → P (step s e)) {s : σ} (events : List ε)
    (hs : P s) : P (events.foldl step s) := by
  have hall : Along step (fun _ _ => True) s events := along_of_forall (fun _ _ => trivial) s events
  exact hall.invariant (fun s e h _ => hstep s e h) hs

/-- What a guarded call preserves, holds of every state that a guarded run of calls reaches. -/
theorem Along.invariant_bind {step : Option σ → ε → Option σ} {call : σ → ε → Option σ}
    {guard : Option σ → ε → Prop} {P : σ → Prop} (hstep : ∀ s e, step s e = s.bind fun s => call s e)
    (hcall : ∀ s s' e, P s → guard (some s) e → call s e = some s' → P s') {s s' : σ}
    {events : List ε} (h : Along step guard (some s) events) (hs : P s)
    (hrun : events.foldl step (some s) = some s') : P s' := by
  have hkeeps : ∀ o e, (∀ s, o = some s → P s) → guard o e → ∀ s', step o e = some s' → P s' := by
    intro o e ho hguard s' hs'
    rw [hstep] at hs'
    obtain ⟨s, rfl, hs⟩ := Option.bind_eq_some_iff.1 hs'
    exact hcall s s' e (ho s rfl) hguard hs
  have hinit : ∀ s'', some s = some s'' → P s'' := by
    rintro _ ⟨⟩
    exact hs
  exact h.invariant hkeeps hinit s' hrun

/-! ### States that lead to each other -/

/-- Some run that meets the guard leads from one state to another. -/
def Reaches (step : σ → ε → σ) (guard : σ → ε → Prop) (s s' : σ) : Prop :=
  ∃ events, Along step guard s events ∧ events.foldl step s = s'

section Reaches

variable {guard guard' : σ → ε → Prop} {s s' s'' : σ}

theorem Reaches.refl (s : σ) : Reaches step guard s s := ⟨[], trivial, rfl⟩

theorem Reaches.single {e : ε} (h : guard s e) : Reaches step guard s (step s e) :=
  ⟨[e], ⟨h, trivial⟩, rfl⟩

theorem Reaches.trans (h : Reaches step guard s s') (h' : Reaches step guard s' s'') :
    Reaches step guard s s'' := by
  obtain ⟨events, halong, rfl⟩ := h
  obtain ⟨events', halong', rfl⟩ := h'
  exact ⟨events ++ events', along_append.2 ⟨halong, halong'⟩, List.foldl_append⟩

theorem Reaches.mono (hguard : ∀ s e, guard s e → guard' s e) (h : Reaches step guard s s') :
    Reaches step guard' s s' := by
  obtain ⟨events, halong, hrun⟩ := h
  exact ⟨events, halong.mono hguard, hrun⟩

/-- What every guarded step preserves, holds wherever guarded runs lead. -/
theorem Reaches.invariant {P : σ → Prop} (hstep : ∀ s e, P s → guard s e → P (step s e))
    (h : Reaches step guard s s') (hs : P s) : P s' := by
  obtain ⟨events, halong, rfl⟩ := h
  exact halong.invariant hstep hs

/-- A loop whose body is a run is a run. -/
theorem reaches_foldl {β : Type} {f : σ → β → σ} (h : ∀ s b, Reaches step guard s (f s b))
    (l : List β) (s : σ) : Reaches step guard s (l.foldl f s) := by
  induction l generalizing s with
  | nil => exact .refl s
  | cons b l ih => exact (h s b).trans (ih (f s b))

/-- A machine simulates another one if it has a run for every guarded step that is taken under an
invariant. -/
theorem Reaches.simulates {τ δ : Type} {step' : τ → δ → τ} {guard' : τ → δ → Prop} {view : σ → τ}
    {P : σ → Prop} (hstep : ∀ s e, P s → guard s e →
      P (step s e) ∧ Reaches step' guard' (view s) (view (step s e)))
    (h : Reaches step guard s s') (hs : P s) : Reaches step' guard' (view s) (view s') := by
  have hboth := h.invariant (P := fun s'' => P s'' ∧ Reaches step' guard' (view s) (view s''))
    (fun s'' e hs'' hguard => by
      obtain ⟨hkeeps, hreach⟩ := hstep s'' e hs''.1 hguard
      exact ⟨hkeeps, hs''.2.trans hreach⟩) ⟨hs, .refl _⟩
  exact hboth.2

end Reaches

/-- As long as the goal is not reached, the chosen event lowers a rank: then a run of chosen events
reaches the goal, in no more steps than the rank. -/
theorem reaches (choose : σ → ε) {P Goal : σ → Prop} (rank : σ → ℕ)
    (hstep : ∀ s, P s → ¬ Goal s → P (step s (choose s)) ∧ rank (step s (choose s)) < rank s) :
    ∀ {s : σ}, P s → ∃ events : List ε, events.length ≤ rank s ∧
      Along step (fun s e => P s ∧ e = choose s) s events ∧ P (events.foldl step s) ∧
      Goal (events.foldl step s) := by
  intro s hs
  induction hr : rank s using Nat.strong_induction_on generalizing s with
  | _ r ih =>
    by_cases hgoal : Goal s
    · exact ⟨[], Nat.zero_le _, trivial, hs, hgoal⟩
    · obtain ⟨hkeeps, hlower⟩ := hstep s hs hgoal
      obtain ⟨events, hlength, halong, hend, hreached⟩ :=
        ih _ (hr ▸ hlower) hkeeps rfl
      refine ⟨choose s :: events, ?_, ⟨⟨hs, rfl⟩, halong⟩, hend, hreached⟩
      rw [List.length_cons]
      omega

/-- What is counted along a guarded run is bounded by a potential that every counted step lowers. -/
theorem Along.count_le {guard : σ → ε → Prop} {P : σ → Prop} (counted : ε → Bool) (potential : σ → ℕ)
    (hstep : ∀ s e, P s → guard s e → P (step s e) ∧
      potential (step s e) + (if counted e then 1 else 0) ≤ potential s) {s : σ} {events : List ε}
    (h : Along step guard s events) (hs : P s) :
    P (events.foldl step s) ∧
      potential (events.foldl step s) + events.countP counted ≤ potential s := by
  induction events generalizing s with
  | nil => exact ⟨hs, le_rfl⟩
  | cons e events ih =>
    obtain ⟨hkeeps, hlower⟩ := hstep s e hs h.1
    obtain ⟨hend, hcount⟩ := ih h.2 hkeeps
    refine ⟨hend, ?_⟩
    rw [List.countP_cons, List.foldl_cons]
    omega

end Run
