import Mathlib.Tactic

/-!
# Reading frames off a stream

A stream reaches a reader in pieces, and between two pieces the reader may be polled any number of
times. A `Scanner` takes the first complete frame off the bytes that have arrived; a `Reader` says
in addition what is done with a frame. `serve` is a run of arrivals and polls.

The bytes of a frame decide that it is complete, so what comes out does not depend on the pieces:
`serve_polls` says that every run yields what the frames of the whole stream give, one after the
other. `serve_eq` carries this over to any machine that simulates the reader, and `polls_eq` to one
that is given the whole stream and cannot wait for more.
-/

namespace Framing

variable {α φ σ τ ι κ : Type}

/-! ### Scanning -/

/-- Takes the first frame off a buffer; `none` as long as it is not complete. -/
structure Scanner (α φ : Type) where
  next : List α → Option (φ × List α)
  next_append : ∀ {buffer rest : List α} {f : φ} (more : List α),
    next buffer = some (f, rest) → next (buffer ++ more) = some (f, rest ++ more)
  length_lt : ∀ {buffer rest : List α} {f : φ},
    next buffer = some (f, rest) → rest.length < buffer.length

namespace Scanner

variable (S : Scanner α φ)

/-- All complete frames of a buffer. -/
def frames (buffer : List α) : List φ :=
  match _h : S.next buffer with
  | none => []
  | some (f, rest) => f :: frames rest
termination_by buffer.length
decreasing_by exact S.length_lt _h

variable {S}

theorem frames_of_none {buffer : List α} (h : S.next buffer = none) : S.frames buffer = [] := by
  rw [frames]
  split
  · rfl
  · rename_i h'
    cases h.symm.trans h'

theorem frames_of_some {buffer rest : List α} {f : φ} (h : S.next buffer = some (f, rest)) :
    S.frames buffer = f :: S.frames rest := by
  rw [frames]
  split
  · rename_i h'
    cases h.symm.trans h'
  · rename_i h'
    cases h.symm.trans h'
    rfl

/-- What is written one after the other is read one after the other. -/
theorem frames_encoded {β : Type} {encode : β → List α} {frame : β → φ} {messages : List β}
    (h : ∀ m ∈ messages, ∀ rest, S.next (encode m ++ rest) = some (frame m, rest))
    (rest : List α) :
    S.frames ((messages.map encode).flatten ++ rest) = messages.map frame ++ S.frames rest := by
  induction messages with
  | nil => rfl
  | cons m messages ih =>
    rw [List.map_cons, List.flatten_cons, List.append_assoc,
      frames_of_some (h m (List.mem_cons_self ..) _),
      ih fun m hm => h m (List.mem_cons_of_mem _ hm)]
    rfl

end Scanner

/-! ### Reading -/

/-- What is done with the frames. `act` is `none` if handling the frame never ends; without an item
the frame is refused and the stream is closed. -/
structure Reader (α φ σ ι : Type) extends Scanner α φ where
  act : σ → φ → Option (Option ι × σ)

/-- A reader with the bytes that wait for it. -/
structure Config (α σ : Type) where
  state : σ
  isOpen : Bool := true
  buffer : List α := []

/-- Bytes that reach a closed reader are lost. -/
def Config.arrive (c : Config α σ) (bytes : List α) : Config α σ :=
  if c.isOpen then { c with buffer := c.buffer ++ bytes } else c

/-- Puts items in front of what comes out. -/
def prepend {β : Type} (items : List ι) (out : List ι × β) : List ι × β := (items ++ out.1, out.2)

/-- Polls until there is nothing, or until `n` items have come. -/
def polls (poll : κ → Option (Option ι × κ)) : ℕ → κ → Option (List ι × κ)
  | 0, k => some ([], k)
  | n + 1, k =>
    match poll k with
    | none => none
    | some (none, k') => some ([], k')
    | some (some i, k') => (polls poll n k').map (prepend [i])

/-- A run: bytes that arrive, each time with a number of polls behind them. -/
def serve (poll : κ → Option (Option ι × κ)) (arrive : κ → List α → κ) :
    List (List α × ℕ) → κ → Option (List ι × κ)
  | [], k => some ([], k)
  | (bytes, n) :: schedule, k =>
    match polls poll n (arrive k bytes) with
    | none => none
    | some (items, k') => (serve poll arrive schedule k').map (prepend items)

/-- The bytes that arrive during a run. -/
def arrivals (schedule : List (List α × ℕ)) : List α := (schedule.map Prod.fst).flatten

namespace Reader

variable (R : Reader α φ σ ι)

/-- One poll. As long as no frame is complete, the reader waits. -/
def poll (c : Config α σ) : Option (Option ι × Config α σ) :=
  if c.isOpen then
    match R.next c.buffer with
    | none => some (none, c)
    | some (f, rest) =>
      match R.act c.state f with
      | none => none
      | some (none, s) => some (none, { state := s, isOpen := false, buffer := [] })
      | some (some i, s) => some (some i, { state := s, isOpen := true, buffer := rest })
  else some (none, c)

/-- What comes out of some frames: the items, the last state, and whether the stream is open. -/
def acts : σ → List φ → Option (List ι × σ × Bool)
  | s, [] => some ([], s, true)
  | s, f :: fs =>
    match R.act s f with
    | none => none
    | some (none, s') => some ([], s', false)
    | some (some i, s') => (acts s' fs).map (prepend [i])

/-- What comes out of a configuration if some bytes still arrive and are all read. -/
def result (c : Config α σ) (more : List α) : Option (List ι × σ × Bool) :=
  if c.isOpen then R.acts c.state (R.frames (c.buffer ++ more)) else some ([], c.state, false)

variable {R}

theorem map_prepend_nil {β : Type} (out : Option (List ι × β)) : out.map (prepend []) = out := by
  cases out <;> rfl

theorem map_prepend_map {β : Type} (l l' : List ι) (out : Option (List ι × β)) :
    (out.map (prepend l')).map (prepend l) = out.map (prepend (l ++ l')) := by
  rcases out with - | ⟨items, b⟩
  · rfl
  · simp [prepend]

/-- A poll changes nothing about what comes out in the end. -/
theorem result_poll (c : Config α σ) (more : List α) :
    R.result c more =
      match R.poll c with
      | none => none
      | some (none, c') => R.result c' more
      | some (some i, c') => (R.result c' more).map (prepend [i]) := by
  obtain ⟨s, isOpen, buffer⟩ := c
  cases isOpen with
  | false => rfl
  | true =>
    cases hnext : R.next buffer with
    | none => simp [poll, hnext]
    | some x =>
      obtain ⟨f, rest⟩ := x
      have hframes : R.frames (buffer ++ more) = f :: R.frames (rest ++ more) :=
        Scanner.frames_of_some (R.next_append more hnext)
      rcases hact : R.act s f with - | ⟨- | i, s'⟩ <;>
        simp [result, poll, hnext, hframes, acts, hact]

theorem result_polls (n : ℕ) (c : Config α σ) (more : List α) :
    R.result c more =
      match polls R.poll n c with
      | none => none
      | some (items, c') => (R.result c' more).map (prepend items) := by
  induction n generalizing c with
  | zero => exact (map_prepend_nil _).symm
  | succ n ih =>
    rw [result_poll, polls]
    rcases R.poll c with - | ⟨- | i, c'⟩
    · rfl
    · exact (map_prepend_nil _).symm
    · dsimp only
      rw [ih c']
      rcases polls R.poll n c' with - | ⟨items, c''⟩
      · rfl
      · exact map_prepend_map _ _ _

theorem result_arrive (c : Config α σ) (bytes more : List α) :
    R.result (c.arrive bytes) more = R.result c (bytes ++ more) := by
  obtain ⟨s, isOpen, buffer⟩ := c
  cases isOpen with
  | false => rfl
  | true => simp [result, Config.arrive]

theorem result_serve (schedule : List (List α × ℕ)) (c : Config α σ) (more : List α) :
    R.result c (arrivals schedule ++ more) =
      match serve R.poll Config.arrive schedule c with
      | none => none
      | some (items, c') => (R.result c' more).map (prepend items) := by
  induction schedule generalizing c with
  | nil => exact (map_prepend_nil _).symm
  | cons entry schedule ih =>
    obtain ⟨bytes, n⟩ := entry
    have harrive : R.result c (arrivals ((bytes, n) :: schedule) ++ more) =
        R.result (c.arrive bytes) (arrivals schedule ++ more) := by
      rw [result_arrive, arrivals, List.map_cons, List.flatten_cons, List.append_assoc]
      rfl
    rw [harrive, result_polls n, serve]
    rcases polls R.poll n (c.arrive bytes) with - | ⟨items, c'⟩
    · rfl
    · dsimp only
      rw [ih c']
      rcases serve R.poll Config.arrive schedule c' with - | ⟨items', c''⟩
      · rfl
      · exact map_prepend_map _ _ _

/-- What of the reader is looked at in the end: a part of its state, and whether it is open. -/
def outcome (seen : σ → τ) (out : List ι × Config α σ) : List ι × τ × Bool :=
  (out.1, seen out.2.state, out.2.isOpen)

theorem map_outcome_prepend (seen : σ → τ) (l : List ι) (out : Option (List ι × Config α σ)) :
    (out.map (prepend l)).map (outcome seen) = (out.map (outcome seen)).map (prepend l) := by
  cases out <;> rfl

/-- What comes out, as far as it is looked at. -/
def seenResult (R : Reader α φ σ ι) (seen : σ → τ) (c : Config α σ) (more : List α) :
    Option (List ι × τ × Bool) :=
  (R.result c more).map (Prod.map id (Prod.map seen id))

/-- A machine that does what the reader does wherever a frame is complete. Where none is, it yields
nothing and looks the same afterwards; what it has of the frame may be lost. -/
structure Follows (R : Reader α φ σ ι) (view : κ → Config α σ) (seen : σ → τ)
    (poll : κ → Option (Option ι × κ)) : Prop where
  complete : ∀ k, ¬ ((view k).isOpen = true ∧ R.next (view k).buffer = none) →
    (poll k).map (Prod.map id view) = R.poll (view k)
  incomplete : ∀ k, (view k).isOpen = true → R.next (view k).buffer = none →
    ∃ k', poll k = some (none, k') ∧ seen (view k').state = seen (view k).state ∧
      (view k').isOpen = true

/-- A machine that waits as the reader does. -/
theorem Follows.of_simulates {R : Reader α φ σ ι} {view : κ → Config α σ} (seen : σ → τ)
    {poll : κ → Option (Option ι × κ)}
    (h : ∀ k, (poll k).map (Prod.map id view) = R.poll (view k)) : R.Follows view seen poll := by
  refine ⟨fun k _ => h k, fun k hopen hnone => ?_⟩
  have hk := h k
  rw [Reader.poll, if_pos hopen, hnone] at hk
  obtain ⟨⟨i, k'⟩, hpoll, hout⟩ := Option.map_eq_some_iff.1 hk
  obtain ⟨rfl, hview⟩ := Prod.mk.inj hout
  refine ⟨k', hpoll, ?_, ?_⟩
  · rw [hview]
  · rw [hview, hopen]

/-- With more polls than there are bytes, everything is read. -/
theorem Follows.polls_all {R : Reader α φ σ ι} {view : κ → Config α σ} {seen : σ → τ}
    {poll : κ → Option (Option ι × κ)} (hpoll : R.Follows view seen poll) {n : ℕ} {k : κ}
    (h : (view k).buffer.length < n) :
    (polls poll n k).map (outcome seen ∘ Prod.map id view) = R.seenResult seen (view k) [] := by
  induction n generalizing k with
  | zero => exact absurd h (Nat.not_lt_zero _)
  | succ n ih =>
    have hstep := hpoll.complete k
    have hwait := hpoll.incomplete k
    rw [polls, seenResult, result]
    rcases hview : view k with ⟨s, isOpen, buffer⟩
    rw [hview] at hstep hwait h
    cases isOpen with
    | false =>
      obtain ⟨⟨i, k'⟩, hk', hout⟩ := Option.map_eq_some_iff.1 (hstep (by simp))
      obtain ⟨rfl, hview'⟩ := Prod.mk.inj hout
      simp [hk', outcome, hview']
    | true =>
      rw [if_pos rfl, List.append_nil]
      cases hnext : R.next buffer with
      | none =>
        obtain ⟨k', hk', hseen, hopen⟩ := hwait rfl hnext
        rw [Scanner.frames_of_none hnext, hk']
        simp [acts, outcome, hseen, hopen]
      | some x =>
        obtain ⟨f, rest⟩ := x
        have hlt : rest.length < n := (R.length_lt hnext).trans_le (Nat.lt_succ_iff.1 h)
        rw [hnext, Reader.poll, if_pos rfl, hnext] at hstep
        have hstep := hstep (by simp)
        rw [Scanner.frames_of_some hnext, acts]
        dsimp only at hstep
        rcases hact : R.act s f with - | ⟨- | i, s'⟩ <;> rw [hact] at hstep
        · rw [Option.map_eq_none_iff.1 hstep]
          rfl
        · obtain ⟨⟨i, k'⟩, hk', hout⟩ := Option.map_eq_some_iff.1 hstep
          obtain ⟨rfl, hview'⟩ := Prod.mk.inj hout
          simp [hk', outcome, hview']
        · obtain ⟨⟨i, k'⟩, hk', hout⟩ := Option.map_eq_some_iff.1 hstep
          obtain ⟨rfl, hview'⟩ := Prod.mk.inj hout
          have hrest := @ih k' (by rw [hview']; exact hlt)
          rw [hview', seenResult, result, if_pos rfl, List.append_nil] at hrest
          have hout : ((polls poll n k').map (prepend [i])).map (outcome seen ∘ Prod.map id view) =
              ((polls poll n k').map (outcome seen ∘ Prod.map id view)).map (prepend [i]) := by
            rw [Option.map_map, Option.map_map]
            rfl
          rw [hk']
          dsimp only
          rw [hout, hrest, Option.map_map, Option.map_map]
          rfl

theorem length_poll_le {c c' : Config α σ} {i : Option ι} (h : R.poll c = some (i, c')) :
    c'.buffer.length ≤ c.buffer.length := by
  obtain ⟨s, isOpen, buffer⟩ := c
  unfold poll at h
  cases isOpen with
  | false =>
    cases h
    exact le_rfl
  | true =>
    cases hnext : R.next buffer with
    | none =>
      simp only [hnext, if_true, Option.some.injEq, Prod.mk.injEq] at h
      obtain ⟨-, rfl⟩ := h
      exact le_rfl
    | some x =>
      obtain ⟨f, rest⟩ := x
      have hlt := R.length_lt hnext
      rcases hact : R.act s f with - | ⟨- | i', s'⟩ <;> simp only [hnext, hact, if_true] at h <;>
        cases h
      · exact Nat.zero_le _
      · exact hlt.le

theorem length_polls_le {n : ℕ} {c c' : Config α σ} {items : List ι}
    (h : polls R.poll n c = some (items, c')) : c'.buffer.length ≤ c.buffer.length := by
  induction n generalizing c items with
  | zero =>
    cases h
    exact le_rfl
  | succ n ih =>
    rw [polls] at h
    rcases hpoll : R.poll c with - | ⟨- | i, c''⟩ <;> simp only [hpoll] at h
    · cases h
    · cases h
      exact length_poll_le hpoll
    · obtain ⟨⟨items', k⟩, hk, hout⟩ := Option.map_eq_some_iff.1 h
      cases hout
      exact (ih hk).trans (length_poll_le hpoll)

theorem length_serve_le {schedule : List (List α × ℕ)} {c c' : Config α σ} {items : List ι}
    (h : serve R.poll Config.arrive schedule c = some (items, c')) :
    c'.buffer.length ≤ c.buffer.length + (arrivals schedule).length := by
  induction schedule generalizing c items with
  | nil =>
    cases h
    exact Nat.le_add_right _ _
  | cons entry schedule ih =>
    obtain ⟨bytes, n⟩ := entry
    have harrive : (c.arrive bytes).buffer.length ≤ c.buffer.length + bytes.length := by
      unfold Config.arrive
      split
      · rw [List.length_append]
      · exact Nat.le_add_right _ _
    rw [serve] at h
    rcases hpolls : polls R.poll n (c.arrive bytes) with - | ⟨items', k⟩ <;>
      simp only [hpolls] at h
    · cases h
    · obtain ⟨⟨items'', k'⟩, hk, hout⟩ := Option.map_eq_some_iff.1 h
      cases hout
      have hle := ih hk
      have hle' := length_polls_le hpolls
      have hlen : (arrivals ((bytes, n) :: schedule)).length =
          bytes.length + (arrivals schedule).length := by
        rw [arrivals, List.map_cons, List.flatten_cons, List.length_append]
        rfl
      omega

theorem serve_append (poll : κ → Option (Option ι × κ)) (arrive : κ → List α → κ)
    (schedule schedule' : List (List α × ℕ)) (k : κ) :
    serve poll arrive (schedule ++ schedule') k =
      match serve poll arrive schedule k with
      | none => none
      | some (items, k') => (serve poll arrive schedule' k').map (prepend items) := by
  induction schedule generalizing k with
  | nil => exact (map_prepend_nil _).symm
  | cons entry schedule ih =>
    obtain ⟨bytes, n⟩ := entry
    rw [List.cons_append, serve, serve]
    rcases polls poll n (arrive k bytes) with - | ⟨items, k'⟩
    · rfl
    · dsimp only
      rw [ih k']
      rcases serve poll arrive schedule k' with - | ⟨items', k''⟩
      · rfl
      · exact map_prepend_map _ _ _

theorem arrive_nil (c : Config α σ) : c.arrive [] = c := by
  obtain ⟨s, isOpen, buffer⟩ := c
  cases isOpen <;> simp [Config.arrive]

/-- **Independence of the pieces**: a run that is polled often enough at its end yields what the
frames of the whole stream give. -/
theorem serve_polls (seen : σ → τ) (schedule : List (List α × ℕ)) {n : ℕ} {c : Config α σ}
    (h : c.buffer.length + (arrivals schedule).length < n) :
    (serve R.poll Config.arrive (schedule ++ [([], n)]) c).map (outcome seen) =
      R.seenResult seen c (arrivals schedule) := by
  have hresult := R.result_serve schedule c []
  rw [List.append_nil] at hresult
  rw [seenResult, hresult, serve_append]
  rcases hserve : serve R.poll Config.arrive schedule c with - | ⟨items, c'⟩
  · rfl
  · have hlt : c'.buffer.length < n := (length_serve_le hserve).trans_lt h
    have hlast : serve R.poll Config.arrive [([], n)] c' =
        polls R.poll n c' := by
      rw [serve, arrive_nil]
      rcases polls R.poll n c' with - | ⟨items', c''⟩
      · rfl
      · simp [serve, prepend]
    have hself : R.Follows id seen R.poll := .of_simulates seen fun c => by simp
    have hall : (polls R.poll n c').map (outcome seen) = R.seenResult seen c' [] :=
      hself.polls_all hlt
    dsimp only
    rw [hlast, map_outcome_prepend, hall, seenResult, Option.map_map, Option.map_map]
    rfl

end Reader

/-! ### Machines that simulate a reader -/

section

variable {κ' : Type} {poll : κ → Option (Option ι × κ)} {poll' : κ' → Option (Option ι × κ')}
  {view : κ → κ'} (hpoll : ∀ k, (poll k).map (Prod.map id view) = poll' (view k))

include hpoll

theorem polls_map (n : ℕ) (k : κ) :
    (polls poll n k).map (Prod.map id view) = polls poll' n (view k) := by
  induction n generalizing k with
  | zero => rfl
  | succ n ih =>
    rw [polls, polls, ← hpoll k]
    rcases poll k with - | ⟨- | i, k'⟩
    · rfl
    · rfl
    · show ((polls poll n k').map (prepend [i])).map (Prod.map id view) =
        (polls poll' n (view k')).map (prepend [i])
      rw [← ih k', Option.map_map, Option.map_map]
      rfl

theorem serve_map {arrive : κ → List α → κ} {arrive' : κ' → List α → κ'}
    (harrive : ∀ k bytes, view (arrive k bytes) = arrive' (view k) bytes)
    (schedule : List (List α × ℕ)) (k : κ) :
    (serve poll arrive schedule k).map (Prod.map id view) =
      serve poll' arrive' schedule (view k) := by
  induction schedule generalizing k with
  | nil => rfl
  | cons entry schedule ih =>
    obtain ⟨bytes, n⟩ := entry
    rw [serve, serve, ← harrive, ← polls_map hpoll]
    rcases polls poll n (arrive k bytes) with - | ⟨items, k'⟩
    · rfl
    · show ((serve poll arrive schedule k').map (prepend items)).map (Prod.map id view) =
        (serve poll' arrive' schedule (view k')).map (prepend items)
      rw [← ih k', Option.map_map, Option.map_map]
      rfl

end

namespace Reader

variable {R : Reader α φ σ ι} {view : κ → Config α σ} {poll : κ → Option (Option ι × κ)}
  {arrive : κ → List α → κ}

/-- What a machine that waits shows after any run. -/
theorem serve_eq (hpoll : ∀ k, (poll k).map (Prod.map id view) = R.poll (view k))
    (harrive : ∀ k bytes, view (arrive k bytes) = (view k).arrive bytes) (seen : σ → τ)
    (schedule : List (List α × ℕ)) {n : ℕ} {k : κ}
    (h : (view k).buffer.length + (arrivals schedule).length < n) :
    (serve poll arrive (schedule ++ [([], n)]) k).map (outcome seen ∘ Prod.map id view) =
      R.seenResult seen (view k) (arrivals schedule) := by
  rw [← Option.map_map, serve_map hpoll harrive, serve_polls seen schedule h]

/-- What a machine shows that has the whole stream before it. -/
theorem Follows.polls_eq {seen : σ → τ} (hpoll : R.Follows view seen poll)
    (harrive : ∀ k bytes, view (arrive k bytes) = (view k).arrive bytes) (stream : List α) {n : ℕ}
    {k : κ} (h : (view k).buffer.length + stream.length < n) :
    (polls poll n (arrive k stream)).map (outcome seen ∘ Prod.map id view) =
      R.seenResult seen (view k) stream := by
  have hlt : (view (arrive k stream)).buffer.length < n := by
    rw [harrive]
    unfold Config.arrive
    split
    · rwa [List.length_append]
    · exact (Nat.le_add_right _ _).trans_lt h
  rw [hpoll.polls_all hlt, harrive, seenResult, result_arrive, List.append_nil, seenResult]

end Reader

end Framing
