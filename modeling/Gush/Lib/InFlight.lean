import Mathlib.Logic.Relation
import Mathlib.Tactic

/-!
# Requests in flight

A ledger of blocks: which of them are asked for, which have arrived, and which requests are pending
with whom. The flag "asked for" and the list of pending requests are kept separately, and a block
may have several pending requests at a time.

`Step` says what may happen to a ledger. The invariants say how flag and list stay together: asked
blocks are backed by a request, the number of copies of a block and the load of a peer are bounded,
and requests are distinct. Each of them has one lemma about a step and one about any number.
-/

namespace InFlight

open Relation

/-- A pending request: for a block, with a peer. -/
structure Entry (β π : Type) where
  block : β
  peer : π
  deriving DecidableEq

structure Ledger (β π : Type) where
  requested : β → Bool
  received : β → Bool
  pending : List (Entry β π)

variable {β π : Type} [DecidableEq β]

namespace Ledger

/-- The number of pending requests for a block. -/
def copies (l : Ledger β π) (b : β) : ℕ := l.pending.countP fun e => e.block = b

/-- The number of pending requests with a peer. -/
def load [DecidableEq π] (l : Ledger β π) (p : π) : ℕ := l.pending.countP fun e => e.peer = p

/-- Asking a peer for a block. -/
def ask (l : Ledger β π) (b : β) (p : π) : Ledger β π where
  requested := Function.update l.requested b true
  received := l.received
  pending := l.pending ++ [⟨b, p⟩]

theorem copies_ask (l : Ledger β π) (b : β) (p : π) (b' : β) :
    (l.ask b p).copies b' = l.copies b' + if b = b' then 1 else 0 := by
  simp [copies, ask, List.countP_append, List.countP_cons]

/-- The flag that an asked block shows afterwards. -/
theorem requested_ask (l : Ledger β π) (b : β) (p : π) (b' : β) :
    (l.ask b p).requested b' = if b = b' then true else l.requested b' := by
  by_cases hb : b = b'
  · subst hb
    simp [ask]
  · rw [if_neg hb]
    exact Function.update_of_ne (Ne.symm hb) _ _

theorem load_ask [DecidableEq π] (l : Ledger β π) (b : β) (p p' : π) :
    (l.ask b p).load p' = l.load p' + if p = p' then 1 else 0 := by
  simp [load, ask, List.countP_append, List.countP_cons]

/-- Without the entry at one place there is one copy less of its block. -/
theorem copies_of_cut {l l' : Ledger β π} {e : Entry β π} {before after : List (Entry β π)}
    (hpending : l.pending = before ++ e :: after) (hpending' : l'.pending = before ++ after) (b : β) :
    l.copies b = l'.copies b + if e.block = b then 1 else 0 := by
  rw [copies, copies, hpending, hpending', List.countP_append, List.countP_append,
    List.countP_cons]
  simp [Nat.add_assoc]

end Ledger

variable [DecidableEq π]

/-- What may happen to a ledger. A peer has at most `cap` pending requests; a block that is already
asked for is asked for again only under `mayCopy`, from a peer that does not have it yet,
and with less than two copies around. Under `strict` no peer is asked twice for a block. -/
inductive Step (cap : ℕ) (mayCopy strict : Prop) : Ledger β π → Ledger β π → Prop
  | ask {l : Ledger β π} {b : β} {p : π} (hreceived : l.received b = false)
      (hload : l.load p < cap)
      (hcopy : l.requested b = true → mayCopy ∧ ⟨b, p⟩ ∉ l.pending ∧ l.copies b < 2)
      (hstrict : strict → ⟨b, p⟩ ∉ l.pending) : Step cap mayCopy strict l (l.ask b p)
  /-- Some requests are given up. Of each block either nothing is given up, or the flag is cleared
  although copies may remain. -/
  | release {l l' : Ledger β π} (hsub : l'.pending.Sublist l.pending)
      (hreceived : l'.received = l.received)
      (hblock : ∀ b, (l'.copies b = l.copies b ∧ l'.requested b = l.requested b) ∨
        (l'.copies b < l.copies b ∧ l'.requested b = false)) : Step cap mayCopy strict l l'
  /-- Blocks arrive, or are thrown away after they did. A block that has not arrived afterwards is
  as it was, or it has no request and no flag. -/
  | settle {l l' : Ledger β π} (hsub : l'.pending.Sublist l.pending)
      (hblock : ∀ b, l'.received b = false →
        (l.received b = false ∧ l'.copies b = l.copies b ∧ l'.requested b = l.requested b) ∨
        (l'.copies b = 0 ∧ l'.requested b = false))
      (hclear : l.pending.Nodup → ∀ b, l.received b = false → l'.received b = true →
        l'.copies b = 0) : Step cap mayCopy strict l l'

/-- Any number of steps. -/
abbrev Steps (cap : ℕ) (mayCopy strict : Prop) : Ledger β π → Ledger β π → Prop :=
  ReflTransGen (Step cap mayCopy strict)

variable {cap : ℕ} {mayCopy strict : Prop} {l l' : Ledger β π}

/-- What every step preserves, any number of steps preserves. -/
theorem Steps.preserve {P : Ledger β π → Prop}
    (hstep : ∀ {l l' : Ledger β π}, Step cap mayCopy strict l l' → P l → P l')
    (h : Steps cap mayCopy strict l l') (hl : P l) : P l' := by
  induction h with
  | refl => exact hl
  | tail _ hlast ih => exact hstep hlast ih

/-! ### Ways to take a step -/

/-- Giving up all requests of some kind clears the flags of their blocks. The requests may be kept
as records `ρ` that say more than an entry. -/
theorem Step.giveUp {ρ : Type} (entry : ρ → Entry β π) (records : List ρ) (selected : ρ → Bool)
    (hpending : l.pending = records.map entry)
    (hpending' : l'.pending = (records.filter fun r => !selected r).map entry)
    (hreceived : l'.received = l.received)
    (hrequested : ∀ b, l'.requested b =
      (l.requested b && !records.any fun r => selected r && decide ((entry r).block = b))) :
    Step cap mayCopy strict l l' := by
  have hcopies : ∀ b, l.copies b = l'.copies b +
      records.countP fun r => selected r && decide ((entry r).block = b) := by
    intro b
    rw [Ledger.copies, Ledger.copies, hpending, hpending', List.countP_map, List.countP_map,
      List.countP_filter, List.countP_eq_countP_filter_add _ _ fun r => !selected r,
      List.countP_filter, List.countP_filter]
    congr 1
    apply List.countP_congr
    intro r _
    simp [and_comm]
  refine .release (by rw [hpending, hpending']; exact List.filter_sublist.map entry) hreceived
    fun b => ?_
  cases hany : records.any fun r => selected r && decide ((entry r).block = b) with
  | false =>
    have hzero : records.countP (fun r => selected r && decide ((entry r).block = b)) = 0 := by
      rw [List.countP_eq_zero]
      intro r hr
      exact Bool.not_eq_true _ ▸ List.any_eq_false.1 hany r hr
    have hb := hcopies b
    exact .inl ⟨by omega, by rw [hrequested, hany]; simp⟩
  | true =>
    obtain ⟨r, hr, hsel⟩ := List.any_eq_true.1 hany
    have hpos : 0 < records.countP fun r => selected r && decide ((entry r).block = b) :=
      List.countP_pos_iff.2 ⟨r, hr, hsel⟩
    have hb := hcopies b
    exact .inr ⟨by omega, by rw [hrequested, hany]; simp⟩

/-- Giving up a single request clears the flag of its block. -/
theorem Step.giveUpOne {e : Entry β π} {before after : List (Entry β π)}
    (hpending : l.pending = before ++ e :: after) (hpending' : l'.pending = before ++ after)
    (hreceived : l'.received = l.received)
    (hrequested : ∀ b, l'.requested b = (l.requested b && decide (e.block ≠ b))) :
    Step cap mayCopy strict l l' := by
  refine .release (by rw [hpending, hpending']; simp) hreceived fun b => ?_
  have hcopies := Ledger.copies_of_cut hpending hpending' b
  by_cases hb : e.block = b
  · rw [if_pos hb] at hcopies
    exact .inr ⟨by omega, by simp [hrequested, hb]⟩
  · rw [if_neg hb] at hcopies
    exact .inl ⟨by omega, by simp [hrequested, hb]⟩

/-- A request for a block that has arrived may be dropped. -/
theorem Step.discard {e : Entry β π} {before after : List (Entry β π)}
    (hpending : l.pending = before ++ e :: after) (hpending' : l'.pending = before ++ after)
    (hreceived : l'.received = l.received) (hrequested : l'.requested = l.requested)
    (he : l.received e.block = true) : Step cap mayCopy strict l l' := by
  refine .settle (by rw [hpending, hpending']; simp) (fun b hb => .inl ?_) fun _ b hold hnew => ?_
  · rw [hreceived] at hb
    have hne : e.block ≠ b := by
      rintro rfl
      rw [hb] at he
      cases he
    have hcopies := Ledger.copies_of_cut hpending hpending' b
    rw [if_neg hne] at hcopies
    exact ⟨hb, by omega, by rw [hrequested]⟩
  · rw [hreceived, hold] at hnew
    cases hnew

/-! ### Asked blocks are backed by a request -/

/-- A block that is asked for and has not arrived has a pending request. -/
def Backed (l : Ledger β π) : Prop :=
  ∀ b, l.requested b = true → l.received b = false → 0 < l.copies b

theorem Step.backed (h : Step cap mayCopy strict l l') (hl : Backed l) : Backed l' := by
  intro b hreq hrec
  cases h with
  | @ask b₀ p hreceived hload hcopy hstrict =>
    rw [Ledger.copies_ask]
    by_cases hb : b₀ = b
    · rw [if_pos hb]
      omega
    · have hreq' : l.requested b = true := by
        simpa [Ledger.ask, Function.update_of_ne (Ne.symm hb)] using hreq
      have hpos := hl b hreq' hrec
      omega
  | release hsub hreceived hblock =>
    rcases hblock b with ⟨hcopies, hflag⟩ | ⟨-, hflag⟩
    · rw [hcopies]
      exact hl b (hflag ▸ hreq) (hreceived ▸ hrec)
    · rw [hflag] at hreq
      cases hreq
  | settle hsub hblock hclear =>
    rcases hblock b hrec with ⟨hrec', hcopies, hflag⟩ | ⟨-, hflag⟩
    · rw [hcopies]
      exact hl b (hflag ▸ hreq) hrec'
    · rw [hflag] at hreq
      cases hreq

theorem Steps.backed (h : Steps cap mayCopy strict l l') (hl : Backed l) : Backed l' :=
  h.preserve (fun hstep => hstep.backed) hl

/-! ### The number of copies -/

/-- A block has at most two copies, and at most one if it has not arrived and its flag is off. -/
def Bounded (l : Ledger β π) : Prop :=
  ∀ b, l.copies b ≤ 2 ∧ (l.received b = false → l.requested b = false → l.copies b ≤ 1)

/-- A block has at most one copy, and none if it has not arrived and its flag is off. -/
def Single (l : Ledger β π) : Prop :=
  ∀ b, l.copies b ≤ 1 ∧ (l.received b = false → l.requested b = false → l.copies b = 0)

/-- A block has at most `n + 1` copies, and at most `n` if it has not arrived and its flag is off. -/
def AtMost (n : ℕ) (l : Ledger β π) : Prop :=
  ∀ b, l.copies b ≤ n + 1 ∧ (l.received b = false → l.requested b = false → l.copies b ≤ n)

omit [DecidableEq π] in
theorem bounded_iff_atMost : Bounded l ↔ AtMost 1 l := Iff.rfl

omit [DecidableEq π] in
theorem single_iff_atMost : Single l ↔ AtMost 0 l := by
  simp only [Single, AtMost, Nat.le_zero, Nat.zero_add]

/-- A block whose flag is on is asked for again only if it may be copied and has one copy. -/
theorem Step.atMost {n : ℕ} (hn : mayCopy → 1 ≤ n) (h : Step cap mayCopy strict l l')
    (hl : AtMost n l) : AtMost n l' := by
  intro b
  cases h with
  | @ask b₀ p hreceived hload hcopy hstrict =>
    rw [Ledger.copies_ask, Ledger.requested_ask]
    by_cases hb : b₀ = b
    · subst hb
      obtain ⟨-, hle⟩ := hl b₀
      rw [if_pos rfl, if_pos rfl]
      refine ⟨?_, fun _ hoff => by cases hoff⟩
      cases hflag : l.requested b₀ with
      | false =>
        have hle := hle hreceived hflag
        omega
      | true =>
        obtain ⟨hmay, -, hlt⟩ := hcopy hflag
        have hone := hn hmay
        omega
    · rw [if_neg hb, if_neg hb]
      exact hl b
  | release hsub hreceived hblock =>
    obtain ⟨hmost, hle⟩ := hl b
    rcases hblock b with ⟨hcopies, hflag⟩ | ⟨hlt, hflag⟩
    · rw [hcopies, hflag, hreceived]
      exact ⟨hmost, hle⟩
    · exact ⟨by omega, fun _ _ => by omega⟩
  | settle hsub hblock hclear =>
    obtain ⟨hmost, hle⟩ := hl b
    -- a block that has arrived keeps no more copies than it had
    refine ⟨hsub.countP_le.trans hmost, fun hrec hoff => ?_⟩
    rcases hblock b hrec with ⟨hrec', hcopies, hflag⟩ | ⟨hzero, -⟩
    · rw [hcopies]
      exact hle hrec' (hflag ▸ hoff)
    · omega

theorem Step.bounded (h : Step cap mayCopy strict l l') (hl : Bounded l) : Bounded l' :=
  bounded_iff_atMost.2 (h.atMost (fun _ => le_rfl) (bounded_iff_atMost.1 hl))

theorem Steps.bounded (h : Steps cap mayCopy strict l l') (hl : Bounded l) : Bounded l' :=
  h.preserve (fun hstep => hstep.bounded) hl

/-- If no block may be copied, there is one copy at most. -/
theorem Step.single_copy (hend : ¬ mayCopy) (h : Step cap mayCopy strict l l') (hl : Single l) :
    Single l' :=
  single_iff_atMost.2 (h.atMost (fun hmay => absurd hmay hend) (single_iff_atMost.1 hl))

theorem Steps.single_copy (hend : ¬ mayCopy) (h : Steps cap mayCopy strict l l') (hl : Single l) :
    Single l' :=
  h.preserve (fun hstep => hstep.single_copy hend) hl

/-! ### The load of a peer -/

/-- No peer has more than `cap` pending requests. -/
def WithinCap (cap : ℕ) (l : Ledger β π) : Prop := ∀ p, l.load p ≤ cap

theorem Step.withinCap (h : Step cap mayCopy strict l l') (hl : WithinCap cap l) :
    WithinCap cap l' := by
  intro p
  cases h with
  | @ask b p₀ hreceived hload hcopy hstrict =>
    rw [Ledger.load_ask]
    by_cases hp : p₀ = p
    · subst hp
      rw [if_pos rfl]
      omega
    · rw [if_neg hp]
      exact hl p
  | release hsub hreceived hblock => exact (hsub.countP_le).trans (hl p)
  | settle hsub hblock hclear => exact (hsub.countP_le).trans (hl p)

theorem Steps.withinCap (h : Steps cap mayCopy strict l l') (hl : WithinCap cap l) :
    WithinCap cap l' :=
  h.preserve (fun hstep => hstep.withinCap) hl

/-! ### Distinct requests -/

/-- No peer is asked twice for a block, and nobody is asked for a block that has arrived. -/
structure Distinct (l : Ledger β π) : Prop where
  nodup : l.pending.Nodup
  missing : ∀ b, l.received b = true → l.copies b = 0

theorem Step.distinct (hstrict : strict) (h : Step cap mayCopy strict l l') (hl : Distinct l) :
    Distinct l' := by
  cases h with
  | @ask b₀ p hreceived hload hcopy hfresh =>
    constructor
    · exact List.nodup_append.2 ⟨hl.nodup, List.nodup_singleton _, fun e he e' he' heq =>
        hfresh hstrict (List.mem_singleton.1 he' ▸ heq ▸ he)⟩
    · intro b hrec
      -- the new request is for a block that has not arrived
      have hne : b₀ ≠ b := by
        rintro rfl
        rw [show (l.ask b₀ p).received b₀ = l.received b₀ from rfl, hreceived] at hrec
        cases hrec
      rw [Ledger.copies_ask, if_neg hne]
      exact hl.missing b hrec
  | release hsub hreceived hblock =>
    refine ⟨hsub.nodup hl.nodup, fun b hrec => ?_⟩
    exact Nat.le_zero.1 (hl.missing b (hreceived ▸ hrec) ▸ hsub.countP_le)
  | settle hsub hblock hclear =>
    refine ⟨hsub.nodup hl.nodup, fun b hrec => ?_⟩
    cases hold : l.received b with
    | false => exact hclear hl.nodup b hold hrec
    | true => exact Nat.le_zero.1 (hl.missing b hold ▸ hsub.countP_le)

theorem Steps.distinct (hstrict : strict) (h : Steps cap mayCopy strict l l') (hl : Distinct l) :
    Distinct l' :=
  h.preserve (fun hstep => hstep.distinct hstrict) hl

/-! ### A single peer -/

/-- All requests are with one peer, and their blocks are marked. -/
def Lone (p : π) (l : Ledger β π) : Prop := ∀ e ∈ l.pending, e.peer = p ∧ l.requested e.block = true

omit [DecidableEq π] in
theorem Lone.ask {p : π} (h : Lone p l) (b : β) : Lone p (l.ask b p) := by
  intro e he
  rw [Ledger.requested_ask]
  rcases List.mem_append.1 he with he | he
  · obtain ⟨hpeer, hrequested⟩ := h e he
    refine ⟨hpeer, ?_⟩
    split_ifs
    · rfl
    · exact hrequested
  · rw [List.mem_singleton.1 he]
    exact ⟨rfl, if_pos rfl⟩

end InFlight
