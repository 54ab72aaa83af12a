import Gush.Downloader.Frames
import Gush.Lib.InFlight

/-!
# Blocks in flight

The flags `blocksRequested` and the list `pendingRequests_` form a ledger of blocks in flight, and
every step of a run is a number of steps of that ledger (`steps_of_step`). What holds of ledgers
over any number of steps therefore holds of every state of a run.
-/

namespace Gush.Downloader

open Cxx Posix InFlight

/-! ### The ledger of a state -/

/-- The pending request of a block with a peer. -/
def entry (req : BlockRequest) : Entry (ℕ × ℕ) ℕ := ⟨blockAt req.pieceIndex req.offset, req.peer⟩

/-- The ledger: blocks are pairs of a piece index and a block index. -/
def ledger (d : Downloader) : Ledger (ℕ × ℕ) ℕ where
  requested := fun b => d.blockRequested b.1 b.2
  received := fun b => d.blockReceived b.1 b.2
  pending := d.pendingRequests.map entry

/-- The piece states have their shape, pieces have at most `2 ^ 18` blocks, and every pending
request is for the start of a block. -/
structure Orderly (d : Downloader) : Prop where
  wellFormed : d.WellFormed
  blockCount_le : ∀ i, d.blockCount i ≤ 2 ^ 18
  pending : ∀ req ∈ d.pendingRequests, req.offset % blockSize = 0 ∧
    req.offset / blockSize < d.blockCount req.pieceIndex

/-- Within the frame only the pending requests need a look. -/
theorem Orderly.of_frame {d d' : Downloader} (hd : Orderly d) (h : Frame d d')
    (hpending : ∀ req ∈ d'.pendingRequests, req ∈ d.pendingRequests ∨
      (req.offset % blockSize = 0 ∧ req.offset / blockSize < d.blockCount req.pieceIndex)) :
    Orderly d' where
  wellFormed := h.wellFormed hd.wellFormed
  blockCount_le := fun i => h.blockCount i ▸ hd.blockCount_le i
  pending := by
    intro req hreq
    rw [h.blockCount]
    rcases hpending req hreq with hold | hnew
    · exact hd.pending req hold
    · exact hnew

/-- Dropping requests keeps a state orderly. -/
theorem Orderly.of_kept {d d' : Downloader} (hd : Orderly d) (hwf : d'.WellFormed)
    (hcount : ∀ i, d'.blockCount i = d.blockCount i)
    (hpending : ∀ req ∈ d'.pendingRequests, req ∈ d.pendingRequests) : Orderly d' where
  wellFormed := hwf
  blockCount_le := fun i => hcount i ▸ hd.blockCount_le i
  pending := fun req hreq => hcount req.pieceIndex ▸ hd.pending req (hpending req hreq)

/-- The block index in a request is found from its offset and determines it. -/
theorem Orderly.offset_eq_iff {d : Downloader} (hd : Orderly d) {req : BlockRequest}
    (hreq : req ∈ d.pendingRequests) (i : ℕ) :
    req.offset = i * blockSize ↔ req.offset / blockSize = i := by
  have hmod := (hd.pending req hreq).1
  unfold blockSize at *
  omega

theorem uint32_block {d : Downloader} (hd : Orderly d) {pieceIndex i : ℕ}
    (hi : i < d.blockCount pieceIndex) : uint32 ((i * blockSize : ℕ) : ℤ) = i * blockSize := by
  have hle := hd.blockCount_le pieceIndex
  apply uint32_of_lt
  unfold blockSize
  omega

/-! ### Asking -/

theorem ledger_addRequest {d : Downloader} (hd : Orderly d) {pieceIndex i : ℕ}
    (hi : i < d.blockCount pieceIndex) (ptr : ℕ) (now : ℤ) :
    (d.addRequest pieceIndex i ptr now).ledger = d.ledger.ask (pieceIndex, i) ptr := by
  have hrequested : ∀ b : ℕ × ℕ, (d.addRequest pieceIndex i ptr now).blockRequested b.1 b.2 =
      Function.update (fun b : ℕ × ℕ => d.blockRequested b.1 b.2) (pieceIndex, i) true b := by
    rintro ⟨j, c⟩
    show (d.setRequested pieceIndex i true).blockRequested j c = _
    rw [blockRequested_setRequested, hd.wellFormed.requested_length]
    by_cases hb : (j, c) = (pieceIndex, i)
    · obtain ⟨rfl, rfl⟩ := Prod.mk.inj hb
      rw [if_pos ⟨rfl, rfl, hi⟩, Function.update_self]
    · rw [Function.update_of_ne hb, if_neg]
      rintro ⟨rfl, rfl, -⟩
      exact hb rfl
  have hreceived : ∀ b : ℕ × ℕ,
      (d.addRequest pieceIndex i ptr now).blockReceived b.1 b.2 = d.blockReceived b.1 b.2 :=
    fun b => (frame_addRequest d pieceIndex i ptr now).blockReceived b.1 b.2
  have hoffset : uint32 ((i : ℤ) * blockSize) / blockSize = i := by
    have huint := uint32_block hd hi
    push_cast at huint
    rw [huint]
    exact Nat.mul_div_cancel i (by decide)
  simp only [ledger, Ledger.ask, Ledger.mk.injEq]
  refine ⟨funext hrequested, funext hreceived, ?_⟩
  simp [addRequest, setRequested, modifyPiece, entry, blockAt, hoffset]

theorem orderly_addRequest {d : Downloader} (hd : Orderly d) {pieceIndex i : ℕ}
    (hi : i < d.blockCount pieceIndex) (ptr : ℕ) (now : ℤ) :
    Orderly (d.addRequest pieceIndex i ptr now) := by
  refine hd.of_frame (frame_addRequest d pieceIndex i ptr now) fun req hreq => ?_
  have huint := uint32_block hd hi
  push_cast at huint
  rcases List.mem_append.1 hreq with hold | hnew
  · exact .inl hold
  · rw [List.mem_singleton.1 hnew]
    refine .inr ⟨?_, ?_⟩
    · simp only [huint]
      exact Nat.mul_mod_left i blockSize
    · simp only [huint]
      rwa [Nat.mul_div_cancel i (by decide)]

/-- The scan finds a copy of the peer, or counts the copies of the others. -/
theorem scanCopies_spec (pieceIndex offset ptr : ℕ) (reqs : List BlockRequest) :
    ∀ n, (scanCopies pieceIndex offset ptr reqs n).1 = false →
      (∀ req ∈ reqs, req.pieceIndex = pieceIndex → req.offset = offset → req.peer ≠ ptr) ∧
      (scanCopies pieceIndex offset ptr reqs n).2 = n +
        reqs.countP fun req => decide (req.pieceIndex = pieceIndex ∧ req.offset = offset) := by
  induction reqs with
  | nil => simp [scanCopies]
  | cons req reqs ih =>
    intro n h
    rw [scanCopies] at h ⊢
    split_ifs at h ⊢ with hmatch hpeer
    · obtain ⟨hall, hcount⟩ := ih (n + 1) h
      refine ⟨fun r hr => ?_, ?_⟩
      · rcases List.mem_cons.1 hr with rfl | hr
        · exact fun _ _ => hpeer
        · exact hall r hr
      · rw [hcount, List.countP_cons, if_pos (decide_eq_true hmatch)]
        omega
    · obtain ⟨hall, hcount⟩ := ih n h
      refine ⟨fun r hr => ?_, ?_⟩
      · rcases List.mem_cons.1 hr with rfl | hr
        · exact fun hp ho => absurd ⟨hp, ho⟩ hmatch
        · exact hall r hr
      · rw [hcount, List.countP_cons, if_neg (by simpa using hmatch), Nat.add_zero]

/-- A block in flight that is not skipped: endgame is on, the peer has no copy and there are less
than two. -/
theorem of_not_skipsInFlight {d : Downloader} (hd : Orderly d) {pieceIndex i ptr : ℕ}
    (hi : i < d.blockCount pieceIndex) (h : d.skipsInFlight pieceIndex i ptr = false) :
    d.endgame = true ∧ ⟨(pieceIndex, i), ptr⟩ ∉ d.ledger.pending ∧
      d.ledger.copies (pieceIndex, i) < 2 := by
  have huint := uint32_block hd hi
  push_cast at huint
  unfold skipsInFlight at h
  rw [huint] at h
  simp only [Bool.or_eq_false_iff, Bool.not_eq_false', decide_eq_false_iff_not, not_le] at h
  obtain ⟨⟨hend, hscan⟩, hlt⟩ := h
  obtain ⟨hall, hcount⟩ := scanCopies_spec pieceIndex (i * blockSize) ptr d.pendingRequests 0 hscan
  refine ⟨hend, fun hmem => ?_, ?_⟩
  · obtain ⟨req, hreq, heq⟩ := List.mem_map.1 hmem
    obtain ⟨hblock, hpeer⟩ := Entry.mk.inj heq
    obtain ⟨hpiece, hoff⟩ := Prod.mk.inj hblock
    exact hall req hreq hpiece ((hd.offset_eq_iff hreq i).2 hoff) hpeer
  · have hcopies : d.ledger.copies (pieceIndex, i) = d.pendingRequests.countP fun req =>
        decide (req.pieceIndex = pieceIndex ∧ req.offset = i * blockSize) := by
      rw [Ledger.copies, ledger, List.countP_map]
      apply List.countP_congr
      intro req hreq
      simp [entry, blockAt, hd.offset_eq_iff hreq i]
    omega

/-- The number of requests to a peer is its load in the ledger. -/
theorem currentRequests_eq_load (d : Downloader) (ptr : ℕ) :
    d.currentRequests ptr = d.ledger.load ptr := by
  rw [currentRequests, Ledger.load, ledger, List.countP_map]
  rfl

/-- The bound on the requests to a peer, as a number. -/
def requestCap (d : Downloader) : ℕ := d.options.maxRequestsPerPeer.toNat

/-- A request of the loop is an asking step of the ledger. -/
theorem step_addRequest {strict : Prop} {d : Downloader} (hd : Orderly d) {pieceIndex i ptr : ℕ}
    (hi : i < d.blockCount pieceIndex)
    (hroom : ¬ d.currentRequests ptr ≥ d.options.maxRequestsPerPeer)
    (hreceived : ¬ d.blockReceived pieceIndex i = true)
    (hflight : ¬ (d.blockRequested pieceIndex i && d.skipsInFlight pieceIndex i ptr) = true)
    (hstrict : strict → d.blockRequested pieceIndex i = false →
      ⟨(pieceIndex, i), ptr⟩ ∉ d.ledger.pending) (now : ℤ) :
    Step d.requestCap (d.endgame = true) strict d.ledger
      (d.addRequest pieceIndex i ptr now).ledger := by
  have hreceived' : d.blockReceived pieceIndex i = false := by simpa using hreceived
  have hcopy : d.ledger.requested (pieceIndex, i) = true → d.endgame = true ∧
      ⟨(pieceIndex, i), ptr⟩ ∉ d.ledger.pending ∧ d.ledger.copies (pieceIndex, i) < 2 := by
    intro hflag
    have hflag' : d.blockRequested pieceIndex i = true := hflag
    rw [hflag', Bool.true_and, Bool.not_eq_true] at hflight
    exact of_not_skipsInFlight hd hi hflight
  have hfresh : strict → ⟨(pieceIndex, i), ptr⟩ ∉ d.ledger.pending := by
    intro hs
    cases hflag : d.blockRequested pieceIndex i with
    | false => exact hstrict hs hflag
    | true => exact (hcopy hflag).2.1
  -- the number of requests is the load of the peer, and there is room
  have hload : d.ledger.load ptr < d.requestCap := by
    rw [currentRequests_eq_load] at hroom
    unfold requestCap
    omega
  rw [ledger_addRequest hd hi]
  exact .ask hreceived' hload hcopy hfresh

/-- The request loop asks for one block after the other. -/
theorem steps_requestLoop {strict : Prop} {cap : ℕ} {endgame : Bool} (pieceIndex ptr : ℕ) (now : ℤ)
    (blocks : List ℕ) : ∀ (currentRequests : ℤ) (sends : List Bool) {d : Downloader}, Orderly d →
      d.requestCap = cap → d.endgame = endgame → currentRequests = d.currentRequests ptr →
      blocks.Nodup → (∀ i ∈ blocks, i < d.blockCount pieceIndex) →
      (strict → ∀ i ∈ blocks, d.blockReceived pieceIndex i = false →
        d.blockRequested pieceIndex i = false → ⟨(pieceIndex, i), ptr⟩ ∉ d.ledger.pending) →
      Steps cap (endgame = true) strict d.ledger
        (requestLoop pieceIndex ptr now blocks currentRequests sends d).ledger ∧
      Orderly (requestLoop pieceIndex ptr now blocks currentRequests sends d) := by
  induction blocks with
  | nil => exact fun _ _ d hd _ _ _ _ _ _ => ⟨.refl, hd⟩
  | cons i blocks ih =>
    intro currentRequests sends d hd hcap hend hcurrent hnodup hblocks hstrict
    have hi : i < d.blockCount pieceIndex := hblocks i List.mem_cons_self
    rw [List.nodup_cons] at hnodup
    have hrest : ∀ j ∈ blocks, j < d.blockCount pieceIndex :=
      fun j hj => hblocks j (List.mem_cons_of_mem i hj)
    have hskip := ih currentRequests sends hd hcap hend hcurrent hnodup.2 hrest
      fun hs j hj => hstrict hs j (List.mem_cons_of_mem i hj)
    rw [requestLoop]
    split_ifs with hroom hreceived hflight hsend
    · exact ⟨.refl, hd⟩
    · exact hskip
    · exact hskip
    -- the block is asked for
    · have hask : Step cap (endgame = true) strict d.ledger
          (d.addRequest pieceIndex i ptr now).ledger := by
        rw [← hcap, ← hend]
        refine step_addRequest hd hi (hcurrent ▸ hroom) hreceived hflight ?_ now
        exact fun hs hflag => hstrict hs i List.mem_cons_self (by simpa using hreceived) hflag
      have hframe := frame_addRequest d pieceIndex i ptr now
      have hledger := ledger_addRequest hd hi ptr now
      obtain ⟨hsteps, horderly⟩ := ih (currentRequests + 1) sends.tail
        (orderly_addRequest hd hi ptr now) (by rw [requestCap, hframe.options]; exact hcap)
        hend (by
          rw [hcurrent, currentRequests_eq_load, currentRequests_eq_load, hledger,
            Ledger.load_ask, if_pos rfl]
          push_cast
          rfl)
        hnodup.2 (fun j hj => hframe.blockCount pieceIndex ▸ hrest j hj) (by
          intro hs j hj hrec hflag
          have hne : i ≠ j := fun h => hnodup.1 (h ▸ hj)
          have hflag' : (d.addRequest pieceIndex i ptr now).ledger.requested (pieceIndex, j) =
              false := hflag
          rw [hledger, Ledger.requested_ask, if_neg (by simp [hne])] at hflag'
          rw [hframe.blockReceived] at hrec
          rw [hledger]
          intro hmem
          rcases List.mem_append.1 hmem with hold | hnew
          · exact hstrict hs j (List.mem_cons_of_mem i hj) hrec hflag' hold
          · simp [Ne.symm hne] at hnew)
      exact ⟨.head hask hsteps, horderly⟩
    · exact ⟨.refl, hd.of_frame (frame_disconnect d ptr) fun req hreq => .inl hreq⟩

/-- The requests of a peer for missing blocks of the piece that a call would go through still have
their flags. -/
def Flagged (d : Downloader) (ptr : ℕ) : Prop :=
  ∀ pieceIndex, d.requestTarget ptr = some pieceIndex → ∀ req ∈ d.pendingRequests,
    req.pieceIndex = pieceIndex → req.peer = ptr →
    d.blockReceived pieceIndex (req.offset / blockSize) = false →
    d.blockRequested pieceIndex (req.offset / blockSize) = true

theorem steps_requestBlocksFromPeer {strict : Prop} {d : Downloader} (hd : Orderly d) {ptr : ℕ}
    (hstrict : strict → d.Flagged ptr) (sends : List Bool) (now : ℤ) :
    Steps d.requestCap (d.endgame = true) strict d.ledger
        (d.requestBlocksFromPeer ptr sends now).ledger ∧
      Orderly (d.requestBlocksFromPeer ptr sends now) := by
  unfold requestBlocksFromPeer
  split
  · exact ⟨.refl, hd⟩
  · rename_i pieceIndex htarget
    refine steps_requestLoop pieceIndex ptr now _ _ sends hd rfl rfl rfl List.nodup_range
      (fun i hi => List.mem_range.1 hi) fun hs i _ hreceived hflag hmem => ?_
    obtain ⟨req, hreq, heq⟩ := List.mem_map.1 hmem
    obtain ⟨hblock, hpeer⟩ := Entry.mk.inj heq
    obtain ⟨hpiece, rfl⟩ := Prod.mk.inj hblock
    rw [hstrict hs pieceIndex htarget req hreq hpiece hpeer hreceived] at hflag
    cases hflag

/-! ### Giving up -/

/-- Erasing requests with the flags of their blocks is giving them up. -/
theorem step_eraseRequests {cap : ℕ} {endgame strict : Prop} {selected : BlockRequest → Bool}
    {onErase : BlockRequest → Downloader → Downloader} (h : Clears selected onErase)
    {d : Downloader} (hd : Orderly d) :
    Step cap endgame strict d.ledger (d.eraseRequests selected onErase).ledger ∧
      Orderly (d.eraseRequests selected onErase) := by
  constructor
  · apply Step.giveUp entry d.pendingRequests selected rfl
    · show (d.eraseRequests selected onErase).pendingRequests.map entry = _
      rw [pendingRequests_eraseRequests]
    · exact funext fun b => (h.frame_eraseRequests d).blockReceived b.1 b.2
    · exact fun b => h.blockRequested_eraseRequests hd.wellFormed b.1 b.2
  · refine hd.of_frame (h.frame_eraseRequests d) fun req hreq => .inl ?_
    rw [pendingRequests_eraseRequests] at hreq
    exact List.mem_of_mem_filter hreq

/-! ### Blocks that arrive -/

/-- Copies of a block are not touched by dropping requests for other blocks. -/
theorem copies_of_filter {d d' : Downloader} {req : BlockRequest} {before after : List BlockRequest}
    {keep : BlockRequest → Bool} (hsplit : d.pendingRequests = before ++ req :: after)
    (hpending : d'.pendingRequests = (before ++ after).filter keep) {b : ℕ × ℕ}
    (hreq : (entry req).block ≠ b) (hkeep : ∀ r, keep r = false → (entry r).block ≠ b) :
    d'.ledger.copies b = d.ledger.copies b := by
  have hfilter : ((before ++ after).filter keep).countP (fun r => decide ((entry r).block = b)) =
      (before ++ after).countP fun r => decide ((entry r).block = b) := by
    rw [List.countP_filter]
    apply List.countP_congr
    intro r _
    cases hr : keep r with
    | false => simp [hkeep r hr]
    | true => simp
  let rest : Ledger (ℕ × ℕ) ℕ := { d.ledger with pending := before.map entry ++ after.map entry }
  have hcut : d.ledger.copies b = rest.copies b + if (entry req).block = b then 1 else 0 :=
    Ledger.copies_of_cut (by simp [ledger, hsplit]) rfl b
  have hrest : rest.copies b = (before ++ after).countP fun r => decide ((entry r).block = b) := by
    show (before.map entry ++ after.map entry).countP _ = _
    rw [← List.map_append, List.countP_map]
    rfl
  rw [if_neg hreq, Nat.add_zero, hrest] at hcut
  rw [hcut, Ledger.copies, ledger, hpending, List.countP_map]
  exact hfilter

/-- A duplicate that is cancelled is a request for the block at this offset. -/
theorem block_of_duplicate {pieceIndex offset keep : ℕ} {req : BlockRequest}
    (h : req.pieceIndex = pieceIndex ∧ req.offset = offset ∧ req.peer ≠ keep) :
    (entry req).block = blockAt pieceIndex offset := by
  rw [entry, h.1, h.2.1]

section Settled

variable {d : Downloader} {pieceIndex offset ptr : ℕ} {req : BlockRequest}
  {before after : List BlockRequest}

/-- The requests that are left without the answered one were pending before. -/
theorem mem_of_kept (hsplit : d.pendingRequests = before ++ req :: after) :
    ∀ r ∈ before ++ after, r ∈ d.pendingRequests := by
  intro r hr
  rw [hsplit]
  rcases List.mem_append.1 hr with h | h
  · exact List.mem_append_left _ h
  · exact List.mem_append_right _ (List.mem_cons_of_mem req h)

/-- The answered request among the copies of the ledger. -/
theorem pending_split (hsplit : d.pendingRequests = before ++ req :: after) :
    d.ledger.pending = before.map entry ++ entry req :: after.map entry := by
  simp [ledger, hsplit]

/-- A block of the wrong length has arrived: its request is given up. -/
theorem step_of_wrongLength {cap : ℕ} {endgame strict : Prop} (hd : Orderly d)
    (hfind : d.pendingRequests.find? (answers pieceIndex offset ptr) = some req) :
    Step cap endgame strict d.ledger
        ((d.clearRequested pieceIndex offset).eraseAnswered pieceIndex offset ptr).ledger ∧
      Orderly ((d.clearRequested pieceIndex offset).eraseAnswered pieceIndex offset ptr) := by
  obtain ⟨hpiece, hoffset, -, before, after, hsplit, herased⟩ := find_answered hfind
  have hblock : (entry req).block = blockAt pieceIndex offset := by rw [entry, hpiece, hoffset]
  have hframe := frame_clearRequested d pieceIndex offset
  have hpending : ((d.clearRequested pieceIndex offset).eraseAnswered pieceIndex offset
      ptr).pendingRequests = before ++ after := by
    rw [← herased]
    simp [eraseAnswered]
  constructor
  · refine .giveUpOne (pending_split hsplit) ?_ ?_ fun b => ?_
    · rw [← List.map_append, ← hpending]
      rfl
    · exact funext fun b => hframe.blockReceived b.1 b.2
    · rw [hblock]
      exact blockRequested_clearRequested hd.wellFormed _ _ b.1 b.2
  · refine hd.of_kept ((hframe.wellFormed hd.wellFormed).congr rfl rfl rfl)
      hframe.blockCount fun r hr => mem_of_kept hsplit r ?_
    rwa [← hpending]

/-- A block has arrived that is there already: its request is dropped. -/
theorem step_of_dropped {cap : ℕ} {endgame strict : Prop} (hd : Orderly d)
    (hfind : d.pendingRequests.find? (answers pieceIndex offset ptr) = some req)
    (hdrop : ((offset / blockSize : ℕ) : ℤ) ≥ (d.pieceState pieceIndex).totalBlocks ∨
      d.blockReceived pieceIndex (offset / blockSize) = true) :
    Step cap endgame strict d.ledger (d.eraseAnswered pieceIndex offset ptr).ledger ∧
      Orderly (d.eraseAnswered pieceIndex offset ptr) := by
  obtain ⟨hpiece, hoffset, -, before, after, hsplit, herased⟩ := find_answered hfind
  have hblock : (entry req).block = blockAt pieceIndex offset := by rw [entry, hpiece, hoffset]
  have hin := (hd.pending req (by simp [hsplit])).2
  rw [hpiece, hoffset, blockCount, Int.lt_toNat] at hin
  have hreceived : d.blockReceived pieceIndex (offset / blockSize) = true := by
    rcases hdrop with hout | hreceived
    · omega
    · exact hreceived
  constructor
  · refine .discard (pending_split hsplit) ?_ rfl rfl ?_
    · rw [← List.map_append, ← herased]
      rfl
    · rw [hblock]
      exact hreceived
  · exact hd.of_kept (hd.wellFormed.congr rfl rfl rfl) (fun _ => rfl)
      fun r hr => mem_of_kept hsplit r (herased ▸ hr)

/-- A block has arrived and its duplicates are cancelled: only this block changes. -/
theorem step_of_arrived {cap : ℕ} {endgame strict : Prop} {d' : Downloader} (hd : Orderly d)
    (hreq : req.pieceIndex = pieceIndex ∧ req.offset = offset ∧ req.peer = ptr)
    (hsplit : d.pendingRequests = before ++ req :: after)
    (hpending : d'.pendingRequests = (before ++ after).filter fun r => !decide
      (r.pieceIndex = pieceIndex ∧ r.offset = offset ∧ r.peer ≠ ptr))
    (hrequested : ∀ j c, blockAt pieceIndex offset ≠ (j, c) →
      d'.blockRequested j c = d.blockRequested j c)
    (hreceived : ∀ j c, d'.blockReceived j c =
      if blockAt pieceIndex offset = (j, c) then true else d.blockReceived j c) :
    Step cap endgame strict d.ledger d'.ledger := by
  obtain ⟨hpiece, hoffset, hpeer⟩ := hreq
  have hblock : (entry req).block = blockAt pieceIndex offset := by rw [entry, hpiece, hoffset]
  refine .settle ?_ (fun b hb => .inl ?_) fun hnodup b hold hnew => ?_
  · show (d'.pendingRequests.map entry).Sublist (d.pendingRequests.map entry)
    rw [hpending, hsplit]
    exact (List.filter_sublist.trans (by simp)).map entry
  · have hrec : d'.blockReceived b.1 b.2 = false := hb
    rw [hreceived] at hrec
    split_ifs at hrec with hne
    refine ⟨hrec, copies_of_filter hsplit hpending (by rwa [hblock]) fun r hr => ?_,
      hrequested b.1 b.2 hne⟩
    rw [block_of_duplicate (of_decide_eq_true (by simpa using hr))]
    exact hne
  -- the only other requests for the block are duplicates, as the peer has no second one
  · have hb : blockAt pieceIndex offset = b := by
      have hnew' : d'.blockReceived b.1 b.2 = true := hnew
      rw [hreceived] at hnew'
      split_ifs at hnew' with heq
      · exact heq
      · exact absurd (hold.symm.trans hnew') (by decide)
    apply List.countP_eq_zero.2
    intro e he heb
    obtain ⟨r, hr, rfl⟩ := List.mem_map.1 he
    rw [hpending] at hr
    obtain ⟨hmem, hkeep⟩ := List.mem_filter.1 hr
    have hmem' := mem_of_kept hsplit r hmem
    have hrb : (entry r).block = blockAt pieceIndex offset := (of_decide_eq_true heb).trans hb.symm
    obtain ⟨hrp, hro⟩ := Prod.mk.inj hrb
    have hroffset : r.offset = offset := by
      have hr0 := (hd.pending r hmem').1
      have hreq0 := (hd.pending req (by rw [hsplit]; simp)).1
      rw [hoffset] at hreq0
      unfold blockSize at *
      omega
    have hrpeer : r.peer = ptr := by
      by_contra hne
      simp [hrp, hroffset, hne] at hkeep
    have hentry : entry r = entry req := by
      rw [entry, entry, hrp, hroffset, hrpeer, hpiece, hoffset, hpeer]
    have hnot : entry req ∉ (before ++ after).map entry := by
      rw [pending_split hsplit] at hnodup
      have hperm := List.nodup_middle.1 hnodup
      rw [List.map_append]
      exact (List.nodup_cons.1 hperm).1
    exact hnot (hentry ▸ List.mem_map_of_mem hmem)

/-- A block has arrived and its piece has failed: all that concerns the piece is gone. -/
theorem step_of_failed {cap : ℕ} {endgame strict : Prop} {d' : Downloader}
    (hreq : req.pieceIndex = pieceIndex) (hsplit : d.pendingRequests = before ++ req :: after)
    {keep : BlockRequest → Bool} (hkeep : ∀ r, keep r = true ↔ r.pieceIndex ≠ pieceIndex)
    (hpending : d'.pendingRequests = (before ++ after).filter keep)
    (hrequested : ∀ j c, d'.blockRequested j c =
      if pieceIndex = j then false else d.blockRequested j c)
    (hreceived : ∀ j c, d'.blockReceived j c =
      if pieceIndex = j then false else d.blockReceived j c) :
    Step cap endgame strict d.ledger d'.ledger := by
  refine .settle ?_ (fun b hb => ?_) fun _ b hold hnew => ?_
  · show (d'.pendingRequests.map entry).Sublist (d.pendingRequests.map entry)
    rw [hpending, hsplit]
    exact (List.filter_sublist.trans (by simp)).map entry
  -- a block of the piece has neither request nor flag, any other is as it was
  · by_cases hj : pieceIndex = b.1
    · refine .inr ⟨List.countP_eq_zero.2 fun e he heb => ?_, ?_⟩
      · obtain ⟨r, hr, rfl⟩ := List.mem_map.1 he
        rw [hpending] at hr
        apply (hkeep r).1 (List.mem_filter.1 hr).2
        rw [hj, ← of_decide_eq_true heb]
        rfl
      · show d'.blockRequested b.1 b.2 = false
        rw [hrequested, if_pos hj]
    · have hrec : d'.blockReceived b.1 b.2 = false := hb
      rw [hreceived, if_neg hj] at hrec
      have hflag : d'.blockRequested b.1 b.2 = d.blockRequested b.1 b.2 := by
        rw [hrequested, if_neg hj]
      refine .inl ⟨hrec, copies_of_filter hsplit hpending (fun h => hj ?_) fun r hr h => hj ?_, hflag⟩
      · rw [← h, entry, ← hreq]
        rfl
      · have hrp : r.pieceIndex = pieceIndex := by
          by_contra hne
          rw [(hkeep r).2 hne] at hr
          cases hr
        rw [← h, ← hrp]
        rfl
  · have hnew' : d'.blockReceived b.1 b.2 = true := hnew
    rw [hreceived] at hnew'
    split_ifs at hnew'
    exact absurd (hold.symm.trans hnew') (by decide)

/-- Cancelling duplicates clears no flag of a block that has none. -/
theorem blockRequested_cancelDuplicates (hd : d.WellFormed) {keep j c : ℕ} (failing : List ℕ)
    (hnone : ∀ r ∈ d.pendingRequests, r.pieceIndex = pieceIndex ∧ r.offset = offset ∧ r.peer ≠ keep →
      blockAt pieceIndex offset ≠ (j, c)) :
    (d.cancelDuplicateRequests pieceIndex offset keep failing).blockRequested j c =
      d.blockRequested j c := by
  have hclears := clears_duplicates pieceIndex offset keep failing
  have hany : d.pendingRequests.any (fun r => decide (r.pieceIndex = pieceIndex ∧
      r.offset = offset ∧ r.peer ≠ keep) &&
        decide (blockAt r.pieceIndex r.offset = (j, c))) = false := by
    rw [List.any_eq_false]
    intro r hr h
    obtain ⟨hdup, hb⟩ := Bool.and_eq_true_iff.1 h
    have hdup := of_decide_eq_true hdup
    exact hnone r hr hdup ((block_of_duplicate hdup).symm.trans (of_decide_eq_true hb))
  rw [cancelDuplicateRequests, hclears.blockRequested_eraseRequests hd, hany, Bool.not_false,
    Bool.and_true]

/-- A block is accepted, and the check leaves requests and flags alone. -/
theorem step_of_passed {cap : ℕ} {endgame strict : Prop} {d₂ : Downloader} (hd : Orderly d)
    (hfind : d.pendingRequests.find? (answers pieceIndex offset ptr) = some req)
    (hblock : offset / blockSize < d.blockCount pieceIndex) (blockData : Bytes) (failing : List ℕ)
    (hwf₂ : d₂.WellFormed) (hpending₂ : d₂.pendingRequests =
      (d.acceptBlock pieceIndex offset ptr blockData).pendingRequests)
    (hstates₂ : d₂.pieceStates = (d.acceptBlock pieceIndex offset ptr blockData).pieceStates) :
    Step cap endgame strict d.ledger
        (d₂.cancelDuplicateRequests pieceIndex offset ptr failing).ledger ∧
      Orderly (d₂.cancelDuplicateRequests pieceIndex offset ptr failing) := by
  obtain ⟨hpiece, hoffset, hpeer, before, after, hsplit, herased⟩ := find_answered hfind
  have hstate₂ : ∀ j, d₂.pieceState j =
      (d.acceptBlock pieceIndex offset ptr blockData).pieceState j := by
    intro j
    rw [pieceState, pieceState, hstates₂]
  have hframe := (clears_duplicates pieceIndex offset ptr failing).frame_eraseRequests d₂
  have hpending₃ : (d₂.cancelDuplicateRequests pieceIndex offset ptr failing).pendingRequests =
      (before ++ after).filter fun r => !decide
        (r.pieceIndex = pieceIndex ∧ r.offset = offset ∧ r.peer ≠ ptr) := by
    rw [cancelDuplicateRequests, pendingRequests_eraseRequests, hpending₂,
      pendingRequests_acceptBlock, herased]
  constructor
  · refine step_of_arrived hd ⟨hpiece, hoffset, hpeer⟩ hsplit hpending₃ (fun j c hne => ?_)
      fun j c => ?_
    · rw [blockRequested_cancelDuplicates hwf₂ failing fun _ _ _ => hne, blockRequested, hstate₂,
        ← blockRequested, blockRequested_acceptBlock]
    · rw [cancelDuplicateRequests, hframe.blockReceived, blockReceived, hstate₂, ← blockReceived]
      exact blockReceived_acceptBlock pieceIndex ptr blockData hd.wellFormed hblock j c
  · refine hd.of_kept (hframe.wellFormed hwf₂) (fun i => ?_) fun r hr => ?_
    · rw [cancelDuplicateRequests, hframe.blockCount, blockCount, hstate₂, ← blockCount]
      exact blockCount_acceptBlock d pieceIndex offset ptr blockData i
    · rw [hpending₃] at hr
      exact mem_of_kept hsplit r (List.mem_of_mem_filter hr)

/-- A block is accepted, and its piece fails the check. -/
theorem step_of_reset {cap : ℕ} {endgame strict : Prop} (hd : Orderly d)
    (hfind : d.pendingRequests.find? (answers pieceIndex offset ptr) = some req)
    (hblock : offset / blockSize < d.blockCount pieceIndex) (blockData : Bytes) (failing : List ℕ)
    (world : World) :
    let d₂ := failPiece { d.acceptBlock pieceIndex offset ptr blockData with world } pieceIndex
    Step cap endgame strict d.ledger
        (d₂.cancelDuplicateRequests pieceIndex offset ptr failing).ledger ∧
      Orderly (d₂.cancelDuplicateRequests pieceIndex offset ptr failing) := by
  intro d₂
  obtain ⟨hpiece, -, -, before, after, hsplit, herased⟩ := find_answered hfind
  let d₁ : Downloader := { d.acceptBlock pieceIndex offset ptr blockData with world }
  have hwf₁ : d₁.WellFormed :=
    (wellFormed_acceptBlock pieceIndex ptr blockData hd.wellFormed).congr rfl rfl rfl
  have hwf₂ : d₂.WellFormed := wellFormed_failPiece pieceIndex hwf₁
  have hstates₁ : pieceIndex < d₁.pieceStates.length :=
    hwf₁.states_length ▸ hd.wellFormed.lt_numPieces hblock
  have hframe := (clears_duplicates pieceIndex offset ptr failing).frame_eraseRequests d₂
  have hpending₂ : d₂.pendingRequests =
      (before ++ after).filter fun r => r.pieceIndex ≠ pieceIndex := by
    rw [pendingRequests_failPiece, ← herased]
    rfl
  have hother : ∀ r ∈ d₂.pendingRequests, r.pieceIndex ≠ pieceIndex := by
    intro r hr
    rw [hpending₂] at hr
    exact of_decide_eq_true (List.mem_filter.1 hr).2
  -- nothing is left that could be a duplicate
  have hpending₃ : (d₂.cancelDuplicateRequests pieceIndex offset ptr failing).pendingRequests =
      (before ++ after).filter fun r => r.pieceIndex ≠ pieceIndex := by
    rw [cancelDuplicateRequests, pendingRequests_eraseRequests, ← hpending₂, List.filter_eq_self]
    intro r hr
    simp [hother r hr]
  constructor
  · refine step_of_failed hpiece hsplit (fun r => by simp) hpending₃ (fun j c => ?_) fun j c => ?_
    · rw [blockRequested_cancelDuplicates hwf₂ failing fun r hr h => absurd h.1 (hother r hr),
        (flags_failPiece d₁ pieceIndex hstates₁ j c).1]
      by_cases hj : pieceIndex = j
      · rw [if_pos hj, if_pos hj]
      · rw [if_neg hj, if_neg hj]
        exact blockRequested_acceptBlock d pieceIndex offset ptr blockData j c
    · rw [cancelDuplicateRequests, hframe.blockReceived, (flags_failPiece d₁ pieceIndex hstates₁ j c).2]
      by_cases hj : pieceIndex = j
      · rw [if_pos hj, if_pos hj]
      · have hne : blockAt pieceIndex offset ≠ (j, c) := fun h => hj (Prod.mk.inj h).1
        rw [if_neg hj, if_neg hj]
        show (d.acceptBlock pieceIndex offset ptr blockData).blockReceived j c = _
        rw [blockReceived_acceptBlock pieceIndex ptr blockData hd.wellFormed hblock, if_neg hne]
  · refine hd.of_kept (hframe.wellFormed hwf₂) (fun i => ?_) fun r hr => ?_
    · rw [cancelDuplicateRequests, hframe.blockCount, blockCount_failPiece]
      exact blockCount_acceptBlock d pieceIndex offset ptr blockData i
    · rw [hpending₃] at hr
      exact mem_of_kept hsplit r (List.mem_of_mem_filter hr)

/-- The whole treatment of an accepted block is one step. -/
theorem step_settled {cap : ℕ} {endgame strict : Prop} (sha1 : Bytes → Bytes) (hd : Orderly d)
    (hfind : d.pendingRequests.find? (answers pieceIndex offset ptr) = some req)
    (hblock : offset / blockSize < d.blockCount pieceIndex) (blockData : Bytes)
    (failing : List ℕ) :
    Step cap endgame strict d.ledger
        (settled sha1 d pieceIndex offset ptr blockData failing).ledger ∧
      Orderly (settled sha1 d pieceIndex offset ptr blockData failing) := by
  have hwf : (d.acceptBlock pieceIndex offset ptr blockData).WellFormed :=
    wellFormed_acceptBlock pieceIndex ptr blockData hd.wellFormed
  rw [settled]
  rcases checkPiece_cases sha1 (d.acceptBlock pieceIndex offset ptr blockData) pieceIndex with
    ⟨hpending, hstates, htorrent, -, hlength⟩ | ⟨world, hfail⟩
  · exact step_of_passed hd hfind hblock blockData failing (hwf.congr htorrent hlength hstates)
      hpending hstates
  · rw [hfail]
    exact step_of_reset hd hfind hblock blockData failing world

end Settled

/-- A message is a step of the ledger, or none. -/
theorem steps_handleMessage {cap : ℕ} {endgame strict : Prop} (sha1 : Bytes → Bytes) {d : Downloader}
    (hd : Orderly d) (ptr : ℕ) (msg : PeerMessage) (failing : List ℕ) :
    Steps cap endgame strict d.ledger (d.handleMessage sha1 ptr msg failing).ledger ∧
      Orderly (d.handleMessage sha1 ptr msg failing) := by
  have hsingle : ∀ {d' : Downloader}, Step cap endgame strict d.ledger d'.ledger ∧ Orderly d' →
      Steps cap endgame strict d.ledger d'.ledger ∧ Orderly d' :=
    fun h => ⟨Relation.ReflTransGen.single h.1, h.2⟩
  unfold handleMessage
  split
  · exact hsingle (step_eraseRequests (clears_own _) hd)
  · rcases handleBlock_cases sha1 d ptr msg.payload failing with
      heq | ⟨pieceIndex, offset, blockData, req, hfind, hcase⟩
    · rw [heq]
      exact ⟨.refl, hd⟩
    · rcases hcase with ⟨-, heq⟩ | ⟨-, hdrop, heq⟩ | ⟨-, hin, -, heq⟩ <;> rw [heq]
      · exact hsingle (step_of_wrongLength hd hfind)
      · exact hsingle (step_of_dropped hd hfind hdrop)
      · exact hsingle (step_settled sha1 hd hfind (Int.lt_toNat.2 hin) blockData failing)
  · exact ⟨.refl, hd⟩

/-! ### Runs -/

/-- A step asks no peer for a block that it is already asked for: the flags of the peer's own
requests are on. -/
def AsksAnew (d : Downloader) : Event → Prop
  | .request ptr _ _ => d.Flagged ptr
  | _ => True

/-- Every step of a run is a number of steps of the ledger. -/
theorem steps_of_step (strict : Prop) (sha1 : Bytes → Bytes) {d : Downloader} (hd : Orderly d)
    (event : Event) (hstrict : strict → d.AsksAnew event) :
    Steps d.requestCap (d.endgame = true) strict d.ledger (step sha1 d event).ledger ∧
      Orderly (step sha1 d event) := by
  cases event with
  | connections peers => exact ⟨.refl, hd.of_kept (hd.wellFormed.congr rfl rfl rfl) (fun _ => rfl)
      fun _ h => h⟩
  | message ptr msg faults failing =>
    have hworld : Orderly { d with world := { d.world with faults } } :=
      hd.of_kept (hd.wellFormed.congr rfl rfl rfl) (fun _ => rfl) fun _ h => h
    exact steps_handleMessage sha1 hworld ptr msg failing
  | request ptr sends now => exact steps_requestBlocksFromPeer hd hstrict sends now
  | timeouts now =>
    obtain ⟨hstep, horderly⟩ := step_eraseRequests (clears_own _) hd
    exact ⟨Relation.ReflTransGen.single hstep, horderly⟩
  | endgame value => exact ⟨.refl, hd.of_kept (hd.wellFormed.congr rfl rfl rfl) (fun _ => rfl)
      fun _ h => h⟩

end Gush.Downloader
