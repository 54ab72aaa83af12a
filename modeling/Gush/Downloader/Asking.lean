import Gush.Downloader.Tiling

/-!
# Whether a peer is asked for anything

`requestBlocksFromPeer` goes through the blocks of a single piece: the one that `selectNextPiece`
chooses over all peers, or the first piece of this peer that misses blocks. A piece all of whose
missing blocks are in flight still misses blocks, so it can be the one, whatever else the peer could
be asked for. `asksFreeBlock_iff` says when a call asks for something, given that there is
something to ask for.
-/

namespace Gush.Downloader

open Cxx

/-! ### Copies in flight -/

/-- The pending requests for a block. -/
def isFor (i b : ℕ) (req : BlockRequest) : Prop :=
  req.pieceIndex = i ∧ req.offset = uint32 (b * blockSize)

instance (i b : ℕ) : DecidablePred (isFor i b) := fun _ => inferInstanceAs (Decidable (_ ∧ _))

/-- A block can be asked for: it is missing, and it is not in flight, or endgame is on and the peer
would get the first or second copy, and its only one. -/
def Askable (d : Downloader) (ptr i b : ℕ) : Prop :=
  d.blockReceived i b = false ∧ (d.blockRequested i b = false ∨ d.endgame = true ∧
    (∀ req ∈ d.pendingRequests, isFor i b req → req.peer ≠ ptr) ∧
    (d.pendingRequests.countP fun req => isFor i b req) < 2)

/-- The scan finds the peer's own copy if there is one. -/
theorem scanCopies_own_iff (pieceIndex offset ptr : ℕ) (reqs : List BlockRequest) :
    ∀ n, (scanCopies pieceIndex offset ptr reqs n).1 = true ↔
      ∃ req ∈ reqs, (req.pieceIndex = pieceIndex ∧ req.offset = offset) ∧ req.peer = ptr := by
  induction reqs with
  | nil => simp [scanCopies]
  | cons req reqs ih =>
    intro n
    rw [scanCopies]
    split_ifs with hmatch hpeer
    · simp [hmatch, hpeer]
    · rw [ih]
      simp [hpeer]
    · rw [ih]
      simp only [List.mem_cons, exists_eq_or_imp, hmatch, false_and, false_or]

theorem not_skipsInFlight_iff (d : Downloader) (i b ptr : ℕ) :
    d.skipsInFlight i b ptr = false ↔ d.endgame = true ∧
      (∀ req ∈ d.pendingRequests, isFor i b req → req.peer ≠ ptr) ∧
      (d.pendingRequests.countP fun req => isFor i b req) < 2 := by
  have hown := scanCopies_own_iff i (uint32 (b * blockSize)) ptr d.pendingRequests 0
  have hspec := scanCopies_spec i (uint32 (b * blockSize)) ptr d.pendingRequests 0
  unfold skipsInFlight
  generalize scanCopies i (uint32 (b * blockSize)) ptr d.pendingRequests 0 = scan at *
  obtain ⟨own, copies⟩ := scan
  simp only [Bool.or_eq_false_iff, Bool.not_eq_false', decide_eq_false_iff_not, not_le]
  cases own with
  | false =>
    obtain ⟨hall, hcount⟩ := hspec rfl
    simp only [zero_add] at hcount
    have hcopies : copies = d.pendingRequests.countP fun req => isFor i b req := hcount
    rw [hcopies]
    constructor
    · rintro ⟨⟨hend, -⟩, hlt⟩
      exact ⟨hend, fun req hreq hfor => hall req hreq hfor.1 hfor.2, hlt⟩
    · rintro ⟨hend, -, hlt⟩
      exact ⟨⟨hend, rfl⟩, hlt⟩
  | true =>
    obtain ⟨req, hreq, hfor, hpeer⟩ := hown.1 rfl
    simp only [Bool.true_eq_false, and_false, false_and, false_iff]
    exact fun h => h.2.1 req hreq hfor hpeer

/-! ### The loop -/

/-- Below the limit, and with sends that succeed, the loop asks for something if and only if one of
its blocks can be asked for. -/
theorem requestLoop_asks_iff {i ptr : ℕ} {now : ℤ} {blocks : List ℕ} {currentRequests : ℤ}
    {sends : List Bool} {d : Downloader} (hroom : currentRequests < d.options.maxRequestsPerPeer)
    (hsends : ∀ s ∈ sends, s = true) :
    (requestLoop i ptr now blocks currentRequests sends d).pendingRequests ≠ d.pendingRequests ↔
      ∃ b ∈ blocks, d.Askable ptr i b := by
  induction blocks with
  | nil => simp [requestLoop]
  | cons b blocks ih =>
    rw [requestLoop, if_neg (not_le.2 hroom)]
    simp only [List.mem_cons, exists_eq_or_imp]
    by_cases hreceived : d.blockReceived i b = true
    · rw [if_pos hreceived, ih]
      simp [Askable, hreceived]
    rw [if_neg hreceived]
    rw [Bool.not_eq_true] at hreceived
    by_cases hskip : (d.blockRequested i b && d.skipsInFlight i b ptr) = true
    · have hnot : ¬ d.Askable ptr i b := by
        rw [Bool.and_eq_true] at hskip
        rintro ⟨-, hfree | hcopy⟩
        · rw [hskip.1] at hfree
          cases hfree
        · rw [(not_skipsInFlight_iff d i b ptr).2 hcopy] at hskip
          cases hskip.2
      rw [if_pos hskip, ih]
      simp [hnot]
    -- the block is asked for, and what follows takes nothing back
    · have hask : d.Askable ptr i b := by
        refine ⟨hreceived, ?_⟩
        cases hrequested : d.blockRequested i b with
        | false => exact .inl rfl
        | true =>
          rw [hrequested, Bool.true_and, Bool.not_eq_true] at hskip
          exact .inr ((not_skipsInFlight_iff d i b ptr).1 hskip)
      have hsend : sends.headD true = true := by
        cases sends with
        | nil => rfl
        | cons s sends => exact hsends s List.mem_cons_self
      obtain ⟨asked, -, hpending⟩ := @requestLoop_pending i ptr now blocks (currentRequests + 1)
        sends.tail (d.addRequest i b ptr now)
      have hadded : (d.addRequest i b ptr now).pendingRequests =
          d.pendingRequests ++ [requestFor d.torrent i ptr now b] := rfl
      rw [if_neg hskip, if_pos hsend, hpending, hadded]
      simp [hask]

/-! ### The call -/

/-- A block of an incomplete piece of the peer is neither received nor marked as asked for. -/
def HasFreeBlock (d : Downloader) (peer : PeerConnection) : Prop :=
  ∃ i < d.torrent.numPieces, d.pieceCompleted i = false ∧ peer.hasPiece i = true ∧
    ∃ b < d.blockCount i, d.blockReceived i b = false ∧ d.blockRequested i b = false

/-- Whether a call adds a request with the peer. -/
def Asks (d : Downloader) (ptr : ℕ) (sends : List Bool) (now : ℤ) : Prop :=
  d.currentRequests ptr < (d.requestBlocksFromPeer ptr sends now).currentRequests ptr

section Call

variable {d : Downloader} {ptr : ℕ} {peer : PeerConnection} {sends : List Bool} {now : ℤ}

/-- New requests are with the peer, so their number grows with the list. -/
theorem asks_iff_pending : d.Asks ptr sends now ↔
    (d.requestBlocksFromPeer ptr sends now).pendingRequests ≠ d.pendingRequests := by
  have hgrow : ∃ (i : ℕ) (asked : List ℕ), (d.requestBlocksFromPeer ptr sends now).pendingRequests =
      d.pendingRequests ++ asked.map (requestFor d.torrent i ptr now) := by
    rw [requestBlocksFromPeer]
    split
    · exact ⟨0, [], by simp⟩
    · rename_i i _
      obtain ⟨asked, -, hpending⟩ := @requestLoop_pending i ptr now (List.range (d.blockCount i))
        (d.currentRequests ptr) sends d
      exact ⟨i, asked, hpending⟩
  obtain ⟨i, asked, hpending⟩ := hgrow
  have hall : asked.countP ((fun req : BlockRequest => decide (req.peer = ptr)) ∘
      requestFor d.torrent i ptr now) = asked.length :=
    List.countP_eq_length.2 fun b _ => by simp [requestFor]
  rw [Asks, currentRequests, currentRequests, hpending, List.countP_append, List.countP_map, hall]
  cases asked with
  | nil => simp
  | cons b asked => simp

variable (hfind : d.findPeer ptr = some peer) (hconnected : peer.connected = true)
  (hchoking : peer.peerChoking = false)
  (hroom : d.currentRequests ptr < d.options.maxRequestsPerPeer)
  (hsends : ∀ s ∈ sends, s = true)

include hfind hconnected hchoking hroom hsends

/-- A call asks for something if and only if the piece it goes through has a block to ask for. -/
theorem asks_iff : d.Asks ptr sends now ↔
    ∃ i, d.GoesThrough peer i ∧ ∃ b < d.blockCount i, d.Askable ptr i b := by
  have htarget := @requestTarget_iff d ptr
  rw [asks_iff_pending, requestBlocksFromPeer]
  split
  · rename_i hnone
    simp only [ne_eq, not_true_eq_false, false_iff, not_exists, not_and]
    intro i hi
    rw [← requestTarget_iff hfind hconnected hchoking hroom, hnone] at hi
    cases hi
  · rename_i i hi
    rw [requestLoop_asks_iff hroom hsends]
    simp only [List.mem_range]
    constructor
    · exact fun h => ⟨i, (requestTarget_iff hfind hconnected hchoking hroom).1 hi, h⟩
    · rintro ⟨j, hj, h⟩
      rw [← requestTarget_iff hfind hconnected hchoking hroom, hi] at hj
      cases hj
      exact h

/-- **Main result.** Given a free block, a call asks for something if and only if the piece it goes
through has a block to ask for. -/
theorem asksFreeBlock_iff : (d.HasFreeBlock peer → d.Asks ptr sends now) ↔
    (d.HasFreeBlock peer →
      ∃ i, d.GoesThrough peer i ∧ ∃ b < d.blockCount i, d.Askable ptr i b) :=
  imp_congr_right fun _ => asks_iff hfind hconnected hchoking hroom hsends

end Call

/-- Two seeders, the first of which has been asked for the first piece. -/
def secondSeeder : Downloader :=
  run (fun _ => []) (init twoPieceTorrent [] {} { fs := oneDirectory })
    [.connections [{ seeder 1 false with bitfield := [true, true] },
      { seeder 2 false with bitfield := [true, true] }], .request 1 [] 0]

/-- The same before anything has been asked for. -/
def firstSeeder : Downloader :=
  { init twoPieceTorrent [] {} { fs := oneDirectory } with
    peers := [{ seeder 1 false with bitfield := [true, true] }] }

/-- The first seeder is asked, because the call goes through the first piece, whose blocks are free. -/
theorem asksFreeBlock_seeders : firstSeeder.Asks 1 [] 0 ∧
    ((secondSeeder.HasFreeBlock { seeder 2 false with bitfield := [true, true] } →
      secondSeeder.Asks 2 [] 0) ↔
    (secondSeeder.HasFreeBlock { seeder 2 false with bitfield := [true, true] } →
      ∃ i, secondSeeder.GoesThrough { seeder 2 false with bitfield := [true, true] } i ∧
        ∃ b < secondSeeder.blockCount i, secondSeeder.Askable 2 i b)) := by
  have hfree : firstSeeder.HasFreeBlock { seeder 1 false with bitfield := [true, true] } :=
    ⟨1, by decide +kernel, by decide +kernel, rfl, 0, by decide +kernel, by decide +kernel,
      by decide +kernel⟩
  have hgoes : firstSeeder.GoesThrough { seeder 1 false with bitfield := [true, true] } 0 :=
    ⟨by decide +kernel, by decide, by decide +kernel⟩
  have haskable : firstSeeder.Askable 1 0 0 := ⟨by decide +kernel, .inl (by decide +kernel)⟩
  exact ⟨(asksFreeBlock_iff rfl rfl rfl (by decide +kernel) (by simp)).2
    (fun _ => ⟨0, hgoes, 0, by decide +kernel, haskable⟩) hfree,
    asksFreeBlock_iff rfl rfl rfl (by decide +kernel) (by simp)⟩

/-- The second seeder is asked for nothing, although all of the second piece is free. -/
theorem not_forall_asksFreeBlock : ¬ ∀ (d : Downloader) (ptr : ℕ) (peer : PeerConnection)
    (sends : List Bool) (now : ℤ), d.findPeer ptr = some peer → peer.connected = true →
    peer.peerChoking = false → d.currentRequests ptr < d.options.maxRequestsPerPeer →
    (∀ s ∈ sends, s = true) → d.HasFreeBlock peer → d.Asks ptr sends now := by
  intro h
  have hfree : secondSeeder.HasFreeBlock { seeder 2 false with bitfield := [true, true] } :=
    ⟨1, by decide +kernel, by decide +kernel, rfl, 0, by decide +kernel, by decide +kernel,
      by decide +kernel⟩
  have hasks := h secondSeeder 2 _ [] 0 rfl rfl rfl (by decide +kernel) (by simp) hfree
  have hnone : (secondSeeder.requestBlocksFromPeer 2 [] 0).currentRequests 2 =
      secondSeeder.currentRequests 2 := by decide +kernel
  rw [Asks, hnone] at hasks
  exact lt_irrefl _ hasks

end Gush.Downloader
