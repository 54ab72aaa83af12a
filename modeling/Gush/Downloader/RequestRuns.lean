import Gush.Downloader.InFlight
import Gush.Lib.Run

/-!
# Requests over whole runs

What holds of `pendingRequests_` and the request flags in every state of a run: a block marked as
asked for has a request (`in_flight_backed`), blocks have few copies and peers few requests
(`requests_bounded`), and requests are distinct as long as no flag is lost (`requests_distinct`).
-/

namespace Gush.Downloader

open Cxx Posix InFlight

/-- A downloader at the start of a run. -/
structure Startable (d : Downloader) : Prop where
  accepted : validateTorrentInfo d.torrent = .ok ()
  pieceLength_le : d.torrent.pieceLength.toInt ≤ 2 ^ 32
  wellFormed : d.WellFormed
  no_pending : d.pendingRequests = []

/-- The constructor makes such a downloader. -/
theorem startable_init {torrent : TorrentInfo} (h : validateTorrentInfo torrent = .ok ())
    (hlength : torrent.pieceLength.toInt ≤ 2 ^ 32) (savePath : Bytes) (options : DownloadOptions)
    (world : World) : Startable (init torrent savePath options world) where
  accepted := h
  pieceLength_le := hlength
  wellFormed := wellFormed_init torrent savePath options world
  no_pending := rfl

namespace Startable

variable {d : Downloader}

theorem orderly (h : Startable d) : Orderly d where
  wellFormed := h.wellFormed
  blockCount_le := h.wellFormed.blockCount_le h.accepted h.pieceLength_le
  pending := by simp [h.no_pending]

/-- Restoring does not spoil the start. -/
theorem restore (h : Startable d) (sha1 : Bytes → Bytes) (rounds : ℕ) :
    Startable (restoreCompletedPieces sha1 d rounds) := by
  obtain ⟨hwf, htorrent, -, -, hpending⟩ := restore_fields sha1 d rounds h.wellFormed
  exact {
    accepted := htorrent ▸ h.accepted
    pieceLength_le := htorrent ▸ h.pieceLength_le
    wellFormed := hwf
    no_pending := hpending.trans h.no_pending }

theorem copies_eq_zero (h : Startable d) (b : ℕ × ℕ) : d.ledger.copies b = 0 := by
  simp [Ledger.copies, ledger, h.no_pending]

end Startable

/-- A torrent of one block. -/
def oneBlockTorrent : TorrentInfo where
  name := ascii "a"
  pieceLength := 1
  pieces := List.replicate 20 0
  fileName := ascii "a"
  fileLength := 1

/-- A download of it that has just been set up. -/
def oneBlock : Downloader := init oneBlockTorrent (ascii "d") {} { fs := oneDirectory }

theorem startable_oneBlock : Startable oneBlock :=
  startable_init (by decide +kernel) (by decide) _ _ _

/-- A peer that has the block, and chokes or not. -/
def seeder (ptr : ℕ) (choking : Bool) : PeerConnection where
  ptr
  connected := true
  peerChoking := choking
  bitfield := [true]

/-- The block is asked for and arrives with some content. -/
def delivery (content : UInt8) : List Event :=
  [.connections [seeder 1 false], .request 1 [] 0,
    .message 1 { id := .block, payload := List.replicate 8 0 ++ [content] } [] []]

/-- The number of pending requests for the data at an offset of a piece. -/
def requestsFor (d : Downloader) (pieceIndex offset : ℕ) : ℕ :=
  d.pendingRequests.countP fun req => req.pieceIndex = pieceIndex ∧ req.offset = offset

theorem Orderly.requestsFor_eq {d : Downloader} (hd : Orderly d) (i b : ℕ) :
    d.requestsFor i (b * blockSize) = d.ledger.copies (i, b) := by
  rw [requestsFor, Ledger.copies, ledger, List.countP_map]
  apply List.countP_congr
  intro req hreq
  simp [entry, blockAt, hd.offset_eq_iff hreq b]

/-- Only blocks are asked for, so a bound on their copies is one for every offset. -/
theorem Orderly.requestsFor_le {d : Downloader} (hd : Orderly d) {i n : ℕ}
    (h : ∀ b, d.ledger.copies (i, b) ≤ n) (offset : ℕ) : d.requestsFor i offset ≤ n := by
  rcases Nat.eq_zero_or_pos (d.requestsFor i offset) with hzero | hpos
  · omega
  · obtain ⟨req, hreq, hmatch⟩ := List.countP_pos_iff.1 hpos
    obtain ⟨-, rfl⟩ := of_decide_eq_true hmatch
    have haligned : req.offset = req.offset / blockSize * blockSize :=
      (Nat.div_mul_cancel (Nat.dvd_of_mod_eq_zero (hd.pending req hreq).1)).symm
    rw [haligned, hd.requestsFor_eq]
    exact h _

/-- What holds of a ledger over any number of steps holds over guarded runs. -/
theorem ledger_invariant {P : Ledger (ℕ × ℕ) ℕ → Prop} {guard : Downloader → Event → Prop}
    (strict : Prop) {cap : ℕ} (sha1 : Bytes → Bytes)
    (hstrict : ∀ d event, guard d event → strict → d.AsksAnew event)
    (hsteps : ∀ d event l', guard d event → Steps cap (d.endgame = true) strict d.ledger l' →
      P d.ledger → P l')
    {d : Downloader} (hd : Orderly d) (hcap : d.requestCap = cap) (hP : P d.ledger)
    {events : List Event} (h : Run.Along (step sha1) guard d events) :
    Orderly (run sha1 d events) ∧ P (run sha1 d events).ledger := by
  have hrun : Orderly (run sha1 d events) ∧ (run sha1 d events).requestCap = cap ∧
      P (run sha1 d events).ledger := by
    refine h.invariant (P := fun s => Orderly s ∧ s.requestCap = cap ∧ P s.ledger) ?_
      ⟨hd, hcap, hP⟩
    rintro s event ⟨hs, hc, hl⟩ hg
    obtain ⟨hstep, horderly⟩ := steps_of_step strict sha1 hs event (hstrict s event hg)
    rw [hc] at hstep
    refine ⟨horderly, ?_, hsteps s event _ hg hstep hl⟩
    rw [requestCap, (step_fields sha1 s event).2.1]
    exact hc
  exact ⟨hrun.1, hrun.2.2⟩

/-! ### No block is marked in flight without a request -/

/-- **In flight means requested**: in every state of a run that starts with restoring, a block that
is marked as asked for and has not been received has a pending request. -/
theorem in_flight_backed (sha1 : Bytes → Bytes) {d : Downloader} (h : Startable d)
    (events : List Event) (i b : ℕ) :
    let s := run sha1 (restoreCompletedPieces sha1 d d.torrent.numPieces) events
    s.blockRequested i b = true → s.blockReceived i b = false →
      ∃ req ∈ s.pendingRequests, req.pieceIndex = i ∧ req.offset = b * blockSize := by
  have hstart := h.restore sha1 d.torrent.numPieces
  -- restoring switches all flags off, so there is nothing to back yet
  have hbacked : Backed (restoreCompletedPieces sha1 d d.torrent.numPieces).ledger := by
    intro b hb
    have hoff := blockRequested_restore sha1 h.wellFormed b.1 b.2
    exact absurd (hoff.symm.trans hb) (by decide)
  have hall : Run.Along (step sha1) (fun _ _ => True) (restoreCompletedPieces sha1 d
      d.torrent.numPieces) events := Run.along_of_forall (fun _ _ => trivial) _ events
  obtain ⟨horderly, hrun⟩ := ledger_invariant False sha1 (fun _ _ _ hs => hs.elim)
    (fun _ _ _ _ hsteps => hsteps.backed) hstart.orderly rfl hbacked hall
  intro s hrequested hreceived
  have hpos : 0 < s.requestsFor i (b * blockSize) := by
    rw [horderly.requestsFor_eq]
    exact hrun (i, b) hrequested hreceived
  obtain ⟨req, hreq, hmatch⟩ := List.countP_pos_iff.1 hpos
  exact ⟨req, hreq, of_decide_eq_true hmatch⟩

theorem in_flight_backed_oneBlock : ∃ req ∈ (run (fun _ => [])
      (restoreCompletedPieces (fun _ => []) oneBlock oneBlock.torrent.numPieces)
      [.connections [seeder 1 false], .request 1 [] 0]).pendingRequests,
    req.pieceIndex = 0 ∧ req.offset = 0 * blockSize :=
  in_flight_backed (fun _ => []) startable_oneBlock _ 0 0 (by decide +kernel) (by decide +kernel)

/-! ### Copies of a block and requests to a peer -/

/-- Every block has at most two requests, and at most one if the guard keeps the endgame flag off. No
peer has more requests than the options allow. -/
theorem Startable.requests (sha1 : Bytes → Bytes) {d : Downloader} (h : Startable d)
    (hmax : 0 ≤ d.options.maxRequestsPerPeer) {guard : Downloader → Event → Prop} {events : List Event}
    (halong : Run.Along (step sha1) guard d events) :
    let s := run sha1 d events
    (∀ i offset, s.requestsFor i offset ≤ 2) ∧
    ((∀ s e, guard s e → s.endgame = false) → ∀ i offset, s.requestsFor i offset ≤ 1) ∧
    ∀ ptr, s.currentRequests ptr ≤ d.options.maxRequestsPerPeer := by
  refine ⟨fun i offset => ?_, fun hoff i offset => ?_, fun ptr => ?_⟩
  · have hbounded : Bounded d.ledger := fun b => by simp [h.copies_eq_zero b]
    obtain ⟨horderly, hrun⟩ := ledger_invariant False sha1 (fun _ _ _ hs => hs.elim)
      (fun _ _ _ _ hsteps => hsteps.bounded) h.orderly rfl hbounded halong
    exact horderly.requestsFor_le (fun b => (hrun (i, b)).1) offset
  · have hsingle : Single d.ledger := fun b => by simp [h.copies_eq_zero b]
    obtain ⟨horderly, hrun⟩ := ledger_invariant False sha1 (fun _ _ _ hs => hs.elim)
      (fun s e _ hg hsteps => hsteps.single_copy (by simp [hoff s e hg])) h.orderly rfl hsingle halong
    exact horderly.requestsFor_le (fun b => (hrun (i, b)).1) offset
  · have hcap : WithinCap d.requestCap d.ledger := fun p => by
      simp [Ledger.load, ledger, h.no_pending]
    obtain ⟨-, hrun⟩ := ledger_invariant False sha1 (fun _ _ _ hs => hs.elim)
      (fun _ _ _ _ hsteps => hsteps.withinCap) h.orderly rfl hcap halong
    have hload := hrun ptr
    rw [currentRequests_eq_load]
    unfold requestCap at hload
    omega

/-- **Bounded requests**: in every state of a run a block that has not been received has at most two
requests, and at most one if the endgame flag was off at every step; and no peer has more requests
than the options allow. -/
theorem requests_bounded (sha1 : Bytes → Bytes) {d : Downloader} (h : Startable d)
    (hmax : 0 ≤ d.options.maxRequestsPerPeer) (events : List Event) :
    let s := run sha1 d events
    (∀ i b, s.blockReceived i b = false → s.requestsFor i (b * blockSize) ≤ 2) ∧
    (Run.Along (step sha1) (fun s _ => s.endgame = false) d events →
      ∀ i b, s.blockReceived i b = false → s.requestsFor i (b * blockSize) ≤ 1) ∧
    ∀ ptr, s.currentRequests ptr ≤ d.options.maxRequestsPerPeer := by
  have hall : Run.Along (step sha1) (fun _ _ => True) d events :=
    Run.along_of_forall (fun _ _ => trivial) d events
  refine ⟨fun i b _ => (h.requests sha1 hmax hall).1 i _, fun hnever i b _ => ?_,
    (h.requests sha1 hmax hall).2.2⟩
  exact (h.requests sha1 hmax hnever).2.1 (fun _ _ hoff => hoff) i _

/-- Two peers are asked for the block in endgame. -/
theorem requests_bounded_oneBlock :
    let events : List Event := [.connections [seeder 1 false, seeder 2 false], .request 1 [] 0,
      .endgame true, .request 2 [] 0]
    (run (fun _ => []) oneBlock events).requestsFor 0 (0 * blockSize) ≤ 2 ∧
      ∀ ptr, (run (fun _ => []) oneBlock events).currentRequests ptr ≤
        oneBlock.options.maxRequestsPerPeer := by
  intro events
  obtain ⟨htwo, -, hload⟩ :=
    requests_bounded (fun _ => []) startable_oneBlock (by decide) events
  exact ⟨htwo 0 0 (by decide +kernel), hload⟩

/-! ### Distinct requests -/

/-- **Distinct requests**: in a run in which no peer is asked while one of its own requests for the
chosen piece has lost its flag, no peer has two requests for the same data, and no request is for a
block that has been received. -/
theorem requests_distinct (sha1 : Bytes → Bytes) {d : Downloader} (h : Startable d)
    {events : List Event} (hanew : Run.Along (step sha1) AsksAnew d events) :
    let s := run sha1 d events
    (s.pendingRequests.map fun req => (req.pieceIndex, req.offset, req.peer)).Nodup ∧
      ∀ req ∈ s.pendingRequests, s.blockReceived req.pieceIndex (req.offset / blockSize) = false := by
  have hdistinct : Distinct d.ledger :=
    ⟨by simp [ledger, h.no_pending], fun b _ => h.copies_eq_zero b⟩
  obtain ⟨-, hrun⟩ := ledger_invariant True sha1 (fun _ _ hg _ => hg)
    (fun _ _ _ _ hsteps => hsteps.distinct trivial) h.orderly rfl hdistinct hanew
  intro s
  constructor
  · have hnodup : (s.pendingRequests.map entry).Nodup := hrun.nodup
    -- an entry is determined by piece, offset and peer
    have hmap : s.pendingRequests.map entry =
        (s.pendingRequests.map fun req => (req.pieceIndex, req.offset, req.peer)).map fun t =>
          ⟨blockAt t.1 t.2.1, t.2.2⟩ := by
      simp [entry, Function.comp_def]
    rw [hmap] at hnodup
    exact hnodup.of_map _
  · intro req hreq
    cases hreceived : s.blockReceived req.pieceIndex (req.offset / blockSize) with
    | false => rfl
    | true =>
      have hzero := List.countP_eq_zero.1 (hrun.missing (entry req).block hreceived) (entry req)
        (List.mem_map_of_mem hreq)
      simp at hzero

/-- A peer that is asked twice: in endgame both peers have a request for the block, the second one
chokes, which clears the flag that both share, and the first one is asked again. -/
def askedTwice : List Event :=
  [.connections [seeder 1 false, seeder 2 false], .request 1 [] 0, .endgame true,
    .request 2 [] 0, .connections [seeder 1 false, seeder 2 true],
    .message 2 { id := .choke } [] [], .request 1 [] 0]

theorem not_forall_requests_distinct :
    ¬ ∀ (sha1 : Bytes → Bytes) (d : Downloader) (events : List Event), Startable d →
      let s := run sha1 d events
      (s.pendingRequests.map fun req => (req.pieceIndex, req.offset, req.peer)).Nodup ∧
        ∀ req ∈ s.pendingRequests,
          s.blockReceived req.pieceIndex (req.offset / blockSize) = false := by
  intro h
  have hnodup := (h (fun _ => []) oneBlock askedTwice startable_oneBlock).1
  revert hnodup
  decide +kernel

theorem requests_distinct_oneBlock :
    let s := run (fun _ => []) oneBlock (askedTwice.take 6)
    (s.pendingRequests.map fun req => (req.pieceIndex, req.offset, req.peer)).Nodup ∧
      ∀ req ∈ s.pendingRequests,
        s.blockReceived req.pieceIndex (req.offset / blockSize) = false := by
  have hanew : Run.Along (step fun _ => []) AsksAnew oneBlock (askedTwice.take 6) := by
    have hflagged : ∀ d : Downloader, d.pendingRequests.all (fun req =>
        d.blockRequested req.pieceIndex (req.offset / blockSize)) = true →
        ∀ ptr, d.Flagged ptr := by
      intro d hall ptr i _ req hreq hpiece _ _
      have hflag := List.all_eq_true.1 hall req hreq
      rwa [hpiece] at hflag
    exact ⟨trivial, hflagged _ (by decide +kernel) 1, trivial, hflagged _ (by decide +kernel) 2,
      trivial, trivial, trivial⟩
  exact requests_distinct (fun _ => []) startable_oneBlock hanew

end Gush.Downloader
