import Gush.Downloader.Completion
import Gush.Lib.Flags
import Gush.Loop.Sound
import Mathlib.Data.Bool.Count

/-!
# Endgame

The loop sets the endgame flag once in each iteration, from a counter of the blocks that are missing.
`remainingBlocks_eq` says that the counter is right, `duplicates_need_endgame` what the flag is for:
as long as many blocks are missing, no block is asked for twice.
-/

namespace Gush

open Cxx Posix Finset

namespace Downloader

variable {sha1 : Bytes → Bytes} {d : Downloader}

/-! ### The flag -/

theorem endgame_clearRequested (d : Downloader) (pieceIndex offset : ℕ) :
    (d.clearRequested pieceIndex offset).endgame = d.endgame := by
  rw [clearRequested]
  split_ifs <;> rfl

theorem endgame_eraseRequests {selected : BlockRequest → Bool}
    {onErase : BlockRequest → Downloader → Downloader}
    (h : ∀ req d, (onErase req d).endgame = d.endgame) (d : Downloader) :
    (d.eraseRequests selected onErase).endgame = d.endgame := by
  have hloop : ∀ (reqs : List BlockRequest) (d : Downloader),
      (eraseLoop selected onErase reqs d).2.endgame = d.endgame := by
    intro reqs
    induction reqs with
    | nil => exact fun _ => rfl
    | cons req rest ih =>
      intro d
      rw [eraseLoop]
      split_ifs
      · exact (ih _).trans (h req d)
      · exact ih d
  exact hloop d.pendingRequests d

theorem endgame_requestBlocksFromPeer (d : Downloader) (ptr : ℕ) (sends : List Bool) (now : ℤ) :
    (d.requestBlocksFromPeer ptr sends now).endgame = d.endgame := by
  have hloop : ∀ (pieceIndex : ℕ) (blocks : List ℕ) (n : ℤ) (sends : List Bool) (d : Downloader),
      (requestLoop pieceIndex ptr now blocks n sends d).endgame = d.endgame := by
    intro pieceIndex blocks
    induction blocks with
    | nil => exact fun _ _ _ => rfl
    | cons i blocks ih =>
      intro n sends d
      rw [requestLoop]
      split_ifs
      · rfl
      · exact ih _ _ d
      · exact ih _ _ d
      · exact ih _ _ _
      · rfl
  rw [requestBlocksFromPeer]
  split
  · rfl
  · exact hloop _ _ _ _ d

theorem endgame_handleBlock (d : Downloader) (ptr : ℕ) (payload : Bytes) (failing : List ℕ) :
    (d.handleBlock sha1 ptr payload failing).endgame = d.endgame := by
  rcases handleBlock_cases sha1 d ptr payload failing with heq | ⟨i, offset, data, req, -,
    ⟨-, heq⟩ | ⟨-, -, heq⟩ | ⟨-, -, -, heq⟩⟩ <;> rw [heq]
  · exact endgame_clearRequested d i offset
  · rfl
  · refine (endgame_eraseRequests (fun req d => ?_) _).trans ?_
    · rw [endgame_clearRequested, sendCancel]
      split_ifs <;> rfl
    · rcases checkPiece_eq sha1 (d.acceptBlock i offset ptr data) i with
        ⟨-, heq⟩ | ⟨-, world, ⟨-, heq⟩ | ⟨-, heq⟩⟩ <;> rw [heq] <;> rfl

/-- Only the loop sets the flag. -/
theorem endgame_step {e : Event} (h : ∀ value, e ≠ .endgame value) :
    (d.step sha1 e).endgame = d.endgame := by
  cases e with
  | connections peers => rfl
  | message ptr msg faults failing =>
    show (handleMessage sha1 { d with world := { d.world with faults } } ptr msg failing).endgame = _
    unfold handleMessage
    split
    · exact endgame_eraseRequests (fun req d => endgame_clearRequested d _ _) _
    · exact endgame_handleBlock _ ptr msg.payload failing
    · rfl
  | request ptr sends now => exact endgame_requestBlocksFromPeer d ptr sends now
  | timeouts now => exact endgame_eraseRequests (fun req d => endgame_clearRequested d _ _) d
  | endgame value => exact absurd rfl (h value)

/-! ### The counter -/

/-- The blocks of a piece that are missing. -/
def missingOf (d : Downloader) (i : ℕ) : Finset ℕ :=
  (range (d.blockCount i)).filter fun b => d.blockReceived i b = false

/-- The number of missing blocks. -/
def missingBlocks (d : Downloader) : ℕ := ∑ i ∈ range d.torrent.numPieces, (d.missingOf i).card

theorem card_missingOf (hd : d.WellFormed) (i : ℕ) :
    (d.missingOf i).card = (d.pieceState i).blocksReceived.count false := by
  rw [missingOf, ← hd.received_length i]
  exact Flags.card_unset _

/-- What a round of the counting loop adds. -/
theorem card_missingOf_eq {torrent : TorrentInfo} (h : Tracked torrent d) (ht : Fitting torrent)
    {i : ℕ} (hi : i < d.torrent.numPieces) : ((d.missingOf i).card : ℤ) =
      if d.pieceCompleted i then 0
      else (d.pieceState i).totalBlocks - (d.pieceState i).receivedBlocks := by
  have hd := h.orderly.wellFormed
  have hfitting : Fitting d.torrent := h.torrent_eq.symm ▸ ht
  have hlength := hd.received_length i
  have hcount := List.count_false_add_count_true (d.pieceState i).blocksReceived
  rw [hlength] at hcount
  have htotal := blockCount_cast hd hfitting hi
  have hreceived := h.counted.received i
  have hcompleted := h.counted.completed i hi
  rw [FlagRight] at hcompleted
  rw [card_missingOf hd]
  split_ifs with hdone
  · have hfull := hcompleted.1 hdone
    omega
  · omega

/-- **The counter is right**, if all blocks can be counted. -/
theorem remainingBlocks_eq {torrent : TorrentInfo} (h : Tracked torrent d) (ht : Fitting torrent)
    (hblocks : d.totalBlockCount < 2 ^ 31) : d.remainingBlocks = d.missingBlocks := by
  have hle : ∀ i, (d.missingOf i).card ≤ d.blockCount i := by
    intro i
    rw [card_missingOf h.orderly.wellFormed, ← h.orderly.wellFormed.received_length i]
    exact List.count_le_length
  have hloop : ∀ k ≤ d.torrent.numPieces, (List.range k).foldl (fun remaining i =>
      if d.pieceCompleted i then remaining
      else int32 (remaining + ((d.pieceState i).totalBlocks - (d.pieceState i).receivedBlocks))) 0 =
        ((∑ i ∈ range k, (d.missingOf i).card : ℕ) : ℤ) := by
    intro k
    induction k with
    | zero => exact fun _ => rfl
    | succ k ih =>
      intro hk
      rw [List.range_succ, List.foldl_append, ih (Nat.le_of_succ_le hk), sum_range_succ, Nat.cast_add,
        card_missingOf_eq h ht hk]
      show (if d.pieceCompleted k then _ else _) = _
      split_ifs with hdone
      · rw [add_zero]
      · -- the sum has not got past all blocks
        have hsum : ∑ i ∈ range (k + 1), (d.missingOf i).card ≤ d.totalBlockCount :=
          (sum_le_sum fun i _ => hle i).trans
            (sum_le_sum_of_subset (range_subset_range.2 hk))
        rw [sum_range_succ] at hsum
        have hone := card_missingOf_eq h ht hk
        rw [if_neg hdone] at hone
        exact int32_of_range (by omega) (by omega)
  exact hloop _ le_rfl

end Downloader

/-! ### The end of an iteration -/

namespace Client

variable {sha1 : Bytes → Bytes} {c : Client}

theorem base_addPeer (c : Client) (now : ℤ) (peer : Peer) : (c.addPeer now peer).base = c.base := by
  rcases c.addPeer_cases now peer with heq | ⟨-, -, heq⟩ <;> rw [heq] <;> rfl

theorem base_addPeers (c : Client) (now : ℕ → ℤ) (peers : List Peer) :
    (c.addPeers now peers).base = c.base :=
  Run.invariant (P := fun c' : Client => c'.base = c.base)
    (fun c' _ hc' => (base_addPeer c' _ _).trans hc') peers.zipIdx rfl

theorem base_pruneBadPeers (c : Client) (now : ℤ) (evicted : ℕ → ℤ) :
    (c.pruneBadPeers now evicted).base = c.base := by
  refine Run.invariant (P := fun c' : Client => c'.base = c.base) (fun c' ptr hc' => ?_)
    (c.links.map Link.ptr) rfl
  rw [prunePeer]
  split
  · exact hc'
  · split_ifs
    · exact hc'
    · exact hc'

theorem base_fetchLatestTrackers (c : Client) (env : Tracker.Environment) :
    (c.fetchLatestTrackers env).base = c.base := by
  refine Run.invariant (P := fun c' : Client => c'.base = c.base) (fun c' tracker hc' => ?_)
    (TrackerList.fetchTrackersFromMultipleSources env [.trackerslistAll, .ngosangAll]) rfl
  rw [addTracker]
  split_ifs
  · exact hc'
  · exact hc'

end Client

namespace Loop

open Client

variable {sha1 : Bytes → Bytes} {S : (α : Type) → Sorting.Sorter α} {msg : Wire.PeerMessage}
  {r : Round} {l : Loop}

/-- Behind the endgame flag, an iteration leaves the download alone. -/
theorem base_finish (l : Loop) : (l.finish S r).2.client.base = l.client.base := by
  have hprune : (l.pruneIfDue r).client.base = l.client.base := by
    rw [pruneIfDue]
    split_ifs
    · exact base_pruneBadPeers _ _ _
    · rfl
  have hfetch : ∀ l : Loop, (l.fetchIfDue r).client.base = l.client.base := by
    intro l
    rw [fetchIfDue]
    split_ifs
    · exact base_fetchLatestTrackers _ _
    · rfl
  have hrecontact : ∀ l : Loop, (l.recontactIfDue S r).client.base = l.client.base := by
    intro l
    rw [recontactIfDue]
    split_ifs
    · show (addAnswered _ _ _).base = _
      rw [addAnswered]
      split_ifs
      · exact base_addPeers _ _ _
      · rfl
    · rfl
  rw [finish]
  split_ifs
  · exact hprune
  · exact (hrecontact _).trans ((hfetch _).trans hprune)

/-- What the model of the download sees of an iteration. -/
theorem iterate_spec {out : Bool × Loop} (hplaced : l.client.Placed)
    (h : l.iterate sha1 S msg r = some out) :
    out.2.client.Placed ∧ ∃ c : Client, Runs sha1 True l.client.downloader c.downloader ∧
      out.2.client.base = c.updateEndgame.base := by
  have hplaced' := ((leads_iterate (round_clocked_true r) h).refines hplaced).1
  obtain ⟨c, hexchange, rfl⟩ := Option.map_eq_some_iff.1 h
  obtain ⟨c', hc', rfl⟩ : ∃ c', Leads sha1 (fun _ => True) True l.client c' ∧ c = c'.updateEndgame :=
    leads_exchange (round_clocked_true r) hexchange
  exact ⟨hplaced', c', (hc'.refines hplaced).2, base_finish _⟩

/-- After an iteration, the flag says what the counter says. -/
theorem endgame_of_rounds {rs : List Round} {l : Loop} {out : Bool × Loop}
    (hplaced : l.client.Placed) (hne : rs ≠ []) (h : l.rounds sha1 S msg rs = some out) :
    out.2.client.base.endgame =
      decide (out.2.client.downloader.remainingBlocks ≤ Downloader.endgameBlockThreshold) := by
  have hone : ∀ {l : Loop} {r : Round} {out : Bool × Loop}, l.client.Placed →
      l.iterate sha1 S msg r = some out → out.2.client.base.endgame =
        decide (out.2.client.downloader.remainingBlocks ≤ Downloader.endgameBlockThreshold) := by
    intro l r out hplaced h
    obtain ⟨-, c, -, hbase⟩ := iterate_spec hplaced h
    rw [downloader, hbase]
    rfl
  induction rs generalizing l with
  | nil => exact absurd rfl hne
  | cons r rest ih =>
    rw [rounds] at h
    rcases hiterate : l.iterate sha1 S msg r with - | ⟨_ | _, l'⟩ <;> rw [hiterate] at h
    · cases h
    · rcases eq_or_ne rest [] with rfl | hrest
      · obtain rfl := Option.some.inj h
        exact hone hplaced hiterate
      · exact ih (iterate_spec hplaced hiterate).1 hrest h
    · obtain rfl := Option.some.inj h
      exact hone hplaced hiterate

/-! ### Without endgame -/

/-- Steps that are taken while the flag is off lead from one state to another. -/
def Calm (sha1 : Bytes → Bytes) (d d' : Downloader) : Prop :=
  Run.Reaches (Downloader.step sha1) (fun s _ => s.endgame = false) d d'

/-- What leaves the flag alone is calm from a state in which the flag is off. -/
theorem calm_of_runs {d d' : Downloader} (h : Runs sha1 True d d') (hoff : d.endgame = false) :
    Calm sha1 d d' ∧ d'.endgame = false := by
  have hkeeps : ∀ (s : Downloader) e, s.endgame = false → LoopEvent True s e →
      (s.step sha1 e).endgame = false := by
    intro s e hs he
    rw [Downloader.endgame_step fun value hvalue => (he.endgame value hvalue).1 trivial]
    exact hs
  have hcalm : Calm sha1 (id d) (id d') :=
    Run.Reaches.simulates (P := fun s : Downloader => s.endgame = false)
      (fun s e hs he => ⟨hkeeps s e hs he, .single hs⟩) h hoff
  exact ⟨hcalm,
    Run.Reaches.invariant (P := fun s : Downloader => s.endgame = false) hkeeps h hoff⟩

/-- If the flag is off after every iteration but the last, no step has been taken in endgame. -/
theorem calm_of_rounds {d : Downloader} {rs : List Round} {l : Loop} {out : Bool × Loop}
    (hplaced : l.client.Placed) (hcalm : Calm sha1 d l.client.downloader)
    (hoff : l.client.base.endgame = false)
    (hmany : ∀ k, 0 < k → k < rs.length → ∀ l', l.rounds sha1 S msg (rs.take k) = some (false, l') →
      l'.client.base.endgame = false) (h : l.rounds sha1 S msg rs = some out) :
    ∃ c : Client, Calm sha1 d c.downloader ∧ out.2.client.base = c.base := by
  induction rs generalizing l with
  | nil =>
    obtain rfl := Option.some.inj h
    exact ⟨l.client, hcalm, rfl⟩
  | cons r rest ih =>
    rw [rounds] at h
    rcases hiterate : l.iterate sha1 S msg r with - | ⟨complete, l'⟩
    · rw [hiterate] at h
      cases h
    obtain ⟨hplaced', c, hruns, hbase⟩ := iterate_spec hplaced hiterate
    obtain ⟨hquiet, hstill⟩ := calm_of_runs hruns hoff
    have hflag : Calm sha1 c.downloader (c.downloader.step sha1
        (.endgame (decide (c.downloader.remainingBlocks ≤ Downloader.endgameBlockThreshold)))) :=
      .single hstill
    have hend : Calm sha1 d c.updateEndgame.downloader := (hcalm.trans hquiet).trans hflag
    rw [hiterate] at h
    cases complete with
    | true =>
      obtain rfl := Option.some.inj h
      exact ⟨c.updateEndgame, hend, hbase⟩
    | false =>
      rcases eq_or_ne rest [] with rfl | hrest
      · obtain rfl := Option.some.inj h
        exact ⟨c.updateEndgame, hend, hbase⟩
      have hpos := List.length_pos_of_ne_nil hrest
      have hoff' : l'.client.base.endgame = false := by
        refine hmany 1 Nat.zero_lt_one (Nat.succ_lt_succ hpos) l' ?_
        rw [List.take_succ_cons, List.take_zero, rounds, hiterate]
        rfl
      -- the rest of the iteration changes the connections alone
      have hconnections : Calm sha1 c.updateEndgame.downloader l'.client.downloader := by
        have hview : l'.client.downloader =
            c.updateEndgame.downloader.step sha1 (.connections l'.client.downloader.peers) := by
          rw [downloader, hbase]
          rfl
        have hquiet' : c.updateEndgame.downloader.endgame = false := by
          rw [hbase] at hoff'
          exact hoff'
        rw [hview]
        exact Run.Reaches.single hquiet'
      refine ih hplaced' (hend.trans hconnections) hoff' (fun k hk hlt l'' hl'' => ?_) h
      refine hmany (k + 1) (Nat.succ_pos k) (Nat.succ_lt_succ hlt) l'' ?_
      rw [List.take_succ_cons, rounds, hiterate]
      exact hl''

end Loop

namespace Client

variable {sha1 : Bytes → Bytes} {torrent : TorrentInfo} {options : DownloadOptions} {c c' : Client}

/-- The opening leaves the download alone. -/
theorem base_opening {S : (α : Type) → Sorting.Sorter α} {o : Opening} {out : Client ⊕ Loop}
    (h : c.opening S o = some out) : (out.elim id Loop.client).base = c.base := by
  refine opening_induction (P := fun c' => c'.base = c.base)
    (fun c' _ hc' => (base_fetchLatestTrackers c' _).trans hc') (fun _ hc' => hc')
    (fun c' resp hc' => ?_) (fun c' _ hc' => (base_addPeers c' _ _).trans hc') rfl h
  rw [addAnswered]
  split_ifs
  · exact (base_addPeers c' _ _).trans hc'
  · exact hc'

/-- Wherever the loop gets, its counter is right. -/
theorem Launched.remainingBlocks_eq (h : Launched sha1 torrent options c)
    (ht : Downloader.Fitting torrent) (hblocks : c.downloader.totalBlockCount < 2 ^ 31) {plain : Prop} {d' : Downloader}
    (hruns : Runs sha1 plain c.downloader d') : d'.remainingBlocks = d'.missingBlocks := by
  have hhere : Runs sha1 plain c.downloader c.downloader := .refl c.downloader
  have hstart := h.tracked ht hhere
  have htracked := h.tracked ht hruns
  refine Downloader.remainingBlocks_eq htracked ht (lt_of_eq_of_lt ?_ hblocks)
  exact Downloader.totalBlockCount_eq hstart.orderly.wellFormed htracked.orderly.wellFormed
    (htracked.torrent_eq.trans hstart.torrent_eq.symm)

/-- **Duplicates need endgame.** Take a torrent within the limits, of fewer than 2^31 blocks, and a
limit on the requests per peer that is not negative. As long as more than 64 blocks are missing after
every iteration but the last, no block has two pending requests. -/
theorem duplicates_need_endgame (ht : Downloader.Fitting torrent) {savePath : Bytes} {loopOptions : LoopOptions}
    {world : World} (hmax : 0 ≤ options.maxRequestsPerPeer) {known : List ((ℕ → ℤ) × List Peer)}
    {faults : List Fault} {stopAfter : Option ℕ}
    (hstart : ((init torrent savePath options loopOptions world).addKnown known).start sha1 faults
      stopAfter = (true, c)) (hblocks : c.downloader.totalBlockCount < 2 ^ 31)
    {S : (α : Type) → Sorting.Sorter α} {o : Opening} {msg : Wire.PeerMessage} {rs : List Round}
    (hmany : ∀ k, 0 < k → k < rs.length → ∀ c₁,
      c.downloadLoop S o sha1 msg (rs.take k) = some (false, c₁) → 64 < c₁.downloader.missingBlocks)
    {complete : Bool} (hloop : c.downloadLoop S o sha1 msg rs = some (complete, c')) (i offset : ℕ) :
    c'.downloader.requestsFor i offset ≤ 1 := by
  have hlaunched := launched_start ht hstart
  obtain ⟨d, hopened, -, hview⟩ := hlaunched.restored
  -- wherever the calm run ends, a block has one request at most
  suffices hcalm : ∃ c₁ : Client, Loop.Calm sha1 c.downloader c₁.downloader ∧ c'.base = c₁.base by
    obtain ⟨c₁, hreach, hbase⟩ := hcalm
    rw [hview] at hreach
    obtain ⟨events, halong, hrun⟩ := hreach
    rw [← hopened.options_eq] at hmax
    have hone := (hopened.startable.requests_restored hmax halong).2.1 (fun _ _ hguard => hguard) i
    rw [show Downloader.run sha1 _ events = c₁.downloader from hrun] at hone
    rw [downloader, hbase]
    exact hone offset
  rw [downloadLoop] at hloop
  rcases hopening : c.opening S o with - | c₁ | l <;> rw [hopening] at hloop
  · cases hloop
  · obtain ⟨-, rfl⟩ := Prod.mk.inj (Option.some.inj hloop)
    exact ⟨c, .refl _, base_opening hopening⟩
  obtain ⟨⟨complete, l'⟩, hrounds, hout⟩ := Option.map_eq_some_iff.1 hloop
  obtain ⟨-, rfl⟩ := Prod.mk.inj hout
  have hbase : l.client.base = c.base := base_opening hopening
  have hleads : Leads sha1 (fun _ => True) True c l.client :=
    leads_opening (fun _ => trivial) (fun _ => trivial) hopening
  obtain ⟨hplaced, hruns⟩ := hleads.refines hlaunched.placed
  obtain ⟨hreach, -⟩ := Loop.calm_of_runs hruns hlaunched.off
  refine Loop.calm_of_rounds hplaced hreach (hbase ▸ hlaunched.off) (fun k hk hlt l₁ hl₁ => ?_) hrounds
  -- the flag is off because the counter is right
  have hlast : c.downloadLoop S o sha1 msg (rs.take k) = some (false, l₁.client) := by
    rw [downloadLoop, hopening]
    exact congrArg (Option.map _) hl₁
  have hne : rs.take k ≠ [] := fun hnil => by
    have hlength := congrArg List.length hnil
    rw [List.length_take, List.length_nil] at hlength
    omega
  have hflag := Loop.endgame_of_rounds hplaced hne hl₁
  have hcount := hlaunched.remainingBlocks_eq ht hblocks
    (runs_downloadLoop hlaunched.placed hlast).2
  have hfar := hmany k hk hlt l₁.client hlast
  rw [hflag, hcount]
  exact decide_eq_false (not_le.2 (Int.ofNat_lt.2 hfar))

open Downloader (oneDirectory sevenHash)

/-- A torrent of 66 pieces of one byte. -/
def wideTorrent : TorrentInfo where
  name := ascii "a"
  pieceLength := 1
  pieces := List.replicate (66 * 20) 0
  fileName := ascii "a"
  fileLength := 66

/-- A client for it that has been started, with one known peer. -/
def wideStart : Bool × Client :=
  ((init wideTorrent (ascii "d") {} {} { fs := oneDirectory }).addKnown
    [(fun _ => 0, [⟨ascii "1.2.3.4", 6881, []⟩])]).start sevenHash [] none

/-- Two iterations: the peer has all pieces and unchokes, and then it sends the first block. -/
def wideSession : List Round :=
  [roundOf ([0, 0, 0, 10, 5] ++ List.replicate 9 0xff ++ [0, 0, 0, 1, 1]),
    roundOf [0, 0, 0, 10, 7, 0, 0, 0, 0, 0, 0, 0, 0, 7]]

/-- The client after some of them. -/
def wideEnd (k : ℕ) : Option (Bool × Client) :=
  wideStart.2.downloadLoop Sorting.mergeSorter quietOpening sevenHash { id := .keepAlive, length := 0 }
    (wideSession.take k)

/-- All blocks are missing after the first iteration, so the second one asks for none of them twice:
not for the second block, which is missing in the end. -/
theorem duplicates_need_endgame_wide : ∃ c', wideEnd 2 = some (false, c') ∧
    c'.downloader.blockReceived 1 0 = false ∧
    c'.downloader.requestsFor 1 0 ≤ 1 := by
  have hrun : wideStart.1 = true ∧ wideStart.2.downloader.totalBlockCount = 66 ∧
      (wideEnd 1).map (fun out => out.2.downloader.missingBlocks) = some 66 ∧
      (wideEnd 2).map (fun out => (out.1, out.2.downloader.blockReceived 1 0)) =
        some (false, false) := by decide +kernel
  obtain ⟨hstarts, hblocks, hfirst, hsecond⟩ := hrun
  have haccepted : validateTorrentInfo wideTorrent = .ok () := by decide +kernel
  have hstart : wideStart = (true, wideStart.2) := Prod.ext hstarts rfl
  obtain ⟨⟨complete, c'⟩, hloop, hout⟩ := Option.map_eq_some_iff.1 hsecond
  obtain ⟨rfl, hmissing⟩ := Prod.mk.inj hout
  refine ⟨c', hloop, hmissing, duplicates_need_endgame
    ⟨haccepted, by decide, by decide +kernel, by decide +kernel⟩ (by decide) hstart
    (hblocks ▸ by decide) (fun k hk hlt c₁ hc₁ => ?_) hloop 1 0⟩
  obtain rfl : k = 1 := le_antisymm (Nat.lt_succ_iff.1 hlt) hk
  obtain ⟨⟨complete, c₂⟩, hc₂, hcount⟩ := Option.map_eq_some_iff.1 hfirst
  obtain ⟨-, rfl⟩ := Prod.mk.inj (Option.some.inj (hc₁.symm.trans hc₂))
  exact hcount ▸ by decide

end Client

end Gush
