import Gush.Loop.Rounds

/-!
# The actions of the loop

Everything that `downloadLoop` does to a client is a run of a few actions. `downloadLoop_leads` says
so once and for all orders of peers, messages and clock readings; whatever each action preserves then
holds wherever the loop gets.

An action of `connectToPeers` is only taken for a peer that is not connected, and only while there
are fewer connections than the options allow; trackers are only added if they are refreshed. `T` is any property of the clock readings, and `plain`
leaves the endgame flag alone.
-/

namespace Gush.Client

open Cxx FirstMatch Posix Sorting

inductive Action
  | sort (links : List Link)
  | connect (ptr : ℕ) (a : Attempt)
  | receive (ptr : ℕ) (r : Reception) (msg : Wire.PeerMessage)
  | takePeers (ptr : ℕ)
  | addPeer (now : ℤ) (peer : Peer)
  | request (ptr : ℕ) (sends : List Bool) (now : ℤ)
  | timeouts (now : ℤ)
  | endgame
  | prune (ptr : ℕ) (now : ℤ) (evicted : ℕ → ℤ)
  | addTracker (tracker : Bytes)
  | contact (S : Sorter TrackerState) (trackers : TrackerManager.Round)

/-- A round of the loop over the messages of a peer. -/
def receive (sha1 : Bytes → Bytes) (c : Client) (ptr : ℕ) (r : Reception) (msg : Wire.PeerMessage) :
    Client :=
  match c.connection ptr with
  | none => c
  | some peer =>
    match (peer.arrive r.arrived).receiveMessageNonBlocking r.fuel msg with
    | none => c
    | some (false, peer, _) => c.setConnection ptr peer
    | some (true, peer, msg) => c.hear sha1 ptr r peer msg

/-- A connection hands over what it has discovered. -/
def takePeers (c : Client) (ptr : ℕ) : Client :=
  match c.connection ptr with
  | none => c
  | some peer => c.setConnection ptr peer.takeDiscoveredPeers.2

def act (sha1 : Bytes → Bytes) (c : Client) : Action → Client
  | .sort links => { c with links }
  | .connect ptr a => (c.connectRound ptr a).2
  | .receive ptr r msg => c.receive sha1 ptr r msg
  | .takePeers ptr => c.takePeers ptr
  | .addPeer now peer => c.addPeer now peer
  | .request ptr sends now => c.requestBlocksFromPeer ptr sends now
  | .timeouts now => c.cleanupTimedOutRequests now
  | .endgame => c.updateEndgame
  | .prune ptr now evicted => c.prunePeer now evicted ptr
  | .addTracker tracker => c.addTracker tracker
  | .contact S trackers => (c.contact S trackers).2

/-- When the loop takes an action. -/
def Enabled (c : Client) : Action → Prop
  | .sort links => links.Perm c.links
  | .connect ptr _ => c.isConnected ptr = false ∧ (c.connectedCount : ℤ) < c.loopOptions.maxPeers
  | .addTracker tracker =>
    c.loopOptions.refreshTrackers = true ∧ TrackerList.isValidTrackerUrl tracker = true
  | _ => True

/-- The clock readings that an action uses have a property. -/
def Action.Clocked (T : ℤ → Prop) : Action → Prop
  | .connect _ a => T a.now ∧ T a.done
  | .receive _ r _ => T r.now
  | .addPeer now _ => T now
  | .request _ _ now => T now
  | .timeouts now => T now
  | .prune ptr now evicted => T now ∧ T (evicted ptr)
  | _ => True

structure Allowed (T : ℤ → Prop) (plain : Prop) (c : Client) (a : Action) : Prop where
  enabled : c.Enabled a
  clocked : a.Clocked T
  plain : plain → a ≠ .endgame

/-- Actions of the loop lead from one client to another. -/
def Leads (sha1 : Bytes → Bytes) (T : ℤ → Prop) (plain : Prop) (c c' : Client) : Prop :=
  Run.Reaches (act sha1) (Allowed T plain) c c'

variable {sha1 : Bytes → Bytes} {T : ℤ → Prop} {plain : Prop} {c c' : Client}

theorem leads_act {a : Action} (h : Allowed T plain c a) : Leads sha1 T plain c (c.act sha1 a) :=
  Run.Reaches.single h

/-! ### The number of connected peers -/

theorem exists_link {ptr : ℕ} {peer : Wire.PeerConnection} (h : c.connection ptr = some peer) :
    ∃ l, lookup Link.ptr ptr c.links = some l ∧ l.connection = peer :=
  Option.map_eq_some_iff.1 h

theorem connectedCount_setConnection {ptr : ℕ} {old peer : Wire.PeerConnection}
    (h : c.connection ptr = some old) :
    (c.setConnection ptr peer).connectedCount + (if old.isConnected then 1 else 0) =
      c.connectedCount + if peer.isConnected then 1 else 0 := by
  obtain ⟨l, hl, rfl⟩ := exists_link h
  exact countP_modifyFirst (f := fun l => { l with connection := peer })
    (fun l : Link => l.connection.isConnected) hl

/-- A failed attempt leaves the connection closed. -/
theorem isConnected_of_connect_false {peer : Wire.PeerConnection}
    {net : Wire.PeerConnection.Network} (h : (peer.connect net).1 = false) :
    (peer.connect net).2.isConnected = false := by
  unfold Wire.PeerConnection.connect at h ⊢
  split_ifs at h ⊢ with hconnected hopens
  · rcases hout : peer.performHandshake { incoming := net.incoming } net with ⟨ok, peer'⟩
    rw [hout] at h
    cases ok with
    | false => rfl
    | true => cases h
  · rfl

/-- What an attempt does: a rejected peer is left alone; another one is connected and gets an unchoke
message, or it is rejected. -/
theorem connectRound_cases {ptr : ℕ} {peer : Wire.PeerConnection} (h : c.connection ptr = some peer)
    (a : Attempt) :
    (c.isPeerRejected peer.ip peer.port a.now).1 = true ∧
      c.connectRound ptr a = (false, (c.isPeerRejected peer.ip peer.port a.now).2) ∨
    (c.isPeerRejected peer.ip peer.port a.now).1 = false ∧ (peer.connect a.net).1 = true ∧
      c.connectRound ptr a = (true,
        ((c.isPeerRejected peer.ip peer.port a.now).2.setConnection ptr
          ((peer.connect a.net).2.sendUnchoke a.sent).2).modifyStats ptr fun stats =>
            stats.connected a.done) ∨
    (c.isPeerRejected peer.ip peer.port a.now).1 = false ∧ (peer.connect a.net).1 = false ∧
      c.connectRound ptr a = (false,
        ((c.isPeerRejected peer.ip peer.port a.now).2.setConnection ptr
          (peer.connect a.net).2).rejectPeer (peer.connect a.net).2.ip (peer.connect a.net).2.port
            a.done) := by
  rw [connectRound, h]
  dsimp only
  split_ifs with hrejected hconnected
  · exact .inl ⟨hrejected, rfl⟩
  · exact .inr (.inl ⟨Bool.eq_false_of_not_eq_true hrejected, hconnected, rfl⟩)
  · exact .inr (.inr ⟨Bool.eq_false_of_not_eq_true hrejected,
      Bool.eq_false_of_not_eq_true hconnected, rfl⟩)

/-- An attempt connects at most one peer, and only if it says so. -/
theorem connectedCount_connectRound (c : Client) (ptr : ℕ) (a : Attempt) :
    (c.connectRound ptr a).2.connectedCount ≤
      c.connectedCount + if (c.connectRound ptr a).1 then 1 else 0 := by
  cases hpeer : c.connection ptr with
  | none =>
    rw [connectRound, hpeer]
    simp
  | some peer =>
    have hset : ∀ new : Wire.PeerConnection,
        ((c.isPeerRejected peer.ip peer.port a.now).2.setConnection ptr new).connectedCount ≤
          c.connectedCount + if new.isConnected then 1 else 0 := by
      intro new
      have hcount := @connectedCount_setConnection (c.isPeerRejected peer.ip peer.port a.now).2 ptr
        peer new hpeer
      exact (Nat.le_add_right _ _).trans hcount.le
    rcases connectRound_cases hpeer a with ⟨-, heq⟩ | ⟨-, -, heq⟩ | ⟨-, hfailed, heq⟩ <;> rw [heq]
    · exact Nat.le_add_right _ _
    · refine (hset _).trans (Nat.add_le_add_left ?_ _)
      rw [if_pos rfl]
      split_ifs <;> omega
    · refine (hset _).trans (Nat.add_le_add_left ?_ _)
      rw [isConnected_of_connect_false hfailed]

/-! ### The parts of an iteration -/

theorem connectLoop_cons (attempts : ℕ → Attempt) (ptr : ℕ) (ptrs : List ℕ) (n : ℤ) (c : Client) :
    connectLoop attempts (ptr :: ptrs) n c =
      if c.isConnected ptr then connectLoop attempts ptrs n c
      else if n ≥ c.loopOptions.maxPeers then c
      else connectLoop attempts ptrs
        (if (c.connectRound ptr (attempts ptr)).1 then n + 1 else n)
        (c.connectRound ptr (attempts ptr)).2 := rfl

theorem leads_connectLoop {attempts : ℕ → Attempt}
    (hT : ∀ ptr, T (attempts ptr).now ∧ T (attempts ptr).done) (ptrs : List ℕ) {n : ℤ} {c : Client}
    (hn : (c.connectedCount : ℤ) ≤ n) : Leads sha1 T plain c (connectLoop attempts ptrs n c) := by
  induction ptrs generalizing n c with
  | nil => exact .refl c
  | cons ptr ptrs ih =>
    rw [connectLoop_cons]
    by_cases hconnected : c.isConnected ptr = true
    · rw [if_pos hconnected]
      exact ih hn
    · by_cases hfull : n ≥ c.loopOptions.maxPeers
      · rw [if_neg hconnected, if_pos hfull]
        exact .refl c
      rw [if_neg hconnected, if_neg hfull]
      have hcount := c.connectedCount_connectRound ptr (attempts ptr)
      have hround : Leads sha1 T plain c (c.connectRound ptr (attempts ptr)).2 :=
        leads_act (a := .connect ptr (attempts ptr))
          ⟨⟨Bool.eq_false_of_not_eq_true hconnected, by omega⟩, hT ptr, fun _ => nofun⟩
      refine hround.trans (ih ?_)
      cases hone : (c.connectRound ptr (attempts ptr)).1 with
      | true =>
        rw [hone, if_pos rfl] at hcount
        rw [if_pos rfl]
        omega
      | false =>
        rw [hone, if_neg (by decide)] at hcount
        rw [if_neg (by decide)]
        omega

theorem leads_connectToPeers (c : Client) (S : Sorter Link) {attempts : ℕ → Attempt}
    (hT : ∀ ptr, T (attempts ptr).now ∧ T (attempts ptr).done) :
    Leads sha1 T plain c (c.connectToPeers S attempts) := by
  have hperm := S.perm c.faster c.links
  have hsort : Leads sha1 T plain c { c with links := S.sort c.faster c.links } :=
    leads_act (a := .sort (S.sort c.faster c.links)) ⟨hperm, trivial, fun _ => nofun⟩
  refine hsort.trans (leads_connectLoop hT _ ?_)
  exact Int.ofNat_le.2 (hperm.countP_eq _).le

theorem leads_receiveLoop {ptr : ℕ} {rs : List Reception} (hT : ∀ r ∈ rs, T r.now) {c c' : Client}
    {msg : Wire.PeerMessage} (h : receiveLoop sha1 ptr rs c msg = some c') :
    Leads sha1 T plain c c' := by
  induction rs generalizing c msg with
  | nil => cases h
  | cons r rest ih =>
    have hround : Leads sha1 T plain c (c.receive sha1 ptr r msg) :=
      leads_act (a := .receive ptr r msg) ⟨trivial, hT r List.mem_cons_self, fun _ => nofun⟩
    rw [receiveLoop] at h
    rw [receive] at hround
    cases hpeer : c.connection ptr with
    | none =>
      rw [hpeer] at h
      obtain rfl := Option.some.inj h
      exact .refl c
    | some peer =>
      rw [hpeer] at h hround
      dsimp only at h hround
      rcases hout : (peer.arrive r.arrived).receiveMessageNonBlocking r.fuel msg with
        - | ⟨_ | _, peer', msg'⟩ <;> rw [hout] at h hround
      · cases h
      · obtain rfl := Option.some.inj h
        exact hround
      · exact hround.trans (ih (fun r' hr' => hT r' (List.mem_cons_of_mem r hr')) h)

theorem leads_takePeers {ptr : ℕ} {peer : Wire.PeerConnection} (h : c.connection ptr = some peer) :
    Leads sha1 T plain c (c.setConnection ptr peer.takeDiscoveredPeers.2) := by
  have htake : Leads sha1 T plain c (c.takePeers ptr) :=
    leads_act (a := .takePeers ptr) ⟨trivial, trivial, fun _ => nofun⟩
  rw [takePeers, h] at htake
  exact htake

theorem leads_addPeers (c : Client) {now : ℕ → ℤ} (hT : ∀ i, T (now i)) (peers : List Peer) :
    Leads sha1 T plain c (c.addPeers now peers) :=
  Run.reaches_foldl (fun _ (entry : Peer × ℕ) =>
    leads_act (a := .addPeer (now entry.2) entry.1) ⟨trivial, hT entry.2, fun _ => nofun⟩) _ c

theorem leads_processLoop {receptions : ℕ → List Reception}
    (hT : ∀ ptr, ∀ r ∈ receptions ptr, T r.now) {msg : Wire.PeerMessage} {ptrs : List ℕ}
    {pexPeers : List Peer} {c : Client} {out : List Peer × Client}
    (h : processLoop sha1 receptions msg ptrs pexPeers c = some out) :
    Leads sha1 T plain c out.2 := by
  induction ptrs generalizing pexPeers c with
  | nil =>
    obtain rfl := Option.some.inj h
    exact .refl c
  | cons ptr ptrs ih =>
    rw [processLoop] at h
    split_ifs at h with hconnected
    · exact ih h
    · cases hreceive : receiveLoop sha1 ptr (receptions ptr) c msg with
      | none =>
        rw [hreceive] at h
        cases h
      | some c₁ =>
        rw [hreceive] at h
        dsimp only at h
        have hround : Leads sha1 T plain c c₁ := leads_receiveLoop (hT ptr) hreceive
        cases hpeer : c₁.connection ptr with
        | none =>
          rw [hpeer] at h
          exact hround.trans (ih h)
        | some peer =>
          rw [hpeer] at h
          exact hround.trans ((leads_takePeers hpeer).trans (ih h))

theorem leads_processPeerMessages {receptions : ℕ → List Reception}
    (hT : ∀ ptr, ∀ r ∈ receptions ptr, T r.now) {msg : Wire.PeerMessage} {now : ℕ → ℤ}
    (hnow : ∀ i, T (now i)) (h : c.processPeerMessages sha1 receptions msg now = some c') :
    Leads sha1 T plain c c' := by
  obtain ⟨out, hout, rfl⟩ := Option.map_eq_some_iff.1 h
  have hloop : Leads sha1 T plain c out.2 := leads_processLoop hT hout
  split_ifs
  · exact hloop
  · exact hloop.trans (leads_addPeers _ hnow _)

theorem leads_requestPieces (c : Client) (S : Sorter ℕ) (sends : ℕ → List Bool) {now : ℕ → ℤ}
    (hT : ∀ ptr, T (now ptr)) : Leads sha1 T plain c (c.requestPieces S sends now) := by
  refine Run.reaches_foldl (fun c' ptr => ?_) _ c
  split_ifs
  · exact .refl c'
  · exact leads_act (a := .request ptr (sends ptr) (now ptr)) ⟨trivial, hT ptr, fun _ => nofun⟩

theorem leads_cleanup (c : Client) {now : ℤ} (hT : T now) :
    Leads sha1 T plain c (c.cleanupTimedOutRequests now) :=
  leads_act (a := .timeouts now) ⟨trivial, hT, fun _ => nofun⟩

theorem leads_updateEndgame (c : Client) (hplain : ¬ plain) :
    Leads sha1 T plain c c.updateEndgame :=
  leads_act (a := .endgame) ⟨trivial, trivial, fun h => absurd h hplain⟩

theorem leads_pruneBadPeers (c : Client) {now : ℤ} {evicted : ℕ → ℤ} (hT : T now)
    (hevicted : ∀ ptr, T (evicted ptr)) : Leads sha1 T plain c (c.pruneBadPeers now evicted) :=
  Run.reaches_foldl (fun _ ptr =>
    leads_act (a := .prune ptr now evicted) ⟨trivial, ⟨hT, hevicted ptr⟩, fun _ => nofun⟩) _ c

theorem leads_addTrackers {trackers : List Bytes}
    (hvalid : ∀ tracker ∈ trackers, TrackerList.isValidTrackerUrl tracker = true) {c : Client}
    (hrefresh : c.loopOptions.refreshTrackers = true) :
    Leads sha1 T plain c (trackers.foldl addTracker c) := by
  induction trackers generalizing c with
  | nil => exact .refl c
  | cons tracker trackers ih =>
    have hone : Leads sha1 T plain c (c.addTracker tracker) :=
      leads_act (a := .addTracker tracker)
        ⟨⟨hrefresh, hvalid tracker List.mem_cons_self⟩, trivial, fun _ => nofun⟩
    have hoptions : (c.addTracker tracker).loopOptions = c.loopOptions := by
      rw [addTracker]
      split_ifs <;> rfl
    exact hone.trans (ih (fun t ht => hvalid t (List.mem_cons_of_mem tracker ht))
      (hoptions ▸ hrefresh))

theorem leads_fetchLatestTrackers (hrefresh : c.loopOptions.refreshTrackers = true)
    (env : Tracker.Environment) : Leads sha1 T plain c (c.fetchLatestTrackers env) :=
  leads_addTrackers (fun _ hmem => TrackerList.valid_of_mem_fetched hmem) hrefresh

theorem leads_contact (c : Client) (S : Sorter TrackerState) (trackers : TrackerManager.Round) :
    Leads sha1 T plain c (c.contact S trackers).2 :=
  leads_act (a := .contact S trackers) ⟨trivial, trivial, fun _ => nofun⟩

theorem leads_addAnswered (c : Client) {added : ℕ → ℤ} (hT : ∀ i, T (added i))
    (resp : TrackerResponse) : Leads sha1 T plain c (c.addAnswered added resp) := by
  rw [addAnswered]
  split_ifs
  · exact leads_addPeers c hT _
  · exact .refl c

end Client

/-! ### Iterations -/

/-- All clock readings of an iteration have a property. -/
structure Round.Clocked (T : ℤ → Prop) (r : Round) : Prop where
  attempts : ∀ ptr, T (r.attempts ptr).now ∧ T (r.attempts ptr).done
  receptions : ∀ ptr, ∀ reception ∈ r.receptions ptr, T reception.now
  discovered : ∀ i, T (r.discovered i)
  asked : ∀ ptr, T (r.asked ptr)
  cleanup : T r.cleanup
  prune : T r.prune
  evicted : ∀ ptr, T (r.evicted ptr)
  added : ∀ i, T (r.added i)

namespace Loop

open Client Sorting

variable {sha1 : Bytes → Bytes} {S : (α : Type) → Sorter α} {msg : Wire.PeerMessage} {r : Round}
  {T : ℤ → Prop} {plain : Prop} {l : Loop}

/-- The first part of an iteration; its last action sets the endgame flag. -/
theorem leads_exchange (hT : r.Clocked T) {c : Client} (h : l.exchange sha1 S msg r = some c) :
    ∃ c', Leads sha1 T plain l.client c' ∧ c = c'.updateEndgame := by
  obtain ⟨c₁, hprocess, rfl⟩ := Option.map_eq_some_iff.1 h
  have hconnect : Leads sha1 T plain l.client (l.client.connectToPeers (S Link) r.attempts) :=
    leads_connectToPeers l.client (S Link) hT.attempts
  have hreceive : Leads sha1 T plain (l.client.connectToPeers (S Link) r.attempts) c₁ :=
    leads_processPeerMessages hT.receptions hT.discovered hprocess
  refine ⟨_, ?_, rfl⟩
  exact ((hconnect.trans hreceive).trans (leads_requestPieces c₁ (S ℕ) r.sends hT.asked)).trans
    (leads_cleanup _ hT.cleanup)

theorem leads_finish (l : Loop) (hT : r.Clocked T) :
    Leads sha1 T plain l.client (l.finish S r).2.client := by
  have hprune : Leads sha1 T plain l.client (l.pruneIfDue r).client := by
    rw [pruneIfDue]
    split_ifs
    · exact leads_pruneBadPeers l.client hT.prune hT.evicted
    · exact .refl _
  have hfetch : ∀ l : Loop, Leads sha1 T plain l.client (l.fetchIfDue r).client := by
    intro l
    rw [fetchIfDue]
    split_ifs with hdue
    · exact leads_fetchLatestTrackers hdue.1 r.lists
    · exact .refl _
  have hrecontact : ∀ l : Loop, Leads sha1 T plain l.client (l.recontactIfDue S r).client := by
    intro l
    rw [recontactIfDue]
    split_ifs
    · exact (leads_contact l.client (S TrackerState) r.trackers).trans
        (leads_addAnswered _ hT.added _)
    · exact .refl _
  rw [finish]
  split_ifs
  · exact hprune
  · exact (hprune.trans (hfetch _)).trans (hrecontact _)

theorem leads_iterate (hT : r.Clocked T) {out : Bool × Loop} (h : l.iterate sha1 S msg r = some out) :
    Leads sha1 T False l.client out.2.client := by
  obtain ⟨c, hexchange, rfl⟩ := Option.map_eq_some_iff.1 h
  obtain ⟨c', hc', rfl⟩ : ∃ c', Leads sha1 T False l.client c' ∧ c = c'.updateEndgame :=
    leads_exchange hT hexchange
  have hendgame : Leads sha1 T False c' c'.updateEndgame := leads_updateEndgame c' not_false
  exact (hc'.trans hendgame).trans
    (leads_finish (S := S) { l with client := c'.updateEndgame } hT)

theorem leads_rounds {rs : List Round} (hT : ∀ r ∈ rs, r.Clocked T) {l : Loop} {out : Bool × Loop}
    (h : l.rounds sha1 S msg rs = some out) : Leads sha1 T False l.client out.2.client := by
  induction rs generalizing l with
  | nil =>
    obtain rfl := Option.some.inj h
    exact .refl _
  | cons r rest ih =>
    rw [rounds] at h
    rcases hiterate : l.iterate sha1 S msg r with - | ⟨_ | _, l'⟩ <;> rw [hiterate] at h
    · cases h
    · have hround := leads_iterate (hT r List.mem_cons_self) hiterate
      exact hround.trans (ih (fun r' hr' => hT r' (List.mem_cons_of_mem r hr')) h)
    · obtain rfl := Option.some.inj h
      exact leads_iterate (hT r List.mem_cons_self) hiterate

end Loop

namespace Client

open Sorting

variable {sha1 : Bytes → Bytes} {S : (α : Type) → Sorter α} {msg : Wire.PeerMessage} {o : Opening}
  {T : ℤ → Prop} {plain : Prop} {c : Client}

/-- What the parts of the opening preserve, the opening preserves. -/
theorem opening_induction {P : Client → Prop}
    (hfetch : ∀ c : Client, c.loopOptions.refreshTrackers = true → P c →
      P (c.fetchLatestTrackers o.lists))
    (hcontact : ∀ c : Client, P c → P (c.contact (S TrackerState) o.trackers).2)
    (hadd : ∀ (c : Client) resp, P c → P (c.addAnswered o.added resp))
    (hdht : ∀ (c : Client) found, P c → P (c.addPeers o.dhtAdded found)) (hc : P c)
    {out : Client ⊕ Loop} (h : c.opening S o = some out) : P (out.elim id Loop.client) := by
  rw [opening] at h
  by_cases hstart : o.stop = some .atStart
  · rw [if_pos hstart] at h
    obtain rfl := Option.some.inj h
    exact hc
  rw [if_neg hstart] at h
  obtain ⟨c₁, heq, hc₁⟩ : ∃ c₁, (if c.loopOptions.refreshTrackers then c.fetchLatestTrackers o.lists
      else c) = c₁ ∧ P c₁ := by
    refine ⟨_, rfl, ?_⟩
    split_ifs with hrefresh
    · exact hfetch c hrefresh hc
    · exact hc
  rw [heq] at h
  by_cases hfetched : o.stop = some .afterFetch
  · rw [if_pos hfetched] at h
    obtain rfl := Option.some.inj h
    exact hc₁
  rw [if_neg hfetched] at h
  dsimp only at h
  have hc₂ := hcontact c₁ hc₁
  by_cases hcontacted : o.stop = some .afterContact
  · rw [if_pos hcontacted] at h
    obtain rfl := Option.some.inj h
    exact hc₂
  rw [if_neg hcontacted] at h
  have hc₃ := hadd _ (c₁.contact (S TrackerState) o.trackers).1 hc₂
  split_ifs at h with hknown hstopped
  · obtain rfl := Option.some.inj h
    exact hc₃
  · obtain ⟨found, -, rfl⟩ := Option.map_eq_some_iff.1 h
    exact hc₃
  · obtain ⟨found, -, rfl⟩ := Option.map_eq_some_iff.1 h
    exact hdht _ found hc₃

theorem leads_opening (hadded : ∀ i, T (o.added i)) (hdht : ∀ i, T (o.dhtAdded i))
    {out : Client ⊕ Loop} (h : c.opening S o = some out) :
    Leads sha1 T plain c (out.elim id Loop.client) :=
  opening_induction (P := Leads sha1 T plain c)
    (fun _ hrefresh hc' => hc'.trans (leads_fetchLatestTrackers hrefresh o.lists))
    (fun c' hc' => hc'.trans (leads_contact c' (S TrackerState) o.trackers))
    (fun c' resp hc' => hc'.trans (leads_addAnswered c' hadded resp))
    (fun c' found hc' => hc'.trans (leads_addPeers c' hdht found)) (.refl c) h

/-- All clock readings of an execution have a property. -/
structure Clocked (T : ℤ → Prop) (o : Opening) (rs : List Round) : Prop where
  added : ∀ i, T (o.added i)
  dhtAdded : ∀ i, T (o.dhtAdded i)
  rounds : ∀ r ∈ rs, r.Clocked T

theorem downloadLoop_leads {rs : List Round} (hT : Clocked T o rs) {out : Bool × Client}
    (h : c.downloadLoop S o sha1 msg rs = some out) : Leads sha1 T False c out.2 := by
  rw [downloadLoop] at h
  rcases hopening : c.opening S o with - | c' | l <;> rw [hopening] at h
  · cases h
  · obtain rfl := Option.some.inj h
    exact leads_opening hT.added hT.dhtAdded hopening
  · obtain ⟨end', hrounds, rfl⟩ := Option.map_eq_some_iff.1 h
    have hopen : Leads sha1 T False c l.client := leads_opening hT.added hT.dhtAdded hopening
    exact hopen.trans (Loop.leads_rounds hT.rounds hrounds)

end Client

end Gush
