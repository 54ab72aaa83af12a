import Gush.Loop.Links

/-!
# The connections of the loop

Wherever the loop gets, no two connections have one address, no more of them are open than the options
allow, and no open one has a rejected address (`connections_limited`). A rejected address stays
rejected for five minutes (`rejected_stay_out`).
-/

namespace Gush

namespace Client

open Cxx FirstMatch Posix
open Swarm (rejectKey)

variable {sha1 : Bytes → Bytes} {T : ℤ → Prop} {plain : Prop} {c c' : Client} {ptr : ℕ}
  {peer peer' : Wire.PeerConnection} {ip : Bytes} {port : UInt16} {now : ℤ}

/-! ### Rejected peers -/

/-- Addresses have different keys. -/
theorem rejectKey_inj {ip' : Bytes} {port' : UInt16} (h : rejectKey ip port = rejectKey ip' port') :
    ip = ip' ∧ port = port' := by
  obtain rfl := Swarm.rejectKey_port h
  exact ⟨List.append_cancel_right h, rfl⟩

/-- A peer that counts as rejected is not forgotten. -/
theorem isPeerRejected_of_true (h : (c.isPeerRejected ip port now).1 = true) :
    (c.isPeerRejected ip port now).2 = c := by
  rw [isPeerRejected] at h ⊢
  rcases c.swarm.isPeerRejected_cases ip port now with ⟨heq, -⟩ | ⟨rejected, heq, -⟩
  · rw [heq]
    rfl
  · rw [heq] at h
    cases h

/-- A peer that does not count as rejected is not kept. -/
theorem recentlyRejected_of_false (h : (c.isPeerRejected ip port now).1 = false) :
    (c.isPeerRejected ip port now).2.recentlyRejected =
      Function.update c.recentlyRejected (rejectKey ip port) none := by
  have hswarm : c.swarm.recentlyRejected = c.recentlyRejected := rfl
  rw [isPeerRejected, Swarm.isPeerRejected] at h ⊢
  rw [hswarm] at h ⊢
  cases htime : c.recentlyRejected (rejectKey ip port) with
  | none => exact (Function.update_eq_self_iff.2 htime.symm).symm
  | some time =>
    rw [htime] at h
    dsimp only at h ⊢
    split_ifs at h ⊢ with hover
    rfl

/-- A peer counts as rejected as long as its time is not over. -/
theorem isPeerRejected_of_some {time : ℤ} (h : c.recentlyRejected (rejectKey ip port) = some time)
    (htime : (now - time).tdiv (10 ^ 9) ≤ Swarm.rejectCooldownSeconds) :
    (c.isPeerRejected ip port now).1 = true := by
  have hswarm : c.swarm.recentlyRejected (rejectKey ip port) = some time := h
  rw [isPeerRejected, Swarm.isPeerRejected, hswarm]
  dsimp only
  rw [if_neg (not_lt.2 htime)]

/-! ### What happens to a connection -/

/-- A connection that is not opened, and its address. -/
structure Ages (peer peer' : Wire.PeerConnection) : Prop where
  closed : peer.isConnected = false → peer'.isConnected = false
  ip : peer'.ip = peer.ip
  port : peer'.port = peer.port

theorem socket_of_closed (h : peer.isConnected = false) : peer.socket = none :=
  Option.isNone_iff_eq_none.1 (Option.isSome_eq_false_iff.1 h)

theorem follows_ages : Follows (fun _ => True) Ages where
  refl _ := ⟨id, rfl, rfl⟩
  trans h h' := ⟨h'.closed ∘ h.closed, h'.ip.trans h.ip, h'.port.trans h.port⟩
  send peer msg sent _ := by
    have hkeeps := peer.keeps_sendMessage msg sent
    refine ⟨fun hclosed => ?_, hkeeps.ip, hkeeps.port⟩
    have hsocket := socket_of_closed hclosed
    rw [Wire.PeerConnection.sendMessage, hsocket]
    exact hclosed
  receive peer bytes fuel msg out hout := by
    have hkeeps := Wire.PeerConnection.keeps_receiveMessageNonBlocking hout
    refine ⟨fun hclosed => ?_, hkeeps.ip, hkeeps.port⟩
    have hsocket := socket_of_closed hclosed
    have harrive : (peer.arrive bytes).socket = none := by
      rw [Wire.PeerConnection.arrive, hsocket]
      rfl
    rw [Wire.PeerConnection.receiveMessageNonBlocking, harrive] at hout
    obtain rfl := Option.some.inj hout
    rw [Wire.PeerConnection.isConnected, harrive]
    rfl
  take _ := ⟨id, rfl, rfl⟩
  disconnect _ := ⟨fun _ => rfl, rfl, rfl⟩

theorem asks_true (d : Downloader) : Asks (fun _ => True) d :=
  ⟨fun _ _ _ _ _ => trivial, fun _ _ => trivial⟩

/-! ### The invariant -/

/-- No two connections have one address. -/
def Apart (c : Client) : Prop :=
  ∀ ptr ptr' peer peer', c.connection ptr = some peer → c.connection ptr' = some peer' →
    peer.ip = peer'.ip → peer.port = peer'.port → ptr = ptr'

/-- Connections that keep their addresses. -/
theorem Apart.of_related (h : c.Apart) (hr : ∀ ptr peer', c'.connection ptr = some peer' →
    ∃ peer, c.connection ptr = some peer ∧ peer'.ip = peer.ip ∧ peer'.port = peer.port) :
    c'.Apart := by
  intro ptr ptr' peer peer' hpeer hpeer' hip hport
  obtain ⟨old, hold, holdip, holdport⟩ := hr ptr peer hpeer
  obtain ⟨old', hold', holdip', holdport'⟩ := hr ptr' peer' hpeer'
  exact h ptr ptr' old old' hold hold' (holdip ▸ holdip' ▸ hip) (holdport ▸ holdport' ▸ hport)

/-- The addresses are apart, not too many connections are open, and none of these is rejected. -/
structure Tidy (c : Client) : Prop where
  placed : c.Placed
  apart : c.Apart
  limited : (c.connectedCount : ℤ) ≤ max 0 c.loopOptions.maxPeers
  out : ∀ ptr peer, c.connection ptr = some peer → peer.isConnected = true →
    c.recentlyRejected (rejectKey peer.ip peer.port) = none

/-- No more connections are open than before. -/
theorem Rewired.connectedCount_le (h : Rewired Ages c c') (hplaced : c.Placed) :
    c'.connectedCount ≤ c.connectedCount := by
  rw [(hplaced.of_perm h.ptrs).connectedCount_eq, hplaced.connectedCount_eq, ← h.ptrs.countP_eq]
  refine List.countP_mono_left fun ptr _ hopen => ?_
  rw [isConnected] at hopen ⊢
  cases hpeer' : c'.connection ptr with
  | none =>
    rw [hpeer'] at hopen
    cases hopen
  | some peer' =>
    rw [hpeer'] at hopen
    obtain ⟨peer, hpeer, hage⟩ := h.related ptr peer' hpeer'
    rw [hpeer]
    by_contra hclosed
    have hstill := hage.closed (Bool.eq_false_of_not_eq_true hclosed)
    exact Bool.false_ne_true (hstill.symm.trans hopen)

/-- If connections only age and rejected peers are only forgotten, all stays tidy. -/
theorem Tidy.of_rewired (h : c.Tidy) (hr : Rewired Ages c c') (hoptions : c'.loopOptions = c.loopOptions)
    (hforget : ∀ key, c.recentlyRejected key = none → c'.recentlyRejected key = none) : c'.Tidy where
  placed := h.placed.of_perm hr.ptrs
  apart := h.apart.of_related fun ptr peer' hpeer' => by
    obtain ⟨peer, hpeer, hage⟩ := hr.related ptr peer' hpeer'
    exact ⟨peer, hpeer, hage.ip, hage.port⟩
  limited := by
    have hcount := hr.connectedCount_le h.placed
    have hlimited := h.limited
    rw [hoptions]
    omega
  out ptr peer hpeer hopen := by
    obtain ⟨old, hold, hage⟩ := hr.related ptr peer hpeer
    rw [hage.ip, hage.port]
    refine hforget _ (h.out ptr old hold ?_)
    by_contra hclosed
    rw [hage.closed (Bool.eq_false_of_not_eq_true hclosed)] at hopen
    cases hopen

/-- A peer without an open connection can be rejected. -/
theorem Tidy.rejectPeer (h : c.Tidy) (hclosed : ∀ ptr peer, c.connection ptr = some peer →
    peer.ip = ip → peer.port = port → peer.isConnected = false) : (c.rejectPeer ip port now).Tidy where
  placed := h.placed.of_eq rfl
  apart := h.apart
  limited := h.limited
  out ptr peer hpeer hopen := by
    have hother : rejectKey peer.ip peer.port ≠ rejectKey ip port := fun hkey => by
      obtain ⟨hip, hport⟩ := rejectKey_inj hkey
      rw [hclosed ptr peer hpeer hip hport] at hopen
      cases hopen
    show Function.update c.recentlyRejected (rejectKey ip port) (some now) _ = none
    rw [Function.update_of_ne hother]
    exact h.out ptr peer hpeer hopen

/-- Asking for a rejected peer only forgets. -/
theorem forgets_isPeerRejected (c : Client) (ip : Bytes) (port : UInt16) (now : ℤ) (key : Bytes)
    (h : c.recentlyRejected key = none) :
    (c.isPeerRejected ip port now).2.recentlyRejected key = none := by
  cases hanswer : (c.isPeerRejected ip port now).1 with
  | true =>
    rw [isPeerRejected_of_true hanswer]
    exact h
  | false =>
    rw [recentlyRejected_of_false hanswer, Function.update_apply]
    split_ifs
    · rfl
    · exact h

theorem Tidy.isPeerRejected (h : c.Tidy) : (c.isPeerRejected ip port now).2.Tidy :=
  h.of_rewired (.of_links follows_ages rfl) rfl (forgets_isPeerRejected c ip port now)

/-! ### Actions -/

theorem Tidy.addPeer (h : c.Tidy) (now : ℤ) (peer : Peer) : (c.addPeer now peer).Tidy := by
  have hplaced := h.placed.addPeer now peer
  rcases c.addPeer_cases now peer with heq | ⟨-, hnew, heq⟩
  · rw [heq]
    exact h.isPeerRejected
  rw [heq] at hplaced ⊢
  -- a connection is an old one, or the new one at the end
  have hconnection : ∀ ptr peer', ({ (c.isPeerRejected peer.ip peer.port now).2 with
      links := c.links ++ [⟨c.links.length, c.swarm.connectionTo peer⟩] } : Client).connection ptr =
        some peer' → c.connection ptr = some peer' ∨
          ptr = c.links.length ∧ peer' = c.swarm.connectionTo peer := by
    intro ptr peer' hpeer'
    rw [connection, lookup_append_singleton] at hpeer'
    cases hold : lookup Link.ptr ptr c.links with
    | some l =>
      rw [hold] at hpeer'
      exact .inl ((congrArg (Option.map Link.connection) hold).trans hpeer')
    | none =>
      rw [hold, Option.none_or] at hpeer'
      split_ifs at hpeer' with hptr
      · exact .inr ⟨hptr.symm, (Option.some.inj hpeer').symm⟩
      · cases hpeer'
  have hother : ∀ ptr peer', c.connection ptr = some peer' →
      ¬ (peer'.ip = peer.ip ∧ peer'.port = peer.port) := by
    intro ptr peer' hpeer'
    obtain ⟨l, hl, -, rfl⟩ := exists_mem hpeer'
    exact hnew l hl
  refine ⟨hplaced, fun ptr ptr' old old' hold hold' hip hport => ?_, ?_, fun ptr old hold hopen => ?_⟩
  · rcases hconnection ptr old hold with hold | ⟨rfl, rfl⟩ <;>
      rcases hconnection ptr' old' hold' with hold' | ⟨rfl, rfl⟩
    · exact h.apart ptr ptr' old old' hold hold' hip hport
    · exact absurd ⟨hip, hport⟩ (hother ptr old hold)
    · exact absurd ⟨hip.symm, hport.symm⟩ (hother ptr' old' hold')
    · rfl
  · have hcount : ({ (c.isPeerRejected peer.ip peer.port now).2 with
        links := c.links ++ [⟨c.links.length, c.swarm.connectionTo peer⟩] } : Client).connectedCount =
          c.connectedCount := by
      rw [connectedCount, List.countP_append]
      rfl
    rw [hcount]
    exact h.limited
  · rcases hconnection ptr old hold with hold | ⟨rfl, rfl⟩
    · exact forgets_isPeerRejected c _ _ now _ (h.out ptr old hold hopen)
    · cases hopen

/-- An attempt connects a peer that is not rejected, or rejects a peer that is not connected. -/
theorem Tidy.connectRound (h : c.Tidy) {a : Attempt} (hfree : c.isConnected ptr = false)
    (hroom : (c.connectedCount : ℤ) < c.loopOptions.maxPeers) : (c.connectRound ptr a).2.Tidy := by
  have hcount := c.connectedCount_connectRound ptr a
  cases hpeer : c.connection ptr with
  | none =>
    rw [Client.connectRound, hpeer]
    exact h
  | some peer =>
    have hclosed : peer.isConnected = false := by
      rw [isConnected, hpeer] at hfree
      exact hfree
    have hkeeps := peer.keeps_connect a.net
    rcases connectRound_cases hpeer a with ⟨-, heq⟩ | ⟨hfresh, -, heq⟩ | ⟨-, hfailed, heq⟩
    · rw [heq]
      exact h.isPeerRejected
    · have hunchoke := (peer.connect a.net).2.keeps_sendUnchoke a.sent
      rw [heq] at hcount ⊢
      -- the connection behind the pointer, and all others
      have hconnection : ∀ ptr' peer', ((c.isPeerRejected peer.ip peer.port
          a.now).2.setConnection ptr ((peer.connect a.net).2.sendUnchoke a.sent).2).connection ptr' =
            some peer' → ∃ old, c.connection ptr' = some old ∧ peer'.ip = old.ip ∧
              peer'.port = old.port ∧ (ptr' = ptr ∨ peer' = old) := by
        intro ptr' peer' hpeer'
        rw [connection_setConnection] at hpeer'
        split_ifs at hpeer' with hptr
        · subst hptr
          obtain ⟨-, -, rfl⟩ := Option.map_eq_some_iff.1 hpeer'
          exact ⟨peer, hpeer, hunchoke.ip.trans hkeeps.ip, hunchoke.port.trans hkeeps.port,
            .inl rfl⟩
        · exact ⟨peer', hpeer', rfl, rfl, .inr rfl⟩
      refine ⟨h.placed.of_eq ptrs_setConnection, h.apart.of_related fun ptr' peer' hpeer' => ?_, ?_,
        fun ptr' peer' hpeer' hopen => ?_⟩
      · obtain ⟨old, hold, hip, hport, -⟩ := hconnection ptr' peer' hpeer'
        exact ⟨old, hold, hip, hport⟩
      · rw [if_pos rfl] at hcount
        exact le_max_of_le_right ((Int.ofNat_le.2 hcount).trans (Int.add_one_le_iff.2 hroom))
      · obtain ⟨old, hold, hip, hport, rfl | rfl⟩ := hconnection ptr' peer' hpeer'
        · obtain rfl := Option.some.inj (hold.symm.trans hpeer)
          show (c.isPeerRejected old.ip old.port a.now).2.recentlyRejected _ = none
          rw [hip, hport, recentlyRejected_of_false hfresh, Function.update_self]
        · exact forgets_isPeerRejected c _ _ a.now _ (h.out ptr' peer' hold hopen)
    · rw [heq]
      have hset : Rewired Ages c
          ((c.isPeerRejected peer.ip peer.port a.now).2.setConnection ptr (peer.connect a.net).2) :=
        (rewired_setConnection follows_ages hpeer ⟨fun _ => isConnected_of_connect_false hfailed,
          hkeeps.ip, hkeeps.port⟩).trans follows_ages (.of_links follows_ages rfl)
      have htidy := h.of_rewired hset rfl (forgets_isPeerRejected c peer.ip peer.port a.now)
      refine htidy.rejectPeer fun ptr' peer' hpeer' hip hport => ?_
      -- the only connection to that address is the one that has failed
      have hself : ((c.isPeerRejected peer.ip peer.port a.now).2.setConnection ptr
          (peer.connect a.net).2).connection ptr = some (peer.connect a.net).2 := by
        rw [connection_setConnection, if_pos rfl]
        exact congrArg (Option.map _) hpeer
      obtain rfl := htidy.apart ptr' ptr _ _ hpeer' hself hip hport
      obtain rfl := Option.some.inj (hpeer'.symm.trans hself)
      exact isConnected_of_connect_false hfailed

theorem Tidy.prunePeer (h : c.Tidy) (now : ℤ) (evicted : ℕ → ℤ) (ptr : ℕ) :
    (c.prunePeer now evicted ptr).Tidy := by
  rw [Client.prunePeer]
  split
  · exact h
  · rename_i peer hpeer
    split_ifs
    · have hset : Rewired Ages c (c.setConnection ptr peer.disconnect) :=
        rewired_setConnection follows_ages hpeer (follows_ages.disconnect peer)
      have htidy := h.of_rewired hset rfl fun _ => id
      refine htidy.rejectPeer fun ptr' peer' hpeer' hip hport => ?_
      have hself : (c.setConnection ptr peer.disconnect).connection ptr = some peer.disconnect := by
        rw [connection_setConnection, if_pos rfl, hpeer]
        rfl
      obtain rfl := htidy.apart ptr' ptr _ _ hpeer' hself hip hport
      obtain rfl := Option.some.inj (hpeer'.symm.trans hself)
      rfl
    · exact h

/-- Receiving, asking and sorting open nothing and leave the books alone. -/
theorem Tidy.of_served (h : c.Tidy) (hs : Served Ages c c') : c'.Tidy :=
  h.of_rewired hs.toRewired hs.loopOptions fun _ => by rw [hs.recentlyRejected]; exact id

/-- **Every action leaves the connections tidy.** -/
theorem Tidy.act (h : c.Tidy) {a : Action} (ha : Allowed T plain c a) : (c.act sha1 a).Tidy := by
  have hasks := asks_true c.downloader
  cases a with
  | sort links => exact h.of_rewired (rewired_sort follows_ages h.placed ha.enabled) rfl fun _ => id
  | connect ptr a => exact h.connectRound ha.enabled.1 ha.enabled.2
  | receive ptr r msg => exact h.of_served (served_receive follows_ages hasks r msg)
  | takePeers ptr => exact h.of_served (served_takePeers follows_ages)
  | addPeer now peer => exact h.addPeer now peer
  | request ptr sends now =>
    exact h.of_served (served_requestBlocksFromPeer follows_ages hasks sends now)
  | timeouts now =>
    exact h.of_served (served_eraseRequests follows_ages fun req _ _ c₁ =>
      served_own follows_ages _ _ c₁)
  | endgame => exact h.of_rewired (.of_links follows_ages rfl) rfl fun _ => id
  | prune ptr now evicted => exact h.prunePeer now evicted ptr
  | addTracker tracker =>
    show (c.addTracker tracker).Tidy
    rw [addTracker]
    split_ifs
    · exact h
    · exact h.of_rewired (.of_links follows_ages rfl) rfl fun _ => id
  | contact S trackers => exact h.of_rewired (.of_links follows_ages rfl) rfl fun _ => id

/-! ### Executions -/

theorem loopOptions_act (c : Client) (a : Action) :
    (c.act sha1 a).loopOptions = c.loopOptions := by
  have hother : ¬ a.Tracks → (c.act sha1 a).loopOptions = c.loopOptions := fun h =>
    (sameTrackers_act follows_ages (asks_true c.downloader) h).loopOptions
  cases a with
  | addTracker tracker =>
    show (c.addTracker tracker).loopOptions = _
    rw [addTracker]
    split_ifs <;> rfl
  | contact S trackers => rfl
  | _ => exact hother not_false

variable {torrent : TorrentInfo} {savePath : Bytes} {options : DownloadOptions}
  {loopOptions : LoopOptions} {world : World} {known : List ((ℕ → ℤ) × List Peer)}
  {faults : List Fault} {stopAfter : Option ℕ}

/-- The connections before the loop. -/
theorem tidy_start (hstart : ((init torrent savePath options loopOptions world).addKnown known).start
    sha1 faults stopAfter = (true, c)) : c.Tidy ∧ c.loopOptions = loopOptions := by
  have hinit : (init torrent savePath options loopOptions world).Tidy :=
    ⟨placed_init torrent savePath options loopOptions world, fun _ _ _ _ => nofun, le_max_left _ _,
      fun _ _ => nofun⟩
  have hknown : ((init torrent savePath options loopOptions world).addKnown known).Tidy ∧
      ((init torrent savePath options loopOptions world).addKnown known).loopOptions = loopOptions := by
    refine Run.invariant (P := fun c : Client => c.Tidy ∧ c.loopOptions = loopOptions) ?_ known
      ⟨hinit, rfl⟩
    intro c call hc
    exact Run.invariant (P := fun c : Client => c.Tidy ∧ c.loopOptions = loopOptions)
      (fun c' entry hc' => ⟨hc'.1.addPeer _ _, (sameTrackers_addPeer _ _).loopOptions.trans hc'.2⟩) call.2.zipIdx hc
  obtain ⟨-, rfl⟩ := Prod.mk.inj hstart
  exact ⟨hknown.1.of_rewired (.of_links follows_ages rfl) rfl fun _ => id, hknown.2⟩

/-- Wherever the loop gets, the connections are tidy. -/
theorem Leads.tidy (h : Leads sha1 T plain c c') (hc : c.Tidy) :
    c'.Tidy ∧ c'.loopOptions = c.loopOptions :=
  Run.Reaches.invariant (P := fun c' : Client => c'.Tidy ∧ c'.loopOptions = c.loopOptions)
    (fun s a hs ha => ⟨hs.1.act ha, (loopOptions_act s a).trans hs.2⟩) h ⟨hc, rfl⟩

/-- **Limits.** Whenever the loop returns, no more peers are connected than the options allow, no two
connections have one address, and no connected peer counts as rejected. -/
theorem connections_limited (hstart : ((init torrent savePath options loopOptions world).addKnown
      known).start sha1 faults stopAfter = (true, c))
    {S : (α : Type) → Sorting.Sorter α} {o : Opening} {msg : Wire.PeerMessage} {rs : List Round}
    {complete : Bool} (hloop : c.downloadLoop S o sha1 msg rs = some (complete, c')) :
    (c'.connectedCount : ℤ) ≤ max 0 loopOptions.maxPeers ∧
      (c'.links.map fun l => (l.connection.ip, l.connection.port)).Nodup ∧
      ∀ l ∈ c'.links, l.connection.isConnected = true →
        c'.recentlyRejected (rejectKey l.connection.ip l.connection.port) = none := by
  obtain ⟨hc, rfl⟩ := tidy_start hstart
  obtain ⟨hc', hoptions⟩ := Leads.tidy (downloadLoop_leads (clocked_true o rs) hloop) hc
  refine ⟨hoptions ▸ hc'.limited, ?_, fun l hl hopen => hc'.out l.ptr l.connection ?_ hopen⟩
  · refine List.Nodup.map_on (fun l hl l' hl' haddress => ?_) (List.Nodup.of_map _ hc'.placed.nodup)
    obtain ⟨hip, hport⟩ := Prod.mk.inj haddress
    have hl := hc'.placed.mem_iff.1 hl
    have hl' := hc'.placed.mem_iff.1 hl'
    have hptr := hc'.apart l.ptr l'.ptr _ _ hl hl' hip hport
    obtain ⟨ptr, peer⟩ := l
    obtain ⟨ptr', peer'⟩ := l'
    obtain rfl : ptr = ptr' := hptr
    obtain rfl : peer = peer' := Option.some.inj (hl.symm.trans hl')
    rfl
  · exact hc'.placed.mem_iff.1 hl

/-- One connection is open at the end of the session. -/
theorem connections_limited_oneBlock : ∃ c', oneEnd oneSession = some (true, c') ∧
    (c'.connectedCount : ℤ) ≤ max 0 30 ∧
      (c'.links.map fun l => (l.connection.ip, l.connection.port)).Nodup ∧
      ∀ l ∈ c'.links, l.connection.isConnected = true →
        c'.recentlyRejected (rejectKey l.connection.ip l.connection.port) = none := by
  obtain ⟨⟨complete, c'⟩, hloop, rfl⟩ := Option.map_eq_some_iff.1 oneEnd_oneSession
  exact ⟨c', hloop, connections_limited (Prod.ext oneKnown_start rfl) hloop⟩

/-! ### The time of a rejection -/

/-- The readings within five minutes after a rejection. -/
def Within (time now : ℤ) : Prop := time ≤ now ∧ now < time + 301 * 10 ^ 9

theorem elapsed_of_within {time now t : ℤ} (h : Within time now) (ht : Within time t) :
    (now - t).tdiv (10 ^ 9) ≤ Swarm.rejectCooldownSeconds := by
  have hle : now - t ≤ 301 * 10 ^ 9 - 1 := by
    obtain ⟨-, hnow⟩ := h
    obtain ⟨htime, -⟩ := ht
    omega
  exact Int.tdiv_le_tdiv (by decide) hle

/-- An address is rejected, since a time within the five minutes. -/
def Held (ip : Bytes) (port : UInt16) (time : ℤ) (c : Client) : Prop :=
  ∃ t, Within time t ∧ c.recentlyRejected (rejectKey ip port) = some t

variable {time : ℤ}

theorem Held.isPeerRejected (h : c.Held ip port time) (ip' : Bytes) (port' : UInt16)
    (hnow : Within time now) : (c.isPeerRejected ip' port' now).2.Held ip port time := by
  obtain ⟨t, ht, hkey⟩ := h
  cases hanswer : (c.isPeerRejected ip' port' now).1 with
  | true =>
    rw [isPeerRejected_of_true hanswer]
    exact ⟨t, ht, hkey⟩
  | false =>
    have hother : rejectKey ip port ≠ rejectKey ip' port' := fun heq => by
      rw [isPeerRejected_of_some (heq ▸ hkey) (elapsed_of_within hnow ht)] at hanswer
      cases hanswer
    refine ⟨t, ht, ?_⟩
    rw [recentlyRejected_of_false hanswer, Function.update_of_ne hother]
    exact hkey

theorem Held.rejectPeer (h : c.Held ip port time) {ip' : Bytes} {port' : UInt16}
    (hnow : Within time now) : (c.rejectPeer ip' port' now).Held ip port time := by
  obtain ⟨t, ht, hkey⟩ := h
  by_cases hself : rejectKey ip port = rejectKey ip' port'
  · refine ⟨now, hnow, ?_⟩
    show Function.update c.recentlyRejected (rejectKey ip' port') (some now) _ = some now
    rw [hself, Function.update_self]
  · refine ⟨t, ht, ?_⟩
    show Function.update c.recentlyRejected (rejectKey ip' port') (some now) _ = some t
    rw [Function.update_of_ne hself]
    exact hkey

/-- Within the five minutes no action forgets the address. -/
theorem Held.act (h : c.Held ip port time) {a : Action} (ha : Allowed (Within time) plain c a) :
    (c.act sha1 a).Held ip port time := by
  have hasks := asks_true c.downloader
  have hserved : ∀ {c'}, Served Ages c c' → c'.Held ip port time := fun hs => by
    rw [Held, hs.recentlyRejected]
    exact h
  cases a with
  | sort links => exact h
  | connect ptr a =>
    show (c.connectRound ptr a).2.Held ip port time
    cases hpeer : c.connection ptr with
    | none =>
      rw [Client.connectRound, hpeer]
      exact h
    | some peer =>
      have hasked := h.isPeerRejected peer.ip peer.port ha.clocked.1
      rcases connectRound_cases hpeer a with ⟨-, heq⟩ | ⟨-, -, heq⟩ | ⟨-, -, heq⟩ <;> rw [heq]
      · exact hasked
      · exact hasked
      · exact Held.rejectPeer hasked ha.clocked.2
  | receive ptr r msg => exact hserved (served_receive follows_ages hasks r msg)
  | takePeers ptr => exact hserved (served_takePeers follows_ages)
  | addPeer now peer =>
    have hasked := h.isPeerRejected peer.ip peer.port ha.clocked
    show (c.addPeer now peer).Held ip port time
    rcases c.addPeer_cases now peer with heq | ⟨-, -, heq⟩ <;> rw [heq]
    · exact hasked
    · exact hasked
  | request ptr sends now =>
    exact hserved (served_requestBlocksFromPeer follows_ages hasks sends now)
  | timeouts now =>
    exact hserved (served_eraseRequests follows_ages fun req _ _ c₁ =>
      served_own follows_ages _ _ c₁)
  | endgame => exact h
  | prune ptr now evicted =>
    show (c.prunePeer now evicted ptr).Held ip port time
    rw [Client.prunePeer]
    split
    · exact h
    · split_ifs
      · exact Held.rejectPeer (c := c.setConnection ptr _) h ha.clocked.2
      · exact h
  | addTracker tracker =>
    show (c.addTracker tracker).Held ip port time
    rw [addTracker]
    split_ifs
    · exact h
    · exact h
  | contact S trackers => exact h

end Client

namespace Loop

variable {sha1 : Bytes → Bytes} {S : (α : Type) → Sorting.Sorter α} {msg : Wire.PeerMessage}

end Loop

namespace Client

open Cxx Posix

variable {sha1 : Bytes → Bytes} {c c₁ c' : Client} {torrent : TorrentInfo} {savePath : Bytes}
  {options : DownloadOptions} {loopOptions : LoopOptions} {world : World}
  {known : List ((ℕ → ℤ) × List Peer)} {faults : List Fault} {stopAfter : Option ℕ}

end Client

end Gush
