import Gush.Dht.Discover
import Gush.Lib.Sorting
import Gush.Tracker.Http
import Gush.Wire.Pex

/-!
# Discovering peers

The part of the downloader that knows its peers: `peers_` and `recentlyRejected_`. Peers come from
trackers, from the DHT and from the peers themselves, and all of them pass through `addPeers`; between
the discoveries the connections are sorted, opened, used and evicted, in any order.

`addPeers` leaves duplicates out, but not the port zero. `sound_iff` says that the only way for such a
peer into the list is a compact answer of an HTTP tracker.
-/

namespace Gush

open Cxx Sorting

/-- The peers of a downloader, and the torrent and the identifier that their connections get. -/
structure Swarm where
  torrent : TorrentInfo
  peerId : Bytes
  peers : List Wire.PeerConnection := []
  recentlyRejected : Bytes → Option ℤ := fun _ => none

namespace Swarm

/-- `REJECT_COOLDOWN_SECONDS`. -/
def rejectCooldownSeconds : ℤ := 300

/-- The key of a peer in `recentlyRejected_`. -/
def rejectKey (ip : Bytes) (port : UInt16) : Bytes :=
  ip ++ ':'.toUInt8 :: Decimal.numeral port.toNat

/-- `isPeerRejected`, which forgets a peer whose time is over. Times are in nanoseconds. -/
def isPeerRejected (s : Swarm) (ip : Bytes) (port : UInt16) (now : ℤ) : Bool × Swarm :=
  match s.recentlyRejected (rejectKey ip port) with
  | none => (false, s)
  | some time =>
    if (now - time).tdiv (10 ^ 9) > rejectCooldownSeconds then
      (false, { s with
        recentlyRejected := Function.update s.recentlyRejected (rejectKey ip port) none })
    else (true, s)

def rejectPeer (s : Swarm) (ip : Bytes) (port : UInt16) (now : ℤ) : Swarm :=
  { s with recentlyRejected := Function.update s.recentlyRejected (rejectKey ip port) (some now) }

/-- The body of the loop in `addPeers`. -/
def addPeer (s : Swarm) (now : ℤ) (peer : Peer) : Swarm :=
  match s.isPeerRejected peer.ip peer.port now with
  | (true, s) => s
  | (false, s) =>
    if s.peers.any fun existing => existing.ip = peer.ip ∧ existing.port = peer.port then s
    else
      { s with peers := s.peers ++
          [{ ip := peer.ip, port := peer.port, torrent := s.torrent, peerId := s.peerId }] }

/-- `addPeers`; the clock is read for each peer. -/
def addPeers (s : Swarm) (now : ℕ → ℤ) (peers : List Peer) : Swarm :=
  peers.zipIdx.foldl (fun s entry => s.addPeer (now entry.2) entry.1) s

/-! ### Events -/

/-- What happens to the peers of a download, with what the environment does. A number `i` stands for
the `i`-th connection. -/
inductive Event
  /-- A tracker answers. -/
  | tracker (fuel : ℕ) (env : Tracker.Environment) (announce : Tracker.Announce) (now : ℕ → ℤ)
  /-- `discoverDhtPeers` returns. -/
  | dht (fuel : ℕ) (network : Dht.Network) (options : Dht.DhtOptions) (now : ℕ → ℤ)
  /-- The end of `processPeerMessages`. -/
  | pex (visited : Wire.PeerConnection → Bool) (now : ℕ → ℤ)
  /-- Bytes arrive at a connection. -/
  | arrive (i : ℕ) (bytes : Bytes)
  /-- A round of the loop of `processPeerMessages`. -/
  | receive (i : ℕ) (fuel : ℕ) (msg : Wire.PeerMessage)
  /-- A message is sent. -/
  | send (i : ℕ) (msg : Wire.PeerMessage) (sent : Bool)
  /-- The sorting in `connectToPeers`. -/
  | sort (S : Sorter Wire.PeerConnection) (faster : Wire.PeerConnection → Wire.PeerConnection → Bool)
  /-- A round of the loop of `connectToPeers`. -/
  | connect (i : ℕ) (net : Wire.PeerConnection.Network) (sent : Bool) (now rejected : ℤ)
  /-- `pruneBadPeers` evicts a peer. -/
  | evict (i : ℕ) (now : ℤ)
  /-- `stop`. -/
  | stop

/-- Changes a connection. -/
def modifyPeer (s : Swarm) (i : ℕ) (f : Wire.PeerConnection → Wire.PeerConnection) : Swarm :=
  { s with peers := s.peers.modify i f }

/-- The end of `processPeerMessages`: the connections that the loop has visited, those that were
connected when their turn came, hand over what they have discovered. -/
def collectPex (s : Swarm) (visited : Wire.PeerConnection → Bool) (now : ℕ → ℤ) : Swarm :=
  let pexPeers := (s.peers.filter visited).flatMap fun c => c.takeDiscoveredPeers.1
  { s with peers := s.peers.map fun c => if visited c then c.takeDiscoveredPeers.2 else c :
      Swarm }.addPeers now pexPeers

/-- A round of the loop of `connectToPeers`. -/
def connectPeer (s : Swarm) (i : ℕ) (net : Wire.PeerConnection.Network) (sent : Bool)
    (now rejected : ℤ) : Swarm :=
  match s.peers[i]? with
  | none => s
  | some c =>
    if c.isConnected then s
    else
      match s.isPeerRejected c.ip c.port now with
      | (true, s) => s
      | (false, s) =>
        match c.connect net with
        | (true, c) => s.modifyPeer i fun _ => (c.sendUnchoke sent).2
        | (false, c) => (s.modifyPeer i fun _ => c).rejectPeer c.ip c.port rejected

/-- An event; `none` if a parse does not come to its end. -/
def event (s : Swarm) : Event → Option Swarm
  | .tracker fuel env announce now =>
    (Tracker.contactTracker fuel env announce).map fun response =>
      if response.ok then s.addPeers now response.peers else s
  | .dht fuel network options now =>
    (Dht.discoverDhtPeers fuel network s.torrent.infoHash [] options).map fun found =>
      s.addPeers now found.1
  | .pex visited now => some (s.collectPex visited now)
  | .arrive i bytes => some (s.modifyPeer i fun c => c.arrive bytes)
  | .receive i fuel msg =>
    match s.peers[i]? with
    | none => some s
    | some c =>
      (c.receiveMessageNonBlocking fuel msg).map fun out => s.modifyPeer i fun _ => out.2.1
  | .send i msg sent => some (s.modifyPeer i fun c => (c.sendMessage msg sent).2)
  | .sort S faster => some { s with peers := S.sort faster s.peers }
  | .connect i net sent now rejected => some (s.connectPeer i net sent now rejected)
  | .evict i now =>
    match s.peers[i]? with
    | none => some s
    | some c => some ((s.modifyPeer i fun c => c.disconnect).rejectPeer c.ip c.port now)
  | .stop => some { s with peers := [] }

def step (s : Option Swarm) (e : Event) : Option Swarm := s.bind fun s => s.event e

/-- The peers of a new downloader after a sequence of events. -/
def run (torrent : TorrentInfo) (peerId : Bytes) (events : List Event) : Option Swarm :=
  events.foldl step (some { torrent, peerId })

/-! ### What is promised -/

/-- The address of a connection. -/
def address (c : Wire.PeerConnection) : Bytes × UInt16 := (c.ip, c.port)

/-- No connection has the port zero, and no two have one address. -/
structure Sound (s : Swarm) : Prop where
  port_ne : ∀ c ∈ s.peers, c.port ≠ 0
  nodup : (s.peers.map address).Nodup

/-- A tracker answers over HTTP with a compact string in which a port is zero. -/
def Event.ZeroPort : Event → Prop
  | .tracker fuel env announce _ =>
    ∃ compact, Tracker.AnswersCompact fuel env announce compact ∧ Tracker.HasZeroPort compact
  | _ => False

/-- The invariant. The addresses are distinct, and the discovered peers are kept within their bounds;
and as long as no answer has had the port zero, no connection has it, and no rejected peer. -/
structure Inv (clean : Prop) (s : Swarm) : Prop where
  nodup : (s.peers.map address).Nodup
  kept : ∀ c ∈ s.peers, Wire.Kept c.toPeerState c.discoveredPeers
  port_ne : clean → ∀ c ∈ s.peers, c.port ≠ 0
  rejected : clean → ∀ ip, s.recentlyRejected (rejectKey ip 0) = none

/-! ### Rejected peers -/

variable {clean : Prop} {s s' : Swarm} {ip : Bytes} {port : UInt16} {now : ℤ} {peer : Peer} {i : ℕ}

/-- The key of a peer tells its port. -/
theorem rejectKey_port {ip' : Bytes} {port' : UInt16} (h : rejectKey ip port = rejectKey ip' port') :
    port = port' := by
  have hcolon : ∀ n : ℕ, ∀ b ∈ (Decimal.numeral n).reverse, (b != ':'.toUInt8) = true := by
    intro n b hb
    have hdigit := Decimal.isDigit_of_mem_numeral (List.mem_reverse.1 hb)
    simpa using ne_of_isdigit hdigit (by decide)
  have hnumeral : ∀ ip port, (rejectKey ip port).reverse.takeWhile (· != ':'.toUInt8) =
      (Decimal.numeral port.toNat).reverse := by
    intro ip port
    rw [rejectKey, List.reverse_append, List.reverse_cons, List.append_assoc, List.singleton_append,
      List.takeWhile_append_of_pos (hcolon _)]
    simp
  have heq := congrArg (fun key => key.reverse.takeWhile (· != ':'.toUInt8)) h
  simp only [hnumeral, List.reverse_inj] at heq
  exact UInt16.toNat_inj.1 (Decimal.numeral_injective heq)

/-- Asking for a peer only forgets: the answer is no if the peer is not known. -/
theorem isPeerRejected_cases (s : Swarm) (ip : Bytes) (port : UInt16) (now : ℤ) :
    (s.isPeerRejected ip port now = (true, s) ∧ s.recentlyRejected (rejectKey ip port) ≠ none) ∨
      ∃ rejected, s.isPeerRejected ip port now = (false, { s with recentlyRejected := rejected }) ∧
        ∀ key, s.recentlyRejected key = none → rejected key = none := by
  rw [isPeerRejected]
  cases hkey : s.recentlyRejected (rejectKey ip port) with
  | none => exact .inr ⟨s.recentlyRejected, rfl, fun _ h => h⟩
  | some time =>
    dsimp only
    split_ifs
    · refine .inr ⟨_, rfl, fun key hnone => ?_⟩
      by_cases h : key = rejectKey ip port
      · rw [h, Function.update_self]
      · rwa [Function.update_of_ne h]
    · exact .inl ⟨rfl, Option.some_ne_none time⟩

theorem Inv.forget (h : Inv clean s) {rejected : Bytes → Option ℤ}
    (hrejected : ∀ key, s.recentlyRejected key = none → rejected key = none) :
    Inv clean { s with recentlyRejected := rejected } where
  nodup := h.nodup
  kept := h.kept
  port_ne := h.port_ne
  rejected hclean ip := hrejected _ (h.rejected hclean ip)

theorem Inv.rejectPeer (h : Inv clean s) (hport : clean → port ≠ 0) :
    Inv clean (s.rejectPeer ip port now) where
  nodup := h.nodup
  kept := h.kept
  port_ne := h.port_ne
  rejected hclean ip' := by
    have hne : rejectKey ip' 0 ≠ rejectKey ip port := fun heq =>
      hport hclean (rejectKey_port heq).symm
    exact (Function.update_of_ne hne _ _).trans (h.rejected hclean ip')

/-! ### Adding peers -/

/-- The connection that is made for a peer. -/
def connectionTo (s : Swarm) (peer : Peer) : Wire.PeerConnection where
  ip := peer.ip
  port := peer.port
  torrent := s.torrent
  peerId := s.peerId

/-- What adding a peer does: a rejected peer is left out, and so is one that is there already. -/
theorem addPeer_cases (s : Swarm) (now : ℤ) (peer : Peer) :
    (s.addPeer now peer = s ∧ s.recentlyRejected (rejectKey peer.ip peer.port) ≠ none) ∨
      ∃ rejected, (∀ key, s.recentlyRejected key = none → rejected key = none) ∧
        ((peer.ip, peer.port) ∈ s.peers.map address ∧
            s.addPeer now peer = { s with recentlyRejected := rejected } ∨
          (peer.ip, peer.port) ∉ s.peers.map address ∧
            s.addPeer now peer = { s with
              recentlyRejected := rejected, peers := s.peers ++ [s.connectionTo peer] }) := by
  rw [addPeer]
  rcases s.isPeerRejected_cases peer.ip peer.port now with ⟨heq, hkey⟩ | ⟨rejected, heq, hforget⟩
  · rw [heq]
    exact .inl ⟨rfl, hkey⟩
  · rw [heq]
    refine .inr ⟨rejected, hforget, ?_⟩
    dsimp only
    have hmem : (s.peers.any fun existing => existing.ip = peer.ip ∧ existing.port = peer.port) =
        true ↔ (peer.ip, peer.port) ∈ s.peers.map address := by
      simp [address]
    split_ifs with hany
    · exact .inl ⟨hmem.1 hany, rfl⟩
    · exact .inr ⟨fun h => hany (hmem.2 h), rfl⟩

theorem Inv.addPeer (h : Inv clean s) (hport : clean → peer.port ≠ 0) :
    Inv clean (s.addPeer now peer) := by
  rcases s.addPeer_cases now peer with ⟨heq, -⟩ | ⟨rejected, hforget, ⟨-, heq⟩ | ⟨hnew, heq⟩⟩
  · rw [heq]
    exact h
  · rw [heq]
    exact h.forget hforget
  · rw [heq]
    refine ⟨?_, ?_, ?_, (h.forget hforget).rejected⟩
    · rw [List.map_append]
      refine h.nodup.append (List.nodup_singleton _) ?_
      simpa [address, connectionTo] using hnew
    · intro c hc
      rcases List.mem_append.1 hc with hc | hc
      · exact h.kept c hc
      · rw [List.mem_singleton.1 hc]
        exact Wire.PeerState.kept_nil _
    · intro hclean c hc
      rcases List.mem_append.1 hc with hc | hc
      · exact h.port_ne hclean c hc
      · rw [List.mem_singleton.1 hc]
        exact hport hclean

theorem Inv.foldl_addPeer (h : Inv clean s) {now : ℕ → ℤ} {entries : List (Peer × ℕ)}
    (hports : clean → ∀ entry ∈ entries, entry.1.port ≠ 0) :
    Inv clean (entries.foldl (fun s entry => s.addPeer (now entry.2) entry.1) s) := by
  induction entries generalizing s with
  | nil => exact h
  | cons entry entries ih =>
    exact ih (h.addPeer fun hclean => hports hclean entry List.mem_cons_self)
      fun hclean entry' hmem => hports hclean entry' (List.mem_cons_of_mem entry hmem)

theorem Inv.addPeers (h : Inv clean s) {now : ℕ → ℤ} {peers : List Peer}
    (hports : clean → ∀ peer ∈ peers, peer.port ≠ 0) : Inv clean (s.addPeers now peers) :=
  h.foldl_addPeer fun hclean entry hentry =>
    hports hclean entry.1 (List.fst_mem_of_mem_zipIdx hentry)

/-- A connection that is there stays there. -/
theorem mem_addPeer {a : Bytes × UInt16} (h : a ∈ s.peers.map address) :
    a ∈ (s.addPeer now peer).peers.map address := by
  rcases s.addPeer_cases now peer with ⟨heq, -⟩ | ⟨rejected, -, ⟨-, heq⟩ | ⟨-, heq⟩⟩ <;> rw [heq]
  · exact h
  · exact h
  · rw [List.map_append]
    exact List.mem_append_left _ h

/-- A peer that is not rejected gets a connection. -/
theorem mem_addPeer_self (h : s.recentlyRejected (rejectKey peer.ip peer.port) = none) :
    (peer.ip, peer.port) ∈ (s.addPeer now peer).peers.map address := by
  rcases s.addPeer_cases now peer with ⟨-, hkey⟩ | ⟨rejected, -, ⟨hmem, heq⟩ | ⟨-, heq⟩⟩
  · exact absurd h hkey
  · rw [heq]
    exact hmem
  · rw [heq]
    simp [address, connectionTo]

theorem recentlyRejected_addPeer {key : Bytes} (h : s.recentlyRejected key = none) :
    (s.addPeer now peer).recentlyRejected key = none := by
  rcases s.addPeer_cases now peer with ⟨heq, -⟩ | ⟨rejected, hforget, ⟨-, heq⟩ | ⟨-, heq⟩⟩ <;> rw [heq]
  · exact h
  · exact hforget key h
  · exact hforget key h

/-- Every listed peer that is not rejected gets a connection. -/
theorem mem_addPeers (now : ℕ → ℤ) {peers : List Peer} (hpeer : peer ∈ peers)
    (h : s.recentlyRejected (rejectKey peer.ip peer.port) = none) :
    (peer.ip, peer.port) ∈ (s.addPeers now peers).peers.map address := by
  have hentries : ∀ entries : List (Peer × ℕ), ∀ s : Swarm,
      s.recentlyRejected (rejectKey peer.ip peer.port) = none →
      peer ∈ entries.map Prod.fst ∨ (peer.ip, peer.port) ∈ s.peers.map address →
      (peer.ip, peer.port) ∈
        (entries.foldl (fun s entry => s.addPeer (now entry.2) entry.1) s).peers.map address := by
    intro entries
    induction entries with
    | nil => exact fun s _ h => h.resolve_left List.not_mem_nil
    | cons entry entries ih =>
      intro s hkey hor
      refine ih _ (recentlyRejected_addPeer hkey) ?_
      rcases hor with hmem | hmem
      · rcases List.mem_cons.1 hmem with rfl | hmem
        · exact .inr (mem_addPeer_self hkey)
        · exact .inl hmem
      · exact .inr (mem_addPeer hmem)
  refine hentries _ s h (.inl ?_)
  rwa [List.zipIdx_map_fst]

/-! ### Events on connections -/

theorem mem_modify {α : Type*} {l : List α} {i : ℕ} {f : α → α} {b : α} (h : b ∈ l.modify i f) :
    b ∈ l ∨ ∃ a, l[i]? = some a ∧ b = f a := by
  obtain ⟨j, hj⟩ := List.mem_iff_getElem?.1 h
  rw [List.getElem?_modify] at hj
  by_cases hij : i = j
  · subst hij
    simp only [if_true, Option.map_eq_map] at hj
    obtain ⟨a, ha, rfl⟩ := Option.map_eq_some_iff.1 hj
    exact .inr ⟨a, ha, rfl⟩
  · simp only [hij, if_false, Option.map_eq_map, id_eq, Option.map_id_fun'] at hj
    exact .inl (List.mem_of_getElem? hj)

theorem map_modify_of_eq {α β : Type*} {l : List α} {i : ℕ} {f : α → α} {g : α → β}
    (h : ∀ a, l[i]? = some a → g (f a) = g a) : (l.modify i f).map g = l.map g := by
  apply List.ext_getElem?
  intro j
  rw [List.getElem?_map, List.getElem?_modify, List.getElem?_map]
  by_cases hij : i = j
  · subst hij
    cases ha : l[i]? with
    | none => simp
    | some a => simp [h a ha]
  · simp [hij]

/-- A call on a connection keeps the invariant. -/
theorem Inv.modifyPeer (h : Inv clean s) {f : Wire.PeerConnection → Wire.PeerConnection}
    (hf : ∀ c, s.peers[i]? = some c → c.toPeerState.Keeps (f c).toPeerState) :
    Inv clean (s.modifyPeer i f) where
  nodup := by
    have haddress : (s.modifyPeer i f).peers.map address = s.peers.map address :=
      map_modify_of_eq fun c hc => Prod.ext (hf c hc).ip (hf c hc).port
    rw [haddress]
    exact h.nodup
  kept c hc := by
    rcases mem_modify hc with hc | ⟨c', hc', rfl⟩
    · exact h.kept c hc
    · exact (hf c' hc').kept (h.kept c' (List.mem_of_getElem? hc'))
  port_ne hclean c hc := by
    rcases mem_modify hc with hc | ⟨c', hc', rfl⟩
    · exact h.port_ne hclean c hc
    · rw [(hf c' hc').port]
      exact h.port_ne hclean c' (List.mem_of_getElem? hc')
  rejected := h.rejected

theorem Inv.connectPeer (h : Inv clean s) {net : Wire.PeerConnection.Network} {sent : Bool}
    {rejected : ℤ} : Inv clean (s.connectPeer i net sent now rejected) := by
  rw [Swarm.connectPeer]
  cases hc : s.peers[i]? with
  | none => exact h
  | some c =>
    dsimp only
    split_ifs
    · exact h
    · rcases s.isPeerRejected_cases c.ip c.port now with ⟨heq, -⟩ | ⟨forgotten, heq, hforget⟩
      · rw [heq]
        exact h
      · rw [heq]
        have hkeeps := c.keeps_connect net
        have hpeer : ∀ c', s.peers[i]? = some c' → c' = c := fun c' hc' =>
          Option.some.inj (hc'.symm.trans hc)
        rcases hout : c.connect net with ⟨ok, c'⟩
        rw [hout] at hkeeps
        cases ok with
        | true =>
          refine (h.forget hforget).modifyPeer fun c'' hc'' => ?_
          rw [hpeer c'' hc'']
          exact hkeeps.trans (c'.keeps_sendUnchoke sent)
        | false =>
          refine Inv.rejectPeer ((h.forget hforget).modifyPeer fun c'' hc'' => ?_) fun hclean => ?_
          · rw [hpeer c'' hc'']
            exact hkeeps
          · rw [hkeeps.port]
            exact h.port_ne hclean c (List.mem_of_getElem? hc)

/-- The peers that are discovered by PEX have a port. -/
theorem Inv.collectPex (h : Inv clean s) {visited : Wire.PeerConnection → Bool} {now : ℕ → ℤ} :
    Inv clean (s.collectPex visited now) := by
  have htaken : ∀ c : Wire.PeerConnection, c.toPeerState.Keeps
      (if visited c then c.takeDiscoveredPeers.2 else c).toPeerState := by
    intro c
    split_ifs
    · exact c.keeps_takeDiscoveredPeers
    · exact .of_eq rfl rfl rfl
  refine Inv.addPeers ?_ fun _ peer hpeer => ?_
  · refine ⟨?_, fun c hc => ?_, fun hclean c hc => ?_, h.rejected⟩
    · have haddress : (s.peers.map fun c => if visited c then c.takeDiscoveredPeers.2 else c).map
          address = s.peers.map address := by
        rw [List.map_map]
        exact List.map_congr_left fun c _ => Prod.ext (htaken c).ip (htaken c).port
      rw [haddress]
      exact h.nodup
    · obtain ⟨c', hc', rfl⟩ := List.mem_map.1 hc
      exact (htaken c').kept (h.kept c' hc')
    · obtain ⟨c', hc', rfl⟩ := List.mem_map.1 hc
      rw [(htaken c').port]
      exact h.port_ne hclean c' hc'
  · obtain ⟨c, hc, hmem⟩ := List.mem_flatMap.1 hpeer
    exact (h.kept c (List.mem_filter.1 hc).1).port_ne peer hmem

/-- Every event keeps the invariant, unless it is the one that lets a port zero in. -/
theorem Inv.event (h : Inv clean s) {e : Event} (hzero : clean → ¬ e.ZeroPort)
    (he : s.event e = some s') : Inv clean s' := by
  cases e with
  | tracker fuel env announce now =>
    obtain ⟨response, hresponse, rfl⟩ := Option.map_eq_some_iff.1 he
    split_ifs
    · refine h.addPeers fun hclean peer hpeer hport => ?_
      rcases Tracker.peers_of_contactTracker hresponse hpeer with hne | ⟨compact, hcompact, hmem⟩
      · exact hne hport
      · exact hzero hclean ⟨compact, hcompact,
          (Tracker.exists_port_zero_iff compact).1 ⟨peer, hmem, hport⟩⟩
    · exact h
  | dht fuel network options now =>
    obtain ⟨⟨peers, log⟩, hfound, rfl⟩ := Option.map_eq_some_iff.1 he
    exact h.addPeers fun _ => (Dht.discovered_of_eq_some hfound).port
  | pex visited now =>
    obtain rfl := Option.some.inj he
    exact h.collectPex
  | arrive i bytes =>
    obtain rfl := Option.some.inj he
    exact h.modifyPeer fun c _ => .of_eq rfl rfl rfl
  | receive i fuel msg =>
    rw [Swarm.event] at he
    cases hc : s.peers[i]? with
    | none =>
      rw [hc] at he
      obtain rfl := Option.some.inj he
      exact h
    | some c =>
      rw [hc] at he
      obtain ⟨out, hout, rfl⟩ := Option.map_eq_some_iff.1 he
      refine h.modifyPeer fun c' hc' => ?_
      obtain rfl := Option.some.inj (hc'.symm.trans hc)
      exact Wire.PeerConnection.keeps_receiveMessageNonBlocking hout
  | send i msg sent =>
    obtain rfl := Option.some.inj he
    exact h.modifyPeer fun c _ => c.keeps_sendMessage msg sent
  | sort S faster =>
    obtain rfl := Option.some.inj he
    have hperm := S.perm faster s.peers
    exact ⟨(hperm.map address).nodup_iff.2 h.nodup, fun c hc => h.kept c (hperm.mem_iff.1 hc),
      fun hclean c hc => h.port_ne hclean c (hperm.mem_iff.1 hc), h.rejected⟩
  | connect i net sent now rejected =>
    obtain rfl := Option.some.inj he
    exact h.connectPeer
  | evict i now =>
    rw [Swarm.event] at he
    cases hc : s.peers[i]? with
    | none =>
      rw [hc] at he
      obtain rfl := Option.some.inj he
      exact h
    | some c =>
      rw [hc] at he
      obtain rfl := Option.some.inj he
      exact Inv.rejectPeer (h.modifyPeer fun c _ => .of_eq rfl rfl rfl) fun hclean =>
        h.port_ne hclean c (List.mem_of_getElem? hc)
  | stop =>
    obtain rfl := Option.some.inj he
    exact ⟨by simp, by simp, by simp, h.rejected⟩

/-- An answer with a port zero lets it into the list. -/
theorem exists_port_zero (h : Inv True s) {e : Event} (hzero : e.ZeroPort) :
    ∃ s', s.event e = some s' ∧ ∃ c ∈ s'.peers, c.port = 0 := by
  cases e with
  | tracker fuel env announce now =>
    obtain ⟨compact, hcompact, hport⟩ := hzero
    obtain ⟨response, hresponse, hok, hpeers⟩ :=
      Tracker.contactTracker_of_answersCompact hcompact
    obtain ⟨peer, hpeer, hport⟩ := (Tracker.exists_port_zero_iff compact).2 hport
    have hmem := mem_addPeers now hpeer (hport ▸ h.rejected trivial peer.ip)
    obtain ⟨c, hc, haddress⟩ := List.mem_map.1 hmem
    refine ⟨s.addPeers now (Tracker.parseCompactPeers compact), ?_, c, hc, ?_⟩
    · rw [Swarm.event, hresponse, Option.map_some, if_pos hok, hpeers]
    · rw [← hport]
      exact congrArg Prod.snd haddress
  | _ => exact hzero.elim

/-! ### Runs -/

theorem inv_init (torrent : TorrentInfo) (peerId : Bytes) : Inv clean { torrent, peerId } :=
  ⟨by simp, by simp, by simp, fun _ _ => rfl⟩

/-- An event that a run gets to does not let a port zero in. -/
def Clean (s : Option Swarm) (e : Event) : Prop := s ≠ none → ¬ e.ZeroPort

theorem clean_of_none (events : List Event) : Run.Along step Clean none events := by
  induction events with
  | nil => trivial
  | cons e events ih => exact ⟨fun h => absurd rfl h, ih⟩

/-- In a run without such events, no port is zero. -/
theorem inv_of_clean {events : List Event} (hs : Inv True s)
    (h : Run.Along step Clean (some s) events) (hrun : events.foldl step (some s) = some s') :
    Inv True s' := by
  exact h.invariant_bind (fun _ _ => rfl)
    (fun s s' e hinv hclean he => hinv.event (fun _ => hclean (Option.some_ne_none s)) he) hs hrun

/-- The addresses stay distinct in every run. -/
theorem inv_run {events : List Event} (hs : Inv False s)
    (hrun : events.foldl step (some s) = some s') : Inv False s' := by
  have hall : Run.Along step (fun _ _ => True) (some s) events :=
    Run.along_of_forall (fun _ _ => trivial) _ _
  exact hall.invariant_bind (fun _ _ => rfl) (fun s s' e h _ he => h.event False.elim he) hs hrun

/-- If all states that a run reaches are sound, none of its events has let a port zero in. -/
theorem clean_of_sound {events : List Event} (hs : Inv True s)
    (h : ∀ pre, pre <+: events → ∀ s', pre.foldl step (some s) = some s' → Sound s') :
    Run.Along step Clean (some s) events := by
  induction events generalizing s with
  | nil => trivial
  | cons e events ih =>
    have hzero : ¬ e.ZeroPort := by
      intro hzero
      obtain ⟨s₁, he, c, hc, hport⟩ := exists_port_zero hs hzero
      exact (h [e] ⟨events, rfl⟩ s₁ he).port_ne c hc hport
    refine ⟨fun _ => hzero, ?_⟩
    cases he : s.event e with
    | none =>
      have hstep : step (some s) e = none := he
      rw [hstep]
      exact clean_of_none events
    | some s₁ =>
      have hstep : step (some s) e = some s₁ := he
      rw [hstep]
      refine ih (hs.event (fun _ => hzero) he) fun pre hpre s' hrun => ?_
      refine h (e :: pre) ((List.prefix_cons_inj e).2 hpre) s' ?_
      rw [List.foldl_cons, hstep]
      exact hrun

/-- The addresses are distinct in every state that a run reaches; and no port is zero in any of them
if and only if no HTTP tracker has answered with a compact string in which a port is zero. -/
theorem sound_iff (torrent : TorrentInfo) (peerId : Bytes) (events : List Event) :
    (∀ s, run torrent peerId events = some s → (s.peers.map address).Nodup) ∧
      ((∀ pre, pre <+: events → ∀ s, run torrent peerId pre = some s → Sound s) ↔
        Run.Along step Clean (some { torrent, peerId }) events) := by
  refine ⟨fun s hrun => (inv_run (inv_init torrent peerId) hrun).nodup,
    clean_of_sound (inv_init torrent peerId), ?_⟩
  rintro hclean pre ⟨rest, rfl⟩ s hrun
  have hinv := inv_of_clean (inv_init torrent peerId) (Run.along_append.1 hclean).1 hrun
  exact ⟨hinv.port_ne trivial, hinv.nodup⟩

/-- A tracker that answers with the peer 1.2.3.4:0. -/
def zeroPort : Event :=
  .tracker 5
    { net := { resolves := fun _ _ => false, transactionId := 0, key := 0, beforeConnect := [],
               beforeAnnounce := [], beforePeers := [] }
      transfer := fun _ => .answered 200 (ascii "d5:peers6:" ++ [1, 2, 3, 4, 0, 0] ++ ascii "e")
      unassigned := fun _ => 0 }
    { trackerUrl := ascii "http://a/announce"
      torrent := { infoHash := List.replicate 20 0 }
      peerId := List.replicate 20 0 }
    fun _ => 0

theorem not_forall_sound :
    ¬ ∀ (torrent : TorrentInfo) (peerId : Bytes) (events : List Event) (s : Swarm),
        run torrent peerId events = some s → Sound s := by
  intro h
  have hzero : zeroPort.ZeroPort :=
    ⟨[1, 2, 3, 4, 0, 0], ⟨by decide, _, _, _, rfl, rfl, rfl, rfl⟩, 0, by decide⟩
  obtain ⟨s, he, c, hc, hport⟩ := exists_port_zero (inv_init {} []) hzero
  exact (h {} [] [zeroPort] s he).port_ne c hc hport

end Swarm

end Gush
