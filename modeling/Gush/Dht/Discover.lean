import Gush.Dht.Query

/-!
# Discovering peers

The loop of `discoverDhtPeers`: nodes wait in a queue, each answer may add nodes to the queue and
peers to the result. `discoverDhtPeers_bounded` says that the search ends, asks few nodes and none
of them twice, and returns few peers, all of them distinct and announced by a node that was asked.
-/

namespace Gush.Dht

open Cxx Bencode Worklist

/-- Everything that the search learns from outside; the numbers count the calls. -/
structure Network where
  getaddrinfo : ℕ → Bytes → Bytes → Option (List AddrInfo)
  socket : Bool
  nodeId : Bytes
  transaction : ℕ → Bytes
  sendto : ℕ → ℤ
  inbox : List Received

/-- A query with its answer. -/
structure Exchange where
  node : ResolvedNode
  transaction : Bytes
  answer : Option Answer

/-- The variables of the loop, with what is still to be received. The log of the queries is not in
the source. -/
structure Search where
  pending : Queue ResolvedNode Bytes
  peers : Queue Peer Bytes := {}
  queryCount : ℕ := 0
  inbox : List Received
  log : List Exchange := []

/-- A node has been asked. -/
def Search.ask (s : Search) (rest : List ResolvedNode) (exchange : Exchange)
    (inbox : List Received) : Search :=
  { s with
    pending := { s.pending with items := rest }
    queryCount := s.queryCount + 1
    inbox
    log := s.log ++ [exchange] }

/-- Reads the body of a response. -/
def Search.readResponse (s : Search) (maxPeers : ℕ) (response : BencodeDict) : Search :=
  match dictGet response (ascii "r") with
  | some (.dict body) =>
    let s :=
      match dictGet body (ascii "values") with
      | some values => { s with peers := appendPeers values s.peers maxPeers }
      | none => s
    match dictGetString body (ascii "nodes") with
    | some nodes => { s with pending := enqueueCompactNodes nodes s.pending }
    | none => s
  | _ => s

/-- A round of the loop, on the node at the front of the queue; `none` says that parsing an answer
does not end. -/
def discoverRound (fuel : ℕ) (network : Network) (infoHash : Bytes) (maxPeers : ℕ)
    (node : ResolvedNode) (rest : List ResolvedNode) (s : Search) : Option Search :=
  let transaction := network.transaction s.queryCount
  let query := makeGetPeersQuery transaction network.nodeId infoHash
  match queryNode fuel node query transaction (network.sendto s.queryCount) s.inbox with
  | none => none
  | some (none, inbox) => some (s.ask rest { node, transaction, answer := none } inbox)
  | some (some answer, inbox) =>
    some ((s.ask rest { node, transaction, answer := some answer } inbox).readResponse
      maxPeers answer.response)

theorem queryCount_readResponse (s : Search) (maxPeers : ℕ) (response : BencodeDict) :
    (s.readResponse maxPeers response).queryCount = s.queryCount := by
  rw [Search.readResponse]
  split
  · rename_i body _
    cases dictGet body (ascii "values") <;> cases dictGetString body (ascii "nodes") <;> rfl
  · rfl

theorem queryCount_discoverRound {fuel : ℕ} {network : Network} {infoHash : Bytes} {maxPeers : ℕ}
    {node : ResolvedNode} {rest : List ResolvedNode} {s s' : Search}
    (h : discoverRound fuel network infoHash maxPeers node rest s = some s') :
    s'.queryCount = s.queryCount + 1 := by
  unfold discoverRound at h
  simp only at h
  split at h
  · cases h
  · cases h
    rfl
  · cases h
    exact queryCount_readResponse _ _ _

/-- The loop of `discoverDhtPeers`. -/
def discoverLoop (fuel : ℕ) (network : Network) (infoHash : Bytes) (options : DhtOptions)
    (s : Search) : Option Search :=
  match s.pending.items with
  | [] => some s
  | node :: rest =>
    if s.queryCount < options.maxQueries ∧ s.peers.items.length < options.maxPeers then
      match _hround : discoverRound fuel network infoHash options.maxPeers node rest s with
      | none => none
      | some s' => discoverLoop fuel network infoHash options s'
    else some s
termination_by options.maxQueries - s.queryCount
decreasing_by
  have hcount := queryCount_discoverRound _hround
  omega

/-- The nodes that are asked if the caller names none. -/
def defaultNodes : List DhtEndpoint :=
  [{ host := ascii "router.bittorrent.com", port := 6881 },
    { host := ascii "router.utorrent.com", port := 6881 },
    { host := ascii "dht.transmissionbt.com", port := 6881 }]

/-- The nodes that the search starts from. -/
def seeds (bootstrapNodes : List DhtEndpoint) : List DhtEndpoint :=
  if bootstrapNodes = [] then defaultNodes else bootstrapNodes

/-- `discoverDhtPeers`, with the log of its queries. -/
def discoverDhtPeers (fuel : ℕ) (network : Network) (infoHash : Bytes)
    (bootstrapNodes : List DhtEndpoint) (options : DhtOptions) :
    Option (List Peer × List Exchange) :=
  if infoHash.length ≠ 20 ∨ options.maxQueries = 0 ∨ options.maxPeers = 0 then some ([], [])
  else
    let resolved := (seeds bootstrapNodes).zipIdx.filterMap fun seed =>
      resolveNode (network.getaddrinfo seed.2) seed.1
    let pending := resolved.foldl (Queue.enqueue ResolvedNode.key) {}
    if pending.items = [] ∨ network.socket = false then some ([], [])
    else
      (discoverLoop fuel network infoHash options { pending, inbox := network.inbox }).map fun s =>
        (s.peers.items, s.log)

/-! ### Reading a response -/

/-- The peers that the `values` of a response announce. -/
def announced (response : BencodeDict) : List Peer :=
  match dictGet response (ascii "r") with
  | some (.dict body) => ((dictGet body (ascii "values")).map listedPeers).getD []
  | _ => []

/-- Reading a response enqueues nodes and appends announced peers. -/
theorem Search.readResponse_spec (s : Search) (maxPeers : ℕ) (response : BencodeDict) :
    (s.readResponse maxPeers response).queryCount = s.queryCount ∧
      (s.readResponse maxPeers response).inbox = s.inbox ∧
      (s.readResponse maxPeers response).log = s.log ∧
      (∃ nodes : List ResolvedNode, (s.readResponse maxPeers response).pending =
        nodes.foldl (Queue.enqueue ResolvedNode.key) s.pending) ∧
      (s.readResponse maxPeers response).peers =
        appendLoop maxPeers (announced response) s.peers := by
  rw [readResponse, announced]
  split
  · rename_i body _
    cases hnodes : dictGetString body (ascii "nodes") with
    | none =>
      simp only
      cases dictGet body (ascii "values") <;> exact ⟨rfl, rfl, rfl, ⟨[], rfl⟩, rfl⟩
    | some nodes =>
      simp only
      cases dictGet body (ascii "values") <;>
        exact ⟨rfl, rfl, rfl, ⟨compactNodes nodes, rfl⟩, rfl⟩
  · exact ⟨rfl, rfl, rfl, ⟨[], rfl⟩, rfl⟩

/-- The peer is in the `values` list of an answer that was received and that matches the query. -/
def Exchange.Announces (inbox : List Received) (exchange : Exchange) (p : Peer) : Prop :=
  ∃ answer, exchange.answer = some answer ∧ .datagram answer.sender answer.data ∈ inbox ∧
    answer.Matches exchange.node exchange.transaction ∧ p ∈ announced answer.response

/-- What the search keeps to. -/
structure Search.Bounded (network : Network) (options : DhtOptions) (s : Search) : Prop where
  nodes : Distinct ResolvedNode.key (s.log.map Exchange.node) s.pending
  log_length : s.log.length = s.queryCount
  queryCount_le : s.queryCount ≤ options.maxQueries
  inbox : s.inbox ⊆ network.inbox
  peers : Distinct peerKey [] s.peers
  peers_le : s.peers.items.length ≤ options.maxPeers
  port : ∀ p ∈ s.peers.items, p.port ≠ 0
  sources : ∀ p ∈ s.peers.items, ∃ exchange ∈ s.log, exchange.Announces network.inbox p

section Round

variable {network : Network} {options : DhtOptions} {s s' : Search}

/-- The node that is asked leaves the queue. -/
theorem Search.Bounded.ask (h : s.Bounded network options) {node : ResolvedNode}
    {rest : List ResolvedNode} (hitems : s.pending.items = node :: rest)
    (hcount : s.queryCount < options.maxQueries) {exchange : Exchange} (hnode : exchange.node = node)
    {inbox : List Received} (hinbox : inbox ⊆ s.inbox) :
    (s.ask rest exchange inbox).Bounded network options where
  nodes := by
    have hpop := h.nodes.pop hitems
    rwa [← hnode, ← List.map_singleton, ← List.map_append] at hpop
  log_length := by simp [Search.ask, h.log_length]
  queryCount_le := hcount
  inbox := fun _ hr => h.inbox (hinbox hr)
  peers := h.peers
  peers_le := h.peers_le
  port := h.port
  sources := by
    intro p hp
    obtain ⟨e, he, hannounces⟩ := h.sources p hp
    exact ⟨e, List.mem_append_left _ he, hannounces⟩

/-- The answer to a query that is in the log is read. -/
theorem Search.Bounded.readResponse (h : s.Bounded network options)
    (hroom : s.peers.items.length < options.maxPeers) {exchange : Exchange} (hlog : exchange ∈ s.log)
    {answer : Answer} (hanswer : exchange.answer = some answer)
    (hmem : .datagram answer.sender answer.data ∈ network.inbox)
    (hmatches : answer.Matches exchange.node exchange.transaction) :
    (s.readResponse options.maxPeers answer.response).Bounded network options := by
  obtain ⟨hcount, hinbox, hlogs, ⟨nodes, hpending⟩, hpeers⟩ :=
    s.readResponse_spec options.maxPeers answer.response
  obtain ⟨hdistinct, hle, hfrom⟩ :=
    @appendLoop_spec options.maxPeers (announced answer.response) s.peers h.peers hroom
  rw [← hpeers] at hdistinct hle hfrom
  exact {
    nodes := by
      rw [hlogs, hpending]
      exact h.nodes.foldl_enqueue nodes
    log_length := by rw [hlogs, hcount, h.log_length]
    queryCount_le := hcount ▸ h.queryCount_le
    inbox := hinbox ▸ h.inbox
    peers := hdistinct
    peers_le := hle
    port := fun p hp => (hfrom p hp).elim (h.port p) fun hnew => hnew.2
    sources := by
      intro p hp
      rw [hlogs]
      rcases hfrom p hp with hold | ⟨hnew, -⟩
      · exact h.sources p hold
      · exact ⟨exchange, hlog, answer, hanswer, hmem, hmatches, hnew⟩ }

theorem bounded_discoverRound (h : s.Bounded network options) {node : ResolvedNode}
    {rest : List ResolvedNode} (hitems : s.pending.items = node :: rest)
    (hcount : s.queryCount < options.maxQueries) (hroom : s.peers.items.length < options.maxPeers)
    {fuel : ℕ} {infoHash : Bytes}
    (hround : discoverRound fuel network infoHash options.maxPeers node rest s = some s') :
    s'.Bounded network options := by
  have hquery : ∀ {query transaction : Bytes} {sent : ℤ} {answer : Option Answer}
      {inbox : List Received},
      queryNode fuel node query transaction sent s.inbox = some (answer, inbox) →
        inbox ⊆ s.inbox ∧ ∀ found, answer = some found →
          .datagram found.sender found.data ∈ s.inbox ∧ found.Matches node transaction := by
    intro query transaction sent answer inbox hquery
    rw [queryNode] at hquery
    split_ifs at hquery
    · cases hquery
      exact ⟨List.Subset.refl _, by simp⟩
    · exact receiveLoop_some hquery
  unfold discoverRound at hround
  simp only at hround
  split at hround
  · cases hround
  · rename_i inbox hanswer
    cases hround
    exact h.ask hitems hcount rfl (hquery hanswer).1
  · rename_i answer inbox hanswer
    cases hround
    obtain ⟨hinbox, hfound⟩ := hquery hanswer
    obtain ⟨hmem, hmatches⟩ := hfound answer rfl
    exact (h.ask hitems hcount rfl hinbox).readResponse hroom
      (List.mem_append_right _ List.mem_cons_self) rfl (h.inbox hmem) hmatches

end Round

section Loop

variable {fuel : ℕ} {network : Network} {infoHash : Bytes} {options : DhtOptions} {s : Search}

/-- As long as there is a node and room for queries and peers, the loop goes on. -/
theorem discoverLoop_eq {node : ResolvedNode} {rest : List ResolvedNode}
    (hitems : s.pending.items = node :: rest)
    (hguard : s.queryCount < options.maxQueries ∧ s.peers.items.length < options.maxPeers) :
    discoverLoop fuel network infoHash options s =
      (discoverRound fuel network infoHash options.maxPeers node rest s).bind
        (discoverLoop fuel network infoHash options) := by
  rw [discoverLoop, hitems]
  simp only [if_pos hguard]
  split <;> rename_i hround <;> rw [hround] <;> rfl

theorem bounded_discoverLoop (h : s.Bounded network options) {s' : Search}
    (hloop : discoverLoop fuel network infoHash options s = some s') :
    s'.Bounded network options := by
  induction s using discoverLoop.induct fuel network infoHash options with
  | case1 s hempty =>
    rw [discoverLoop, hempty] at hloop
    cases hloop
    exact h
  | case2 s node rest hitems hguard hround =>
    rw [discoverLoop_eq hitems hguard, hround] at hloop
    cases hloop
  | case3 s node rest hitems hguard next hround ih =>
    rw [discoverLoop_eq hitems hguard, hround] at hloop
    exact ih (bounded_discoverRound h hitems hguard.1 hguard.2 hround) hloop
  | case4 s node rest hitems hguard =>
    rw [discoverLoop, hitems] at hloop
    simp only [if_neg hguard] at hloop
    cases hloop
    exact h

/-- The loop ends if the parser ends on every datagram. -/
theorem discoverLoop_ne_none (h : s.Bounded network options)
    (hends : ∀ sender data, .datagram sender data ∈ network.inbox →
      parseImpl fuel (data.take maxDhtPacketSize) 0 ≠ none) :
    discoverLoop fuel network infoHash options s ≠ none := by
  induction s using discoverLoop.induct fuel network infoHash options with
  | case1 s hempty =>
    rw [discoverLoop, hempty]
    exact Option.some_ne_none s
  | case2 s node rest hitems hguard hround =>
    have hreceive : ∀ transaction, receiveLoop fuel node transaction s.inbox ≠ none := fun _ =>
      receiveLoop_ne_none fun sender data hmem => hends sender data (h.inbox hmem)
    unfold discoverRound at hround
    simp only at hround
    split at hround
    · rename_i hquery
      rw [queryNode] at hquery
      split_ifs at hquery
      exact absurd hquery (hreceive _)
    · cases hround
    · cases hround
  | case3 s node rest hitems hguard next hround ih =>
    rw [discoverLoop_eq hitems hguard, hround]
    exact ih (bounded_discoverRound h hitems hguard.1 hguard.2 hround)
  | case4 s node rest hitems hguard =>
    rw [discoverLoop, hitems]
    simp only [if_neg hguard]
    exact Option.some_ne_none s

end Loop

/-- One fuel that is enough for all datagrams. -/
theorem exists_fuel {inbox : List Received}
    (h : ∀ sender data, .datagram sender data ∈ inbox →
      ∃ r, Parses (data.take maxDhtPacketSize) 0 r) :
    ∃ fuel, ∀ sender data, .datagram sender data ∈ inbox →
      parseImpl fuel (data.take maxDhtPacketSize) 0 ≠ none := by
  induction inbox with
  | nil => exact ⟨0, fun sender data hmem => absurd hmem List.not_mem_nil⟩
  | cons received inbox ih =>
    obtain ⟨fuel, hfuel⟩ := ih fun sender data hmem => h sender data (List.mem_cons_of_mem _ hmem)
    cases received with
    | timeout =>
      refine ⟨fuel, fun sender data hmem => ?_⟩
      rcases List.mem_cons.1 hmem with hmem | hmem
      · cases hmem
      · exact hfuel sender data hmem
    | datagram sender data =>
      obtain ⟨r, fuel', hparse⟩ := h sender data List.mem_cons_self
      refine ⟨max fuel fuel', fun sender' data' hmem => ?_⟩
      rcases List.mem_cons.1 hmem with hmem | hmem
      · cases hmem
        rw [parseImpl_mono (le_max_right fuel fuel') hparse]
        exact Option.some_ne_none r
      · obtain ⟨r', hr'⟩ := Option.ne_none_iff_exists'.1 (hfuel sender' data' hmem)
        rw [parseImpl_mono (le_max_left fuel fuel') hr']
        exact Option.some_ne_none r'

/-- What holds of the peers that a search returns and of the queries that it makes. -/
structure Discovered (network : Network) (options : DhtOptions) (peers : List Peer)
    (log : List Exchange) : Prop where
  queries_le : log.length ≤ options.maxQueries
  distinct_nodes : (log.map fun exchange => exchange.node.key).Nodup
  peers_le : peers.length ≤ options.maxPeers
  distinct_peers : (peers.map fun p => (p.ip, p.port)).Nodup
  port : ∀ p ∈ peers, p.port ≠ 0
  announced : ∀ p ∈ peers, ∃ exchange ∈ log, exchange.Announces network.inbox p

theorem discovered_nil (network : Network) (options : DhtOptions) :
    Discovered network options [] [] := by
  constructor <;> simp

/-- The search starts within its bounds. -/
theorem bounded_start (network : Network) (options : DhtOptions) (resolved : List ResolvedNode) :
    Search.Bounded network options
      { pending := resolved.foldl (Queue.enqueue ResolvedNode.key) {}, inbox := network.inbox } where
  nodes := Distinct.empty.foldl_enqueue resolved
  log_length := rfl
  queryCount_le := Nat.zero_le _
  inbox := List.Subset.refl _
  peers := Distinct.empty
  peers_le := Nat.zero_le _
  port := by simp
  sources := by simp

theorem Search.Bounded.discovered {network : Network} {options : DhtOptions} {s : Search}
    (h : s.Bounded network options) : Discovered network options s.peers.items s.log where
  queries_le := h.log_length ▸ h.queryCount_le
  distinct_nodes := by
    have hnodes := h.nodes.nodup_left
    rwa [List.map_map] at hnodes
  peers_le := h.peers_le
  distinct_peers := by
    -- the key of a peer is made of its address and its port
    have hkeys : (s.peers.items.map peerKey).Nodup := h.peers.nodup
    have heq : s.peers.items.map peerKey = (s.peers.items.map fun p => (p.ip, p.port)).map
        fun e => e.1 ++ ':'.toUInt8 :: Decimal.numeral e.2.toNat := by
      rw [List.map_map]
      rfl
    rw [heq] at hkeys
    exact hkeys.of_map _
  port := h.port
  announced := h.sources

/-- A search that ends keeps its bounds. -/
theorem discovered_of_eq_some {fuel : ℕ} {network : Network} {infoHash : Bytes}
    {bootstrapNodes : List DhtEndpoint} {options : DhtOptions} {peers : List Peer}
    {log : List Exchange}
    (h : discoverDhtPeers fuel network infoHash bootstrapNodes options = some (peers, log)) :
    Discovered network options peers log := by
  unfold discoverDhtPeers at h
  split_ifs at h
  · cases h
    exact discovered_nil network options
  · simp only at h
    split_ifs at h
    · cases h
      exact discovered_nil network options
    · obtain ⟨s, hloop, heq⟩ := Option.map_eq_some_iff.1 h
      cases heq
      exact (bounded_discoverLoop (bounded_start network options _) hloop).discovered

/-- **Main result.** If the parser ends on every datagram, the search ends; it asks at most
`maxQueries` nodes, no address twice, and returns at most `maxPeers` distinct peers with a port, each
from the answer to a query. -/
theorem discoverDhtPeers_bounded (network : Network) (infoHash : Bytes)
    (bootstrapNodes : List DhtEndpoint) (options : DhtOptions)
    (hends : ∀ sender data, .datagram sender data ∈ network.inbox →
      ∃ r, Parses (data.take maxDhtPacketSize) 0 r) :
    (∃ fuel, (discoverDhtPeers fuel network infoHash bootstrapNodes options).isSome) ∧
    ∀ fuel peers log,
      discoverDhtPeers fuel network infoHash bootstrapNodes options = some (peers, log) →
        Discovered network options peers log := by
  constructor
  · obtain ⟨fuel, hfuel⟩ := exists_fuel hends
    refine ⟨fuel, ?_⟩
    unfold discoverDhtPeers
    split_ifs
    · rfl
    · simp only
      split_ifs
      · rfl
      · rw [Option.isSome_map, Option.isSome_iff_ne_none]
        exact discoverLoop_ne_none (bounded_start network options _) hfuel
  · intro fuel peers log h
    exact discovered_of_eq_some h

/-- An answer with the node itself and with two peers, one of them without a port. -/
def oneAnswer : Bytes :=
  encode (.dict [(ascii "r", .dict
      [(ascii "nodes", .str (List.replicate 20 0 ++ [127, 0, 0, 1, 26, 225])),
        (ascii "values", .list [.str [10, 0, 0, 1, 0, 80, 10, 0, 0, 2, 0, 0]])]),
    (ascii "t", .str [1, 2]), (ascii "y", .str (ascii "r"))])

/-- A network of one node. -/
def oneNode : Network where
  getaddrinfo _ _ _ :=
    some [{ addrlen := sockaddrSize, address := { a := 127, b := 0, c := 0, d := 1, port := 6881 } }]
  socket := true
  nodeId := List.replicate 20 0
  transaction _ := [1, 2]
  sendto _ := 95
  inbox := [.datagram { a := 127, b := 0, c := 0, d := 1, port := 6881 } oneAnswer]

/-- The node is asked once, although it answers with its own address. -/
theorem discoverDhtPeers_bounded_oneNode : ∃ fuel peers log,
    discoverDhtPeers fuel oneNode (List.replicate 20 0) [{ host := ascii "localhost" }] {} =
        some (peers, log) ∧
      Discovered oneNode {} peers log := by
  have hends : ∀ sender data, .datagram sender data ∈ oneNode.inbox →
      ∃ r, Parses (data.take maxDhtPacketSize) 0 r := by
    intro sender data hmem
    obtain ⟨-, rfl⟩ := Received.datagram.inj (List.mem_singleton.1 hmem)
    obtain ⟨r, hr⟩ := Option.isSome_iff_exists.1
      (show (parseImpl 20 (oneAnswer.take maxDhtPacketSize) 0).isSome = true by decide +kernel)
    exact ⟨r, 20, hr⟩
  obtain ⟨⟨fuel, hsome⟩, hall⟩ := discoverDhtPeers_bounded oneNode (List.replicate 20 0)
    [{ host := ascii "localhost" }] {} hends
  obtain ⟨⟨peers, log⟩, heq⟩ := Option.isSome_iff_exists.1 hsome
  exact ⟨fuel, peers, log, heq, hall fuel peers log heq⟩

end Gush.Dht
