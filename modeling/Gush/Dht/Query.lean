import Gush.Bencode.Parse
import Gush.Lib.Worklist
import Gush.Tracker.Udp

/-!
# Queries to the DHT

The parts of `discoverDhtPeers`: names are resolved, a node is asked for peers and its answer awaited
(`queryNode`), and the answer is read (`appendPeers`, `enqueueCompactNodes`). Everything that comes
in from outside is data of the call: the results of `getaddrinfo` and `sendto`, the random bytes, and
the datagrams in the order in which they are received, with the times at which the wait ends.
-/

namespace Gush.Dht

open Cxx Bencode Worklist

/-! ### Nodes -/

/-- `sockaddr_in`. -/
structure SockAddr where
  a : UInt8
  b : UInt8
  c : UInt8
  d : UInt8
  port : UInt16
  deriving DecidableEq

/-- An address as `ip:port`. -/
def SockAddr.text (address : SockAddr) : Bytes :=
  Tracker.dotted address.a address.b address.c address.d ++
    ':'.toUInt8 :: Decimal.numeral address.port.toNat

/-- `ResolvedNode`. -/
structure ResolvedNode where
  address : SockAddr
  key : Bytes
  key_eq : key = address.text

def ResolvedNode.ofAddress (address : SockAddr) : ResolvedNode where
  address
  key := address.text
  key_eq := rfl

/-- `DhtEndpoint`. -/
structure DhtEndpoint where
  host : Bytes
  port : UInt16 := 6881

/-- `DhtOptions`, without the time that a query takes. -/
structure DhtOptions where
  maxQueries : ℕ := 32
  maxPeers : ℕ := 100

/-- An element of the list that `getaddrinfo` returns. -/
structure AddrInfo where
  addrlen : ℕ
  address : SockAddr

/-- `sizeof(sockaddr_in)`. -/
def sockaddrSize : ℕ := 16

def resolveNode (getaddrinfo : Bytes → Bytes → Option (List AddrInfo)) (node : DhtEndpoint) :
    Option ResolvedNode :=
  match getaddrinfo node.host (Decimal.numeral node.port.toNat) with
  | none => none
  | some addresses =>
    (addresses.find? fun current => decide (current.addrlen = sockaddrSize)).map fun current =>
      .ofAddress current.address

/-! ### Asking a node -/

def makeGetPeersQuery (transaction nodeId infoHash : Bytes) : Bytes :=
  let args := dictInsert (ascii "id") (.str nodeId) []
  let args := dictInsert (ascii "info_hash") (.str infoHash) args
  let query := dictInsert (ascii "a") (.dict args) []
  let query := dictInsert (ascii "q") (.str (ascii "get_peers")) query
  let query := dictInsert (ascii "t") (.str transaction) query
  let query := dictInsert (ascii "y") (.str (ascii "q")) query
  encode (.dict query)

/-- What a wait for a datagram ends with. A failing `recvfrom` is like an empty datagram. -/
inductive Received where
  | datagram (sender : SockAddr) (data : Bytes)
  | timeout

/-- `MAX_DHT_PACKET_SIZE`. -/
def maxDhtPacketSize : ℕ := 64 * 1024

/-- An answer, with the datagram it came in. -/
structure Answer where
  sender : SockAddr
  data : Bytes
  response : BencodeDict

/-- What is done with a datagram: `some none` ignores it, and `none` says that parsing does not
end. -/
def readDatagram (fuel : ℕ) (node : ResolvedNode) (transaction : Bytes) (sender : SockAddr)
    (data : Bytes) : Option (Option Answer) :=
  if data = [] then some none
  else if sender ≠ node.address then some none
  else
    match parseImpl fuel (data.take maxDhtPacketSize) 0 with
    | none => none
    | some (.ok (.dict response, _)) =>
      if dictGetString response (ascii "t") = some transaction ∧
          dictGetString response (ascii "y") = some (ascii "r") then
        some (some { sender, data, response })
      else some none
    | some _ => some none

/-- The loop of `queryNode`, with the answer and what is received later. -/
def receiveLoop (fuel : ℕ) (node : ResolvedNode) (transaction : Bytes) :
    List Received → Option (Option Answer × List Received)
  | [] => some (none, [])
  | .timeout :: inbox => some (none, inbox)
  | .datagram sender data :: inbox =>
    match readDatagram fuel node transaction sender data with
    | none => none
    | some (some answer) => some (some answer, inbox)
    | some none => receiveLoop fuel node transaction inbox

/-- `queryNode`, where `sendto` has returned `sent`. -/
def queryNode (fuel : ℕ) (node : ResolvedNode) (query transaction : Bytes) (sent : ℤ)
    (inbox : List Received) : Option (Option Answer × List Received) :=
  if sent ≠ query.length then some (none, inbox) else receiveLoop fuel node transaction inbox

/-! ### Reading the answer -/

/-- `NODE_COMPACT_SIZE`. -/
def nodeCompactSize : ℕ := 26

/-- The address of a compact node, behind its identifier of twenty bytes. -/
def compactAddress (nodes : Bytes) (offset : ℕ) : SockAddr where
  a := nodes.getD (offset + 20) 0
  b := nodes.getD (offset + 21) 0
  c := nodes.getD (offset + 22) 0
  d := nodes.getD (offset + 23) 0
  port := (nodes.getD (offset + 24) 0).toUInt16 <<< 8 ||| (nodes.getD (offset + 25) 0).toUInt16

/-- The nodes of a compact list that have an address and a port. -/
def compactNodes (nodes : Bytes) : List ResolvedNode :=
  (List.range (nodes.length / nodeCompactSize)).filterMap fun i =>
    let address := compactAddress nodes (i * nodeCompactSize)
    if (address.a = 0 ∧ address.b = 0 ∧ address.c = 0 ∧ address.d = 0) ∨ address.port = 0 then none
    else some (.ofAddress address)

/-- `enqueueCompactNodes`, on `pending` and `known`. -/
def enqueueCompactNodes (nodes : Bytes) (pending : Queue ResolvedNode Bytes) :
    Queue ResolvedNode Bytes :=
  (compactNodes nodes).foldl (Queue.enqueue ResolvedNode.key) pending

/-- The key of a peer in `knownPeers`. -/
def peerKey (peer : Peer) : Bytes :=
  peer.ip ++ ':'.toUInt8 :: Decimal.numeral peer.port.toNat

/-- The peers that a `values` list contains. -/
def listedPeers : BencodeValue → List Peer
  | .list values => values.flatMap fun value =>
    match value with
    | .str data => Tracker.parseCompactPeers data
    | _ => []
  | _ => []

/-- The loop of `appendPeers` over the peers. -/
def appendLoop (maxPeers : ℕ) : List Peer → Queue Peer Bytes → Queue Peer Bytes
  | [], peers => peers
  | peer :: rest, peers =>
    if peer.port = 0 then appendLoop maxPeers rest peers
    else
      let peers := peers.enqueue peerKey peer
      if peers.items.length ≥ maxPeers then peers else appendLoop maxPeers rest peers

/-- `appendPeers`, on `peers` and `knownPeers`. -/
def appendPeers (values : BencodeValue) (peers : Queue Peer Bytes) (maxPeers : ℕ) :
    Queue Peer Bytes :=
  appendLoop maxPeers (listedPeers values) peers

/-! ### What an answer is -/

/-- The answer matches the query: it comes from the node that was asked, and is a response with the
transaction id of the query. -/
structure Answer.Matches (answer : Answer) (node : ResolvedNode) (transaction : Bytes) : Prop where
  sender : answer.sender = node.address
  parsed : ∃ pos, Parses (answer.data.take maxDhtPacketSize) 0 (.ok (.dict answer.response, pos))
  transaction : dictGetString answer.response (ascii "t") = some transaction
  type : dictGetString answer.response (ascii "y") = some (ascii "r")

section Receive

variable {fuel : ℕ} {node : ResolvedNode} {transaction : Bytes}

theorem readDatagram_answer {sender : SockAddr} {data : Bytes} {answer : Answer}
    (h : readDatagram fuel node transaction sender data = some (some answer)) :
    answer.sender = sender ∧ answer.data = data ∧ answer.Matches node transaction := by
  unfold readDatagram at h
  split at h
  · cases h
  · split at h
    · cases h
    · rename_i hsender
      split at h
      · cases h
      · rename_i response pos hparse
        split_ifs at h with hmatch
        · cases h
          exact ⟨rfl, rfl, not_not.1 hsender, ⟨pos, fuel, hparse⟩, hmatch.1, hmatch.2⟩
        · cases h
      · cases h

/-- The answer is one of the datagrams received, and nothing that is received later is new. -/
theorem receiveLoop_some {inbox rest : List Received} {answer : Option Answer}
    (h : receiveLoop fuel node transaction inbox = some (answer, rest)) :
    rest ⊆ inbox ∧ ∀ found, answer = some found →
      .datagram found.sender found.data ∈ inbox ∧ found.Matches node transaction := by
  induction inbox with
  | nil =>
    cases h
    exact ⟨List.Subset.refl _, by simp⟩
  | cons received inbox ih =>
    cases received with
    | timeout =>
      cases h
      exact ⟨List.subset_cons_self _ _, by simp⟩
    | datagram sender data =>
      rw [receiveLoop] at h
      split at h
      · cases h
      · rename_i found hread
        obtain ⟨rfl, rfl, hmatches⟩ := readDatagram_answer hread
        cases h
        refine ⟨List.subset_cons_self _ _, ?_⟩
        rintro _ ⟨⟩
        exact ⟨List.mem_cons_self, hmatches⟩
      · obtain ⟨hrest, hfound⟩ := ih h
        refine ⟨List.subset_cons_of_subset _ hrest, fun found heq => ?_⟩
        obtain ⟨hmem, hmatches⟩ := hfound found heq
        exact ⟨List.mem_cons_of_mem _ hmem, hmatches⟩

/-- The loop ends if the parser ends on every datagram. -/
theorem receiveLoop_ne_none {inbox : List Received}
    (h : ∀ sender data, .datagram sender data ∈ inbox →
      parseImpl fuel (data.take maxDhtPacketSize) 0 ≠ none) :
    receiveLoop fuel node transaction inbox ≠ none := by
  induction inbox with
  | nil => exact Option.some_ne_none _
  | cons received inbox ih =>
    have hrest := ih fun sender data hmem => h sender data (List.mem_cons_of_mem _ hmem)
    cases received with
    | timeout => exact Option.some_ne_none _
    | datagram sender data =>
      have hparse := h sender data List.mem_cons_self
      have hread : readDatagram fuel node transaction sender data ≠ none := by
        unfold readDatagram
        split_ifs
        · exact Option.some_ne_none _
        · exact Option.some_ne_none _
        · split
          · rename_i hnone
            exact absurd hnone hparse
          · split_ifs <;> exact Option.some_ne_none _
          · exact Option.some_ne_none _
      rw [receiveLoop]
      split
      · rename_i hnone
        exact absurd hnone hread
      · exact Option.some_ne_none _
      · exact hrest

end Receive

/-! ### What is appended -/

/-- Appending keeps the peers distinct and few, and adds listed peers with a port only. -/
theorem appendLoop_spec {maxPeers : ℕ} {listed : List Peer} :
    ∀ {peers : Queue Peer Bytes}, Distinct peerKey [] peers → peers.items.length < maxPeers →
      Distinct peerKey [] (appendLoop maxPeers listed peers) ∧
        (appendLoop maxPeers listed peers).items.length ≤ maxPeers ∧
        ∀ p ∈ (appendLoop maxPeers listed peers).items,
          p ∈ peers.items ∨ p ∈ listed ∧ p.port ≠ 0 := by
  induction listed with
  | nil => exact fun hdistinct hlt => ⟨hdistinct, hlt.le, fun p hp => .inl hp⟩
  | cons peer listed ih =>
    intro peers hdistinct hlt
    have hlisted : ∀ {p : Peer}, p ∈ listed ∧ p.port ≠ 0 → p ∈ peer :: listed ∧ p.port ≠ 0 :=
      fun h => ⟨List.mem_cons_of_mem _ h.1, h.2⟩
    rw [appendLoop]
    by_cases hport : peer.port = 0
    · rw [if_pos hport]
      obtain ⟨hkeep, hle, hfrom⟩ := ih hdistinct hlt
      exact ⟨hkeep, hle, fun p hp => (hfrom p hp).imp_right hlisted⟩
    · rw [if_neg hport]
      simp only
      have hitems : ∀ p ∈ (peers.enqueue peerKey peer).items,
          p ∈ peers.items ∨ p ∈ peer :: listed ∧ p.port ≠ 0 := by
        intro p hp
        refine (Queue.mem_enqueue hp).imp_right ?_
        rintro rfl
        exact ⟨List.mem_cons_self, hport⟩
      split_ifs with hfull
      · exact ⟨hdistinct.enqueue peer, (peers.length_enqueue_le peerKey peer).trans hlt, hitems⟩
      · obtain ⟨hkeep, hle, hfrom⟩ := ih (hdistinct.enqueue peer) (not_le.1 hfull)
        exact ⟨hkeep, hle, fun p hp => (hfrom p hp).elim (hitems p) fun h => .inr (hlisted h)⟩

end Gush.Dht
