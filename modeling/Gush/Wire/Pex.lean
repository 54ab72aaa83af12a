import Gush.Wire.Sessions

/-!
# Peers discovered by PEX

The extended payloads that a connection gets, in any order and as hostile as they may be, and the
calls of `takeDiscoveredPeers` between them. `Discovered` ties the list of discovered peers to the
history: what it never contains, and where every entry comes from.
-/

namespace Gush.Wire

open Bencode

/-! ### Histories -/

/-- A call on the connection. -/
inductive PexCall where
  | processExtendedMessage (payload : Bytes)
  | takeDiscoveredPeers

/-- A call; `none` if a parse has not come to its end. -/
def PeerConnection.pexCall (fuel : ℕ) (c : PeerConnection) : PexCall → Option PeerConnection
  | .processExtendedMessage payload =>
    (c.toPeerState.processExtendedMessage fuel payload).map fun state => { c with toPeerState := state }
  | .takeDiscoveredPeers => some c.takeDiscoveredPeers.2

/-- The calls one after the other. -/
def PeerConnection.pexRun (fuel : ℕ) (c : PeerConnection) (calls : List PexCall) :
    Option PeerConnection :=
  calls.foldl (fun c call => c.bind fun c => c.pexCall fuel call) (some c)

/-- `bencode::parse` ends on what follows the identifier. -/
def Ends (payload : Bytes) : Prop := ∃ r, Parses payload.tail 0 r

/-- The payload is a dictionary behind an identifier. -/
def HasDict (payload : Bytes) (extensionId : UInt8) (value : BencodeDict) : Prop :=
  ∃ encoded p, payload = extensionId :: encoded ∧ Parses encoded 0 (.ok (.dict value, p))

/-- An extended handshake with a dictionary `m`. -/
def Handshake (payload : Bytes) (mapping : BencodeDict) : Prop :=
  ∃ value, HasDict payload 0 value ∧ dictGet value (ascii "m") = some (.dict mapping)

/-- The handshake gives `ut_pex` an identifier. -/
def OffersPex (mapping : BencodeDict) : Prop :=
  ∃ id, dictGetInt mapping (ascii "ut_pex") = some id ∧ 0 < id ∧ id ≤ 255

/-- `ut_pex` is negotiated: the last handshake offers it. -/
def Negotiated (calls : List PexCall) : Prop :=
  ∃ pre payload mapping post, calls = pre ++ .processExtendedMessage payload :: post ∧
    Handshake payload mapping ∧ OffersPex mapping ∧
    ∀ payload', .processExtendedMessage payload' ∈ post → ¬ ∃ mapping, Handshake payload' mapping

/-- The peer was decoded from a PEX message that came while `ut_pex` was negotiated, and has not been
taken since. -/
def Announced (calls : List PexCall) (peer : Peer) : Prop :=
  ∃ pre payload value compact post, calls = pre ++ .processExtendedMessage payload :: post ∧
    HasDict payload 1 value ∧ dictGetString value (ascii "added") = some compact ∧
    peer ∈ Tracker.parseCompactPeers compact ∧ Negotiated pre ∧ .takeDiscoveredPeers ∉ post

/-- What `discoveredPeers_` never contains. -/
structure Kept (c : PeerState) (peers : List Peer) : Prop where
  length_le : peers.length ≤ 200
  nodup : (peers.map fun peer => (peer.ip, peer.port)).Nodup
  port_ne : ∀ peer ∈ peers, peer.port ≠ 0
  foreign : ∀ peer ∈ peers, ¬ (peer.ip = c.ip ∧ peer.port = c.port)

/-- The state after a history of calls on a new connection. -/
structure Discovered (calls : List PexCall) (c : PeerState) : Prop where
  kept : Kept c c.discoveredPeers
  announced : ∀ peer ∈ c.discoveredPeers, Announced calls peer
  negotiated : c.peerSupportsPex = true ↔ Negotiated calls
  malformed : ∀ fuel payload c', c.processExtendedMessage fuel payload = some c' →
    (¬ ∃ extensionId value, HasDict payload extensionId value) →
      c'.peerSupportsPex = c.peerSupportsPex ∧ c'.discoveredPeers = c.discoveredPeers

/-! ### One payload -/

namespace PeerState

variable {c c' : PeerState} {fuel : ℕ} {payload : Bytes} {peers : List Peer} {peer : Peer}

theorem kept_nil (c : PeerState) : Kept c [] := ⟨by simp, by simp, by simp, by simp⟩

/-- The loop body adds a peer only where it may be added. -/
theorem kept_discover (h : Kept c peers) : Kept c (c.discover peers peer) := by
  rw [discover]
  split_ifs with hlen hbad hdup
  · exact h
  · exact h
  · exact h
  · rw [not_or] at hbad
    have hnew : (peer.ip, peer.port) ∉ peers.map fun peer => (peer.ip, peer.port) := by
      simpa using hdup
    refine ⟨?_, ?_, ?_, ?_⟩
    · simp only [maxPexPeersPerMessage] at hlen
      simp only [List.length_append, List.length_singleton]
      omega
    · rw [List.map_append]
      exact h.nodup.append (List.nodup_singleton _) (by simpa using hnew)
    · simpa [or_imp, forall_and] using ⟨h.port_ne, hbad.1⟩
    · intro peer' hpeer'
      rcases List.mem_append.1 hpeer' with hmem | hmem
      · exact h.foreign peer' hmem
      · rw [List.mem_singleton.1 hmem]
        exact hbad.2

theorem kept_discovers (h : Kept c peers) (found : List Peer) :
    Kept c (found.foldl c.discover peers) :=
  Run.invariant (fun _ _ h => kept_discover h) found h

/-- Every peer of the list was there before or has been found. -/
theorem mem_discovers {found : List Peer} (h : peer ∈ found.foldl c.discover peers) :
    peer ∈ peers ∨ peer ∈ found := by
  induction found generalizing peers with
  | nil => exact .inl h
  | cons next found ih =>
    rcases ih h with h | h
    · rw [discover] at h
      split_ifs at h
      · exact .inl h
      · exact .inl h
      · exact .inl h
      · rcases List.mem_append.1 h with h | h
        · exact .inl h
        · exact .inr (List.mem_cons.2 (.inl (List.mem_singleton.1 h)))
    · exact .inr (List.mem_cons_of_mem next h)

/-- A payload has one identifier and one value. -/
theorem hasDict_unique {extensionId extensionId' : UInt8} {value value' : BencodeDict}
    (h : HasDict payload extensionId value) (h' : HasDict payload extensionId' value') :
    extensionId = extensionId' ∧ value = value' := by
  obtain ⟨encoded, p, rfl, hparse⟩ := h
  obtain ⟨encoded', p', heq, hparse'⟩ := h'
  obtain ⟨hid, rfl⟩ := List.cons.inj heq
  have hval := hparse.unique hparse'
  simp only [Except.ok.injEq, Prod.mk.injEq, BencodeValue.dict.injEq] at hval
  exact ⟨hid, hval.1⟩

/-- What a payload can do: a handshake sets the flag, a PEX message adds peers if the flag is set, and
nothing else has an effect. -/
inductive Effect (c : PeerState) (payload : Bytes) : PeerState → Prop
  | handshake (mapping : BencodeDict) (pex : Bool) (h : Handshake payload mapping)
      (hpex : pex = true ↔ OffersPex mapping) : Effect c payload { c with peerSupportsPex := pex }
  | pex (value : BencodeDict) (compact : Bytes) (h : HasDict payload 1 value)
      (hadded : dictGetString value (ascii "added") = some compact) (hpex : c.peerSupportsPex = true) :
      Effect c payload { c with discoveredPeers :=
        (Tracker.parseCompactPeers compact).foldl c.discover c.discoveredPeers }
  | none (h : ¬ ∃ mapping, Handshake payload mapping) : Effect c payload c

/-- A payload that is no dictionary is no handshake. -/
theorem not_handshake (h : ¬ ∃ extensionId value, HasDict payload extensionId value) :
    ¬ ∃ mapping, Handshake payload mapping := by
  rintro ⟨mapping, value, hdict, -⟩
  exact h ⟨0, value, hdict⟩

theorem effect_processExtension {extensionId : UInt8} {value : BencodeDict}
    (h : HasDict payload extensionId value) :
    Effect c payload (c.processExtension extensionId value) := by
  have hnot : (extensionId = 0 → ∀ mapping, dictGet value (ascii "m") ≠ some (.dict mapping)) →
      ¬ ∃ mapping, Handshake payload mapping := by
    rintro hm ⟨mapping, value', hdict, hget⟩
    obtain ⟨hid, rfl⟩ := hasDict_unique h hdict
    exact hm hid mapping hget
  rw [processExtension]
  split_ifs with hzero hignored
  · subst hzero
    rcases hm : dictGet value (ascii "m") with - | _ | _ | _ | mapping
    · exact .none (hnot fun _ mapping => by simp [hm])
    · exact .none (hnot fun _ mapping => by simp [hm])
    · exact .none (hnot fun _ mapping => by simp [hm])
    · exact .none (hnot fun _ mapping => by simp [hm])
    · refine .handshake mapping _ ⟨value, h, hm⟩ ?_
      cases hid : dictGetInt mapping (ascii "ut_pex") <;> simp [OffersPex, hid]
  · exact .none (hnot fun hzero' => absurd hzero' hzero)
  · rw [not_or, not_not, Bool.not_eq_false] at hignored
    obtain ⟨rfl, hpex⟩ := hignored
    cases hadded : dictGetString value (ascii "added") with
    | none => exact .none (hnot fun hzero' => absurd hzero' (by decide))
    | some compact => exact .pex value compact h hadded hpex

theorem effect_processExtendedMessage (h : c.processExtendedMessage fuel payload = some c') :
    Effect c payload c' := by
  have hnot : ∀ {encoded : Bytes} {r : Outcome}, payload.tail = encoded → Parses encoded 0 r →
      (∀ value p, r ≠ .ok (.dict value, p)) → ¬ ∃ mapping, Handshake payload mapping := by
    rintro encoded r htail hparse hr ⟨mapping, value, ⟨encoded', p, rfl, hparse'⟩, -⟩
    subst htail
    exact hr value p (hparse.unique hparse')
  match payload with
  | [] =>
    obtain rfl := Option.some.inj h
    refine .none ?_
    rintro ⟨mapping, value, ⟨encoded, p, heq, -⟩, -⟩
    cases heq
  | [_] =>
    obtain rfl := Option.some.inj h
    exact .none (hnot rfl ((parses_end rfl).2 rfl) fun value p heq => by cases heq)
  | extensionId :: b :: encoded =>
    rw [processExtendedMessage] at h
    rcases hparse : parseImpl fuel (b :: encoded) 0 with - | e | ⟨_ | _ | _ | value, p⟩ <;>
      rw [hparse] at h
    · cases h
    · obtain rfl := Option.some.inj h
      exact .none (hnot rfl ⟨fuel, hparse⟩ fun value p heq => by cases heq)
    · obtain rfl := Option.some.inj h
      exact .none (hnot rfl ⟨fuel, hparse⟩ fun value p heq => by cases heq)
    · obtain rfl := Option.some.inj h
      exact .none (hnot rfl ⟨fuel, hparse⟩ fun value p heq => by cases heq)
    · obtain rfl := Option.some.inj h
      exact .none (hnot rfl ⟨fuel, hparse⟩ fun value p heq => by cases heq)
    · obtain rfl := Option.some.inj h
      exact effect_processExtension ⟨b :: encoded, p, rfl, ⟨fuel, hparse⟩⟩

theorem processExtendedMessage_mono {fuel' : ℕ} (hle : fuel ≤ fuel')
    (h : c.processExtendedMessage fuel payload = some c') :
    c.processExtendedMessage fuel' payload = some c' := by
  match payload with
  | [] => exact h
  | [_] => exact h
  | extensionId :: b :: encoded =>
    rw [processExtendedMessage] at h ⊢
    cases hparse : parseImpl fuel (b :: encoded) 0 with
    | none =>
      rw [hparse] at h
      cases h
    | some r =>
      rw [hparse] at h
      rw [parseImpl_mono hle hparse]
      exact h

theorem exists_processExtendedMessage (c : PeerState) (h : Ends payload) :
    ∃ fuel c', c.processExtendedMessage fuel payload = some c' := by
  obtain ⟨r, fuel, hparse⟩ := h
  refine ⟨fuel, ?_⟩
  match payload with
  | [] => exact ⟨c, rfl⟩
  | [_] => exact ⟨c, rfl⟩
  | extensionId :: b :: encoded =>
    rw [List.tail_cons] at hparse
    rw [processExtendedMessage, hparse]
    rcases r with e | ⟨_ | _ | _ | value, p⟩ <;> exact ⟨_, rfl⟩

end PeerState

/-! ### Calls on a connection -/

/-- What every call on a connection does to its address and to the discovered peers. -/
structure PeerState.Keeps (c c' : PeerState) : Prop where
  ip : c'.ip = c.ip
  port : c'.port = c.port
  kept : Kept c c.discoveredPeers → Kept c' c'.discoveredPeers

namespace PeerState

variable {c c' c'' : PeerState} {fuel : ℕ} {payload : Bytes}

theorem Keeps.of_eq (hip : c'.ip = c.ip) (hport : c'.port = c.port)
    (hpeers : c'.discoveredPeers = c.discoveredPeers) : Keeps c c' where
  ip := hip
  port := hport
  kept h := by
    rw [hpeers]
    refine ⟨h.length_le, h.nodup, h.port_ne, ?_⟩
    rw [hip, hport]
    exact h.foreign

theorem Keeps.trans (h : Keeps c c') (h' : Keeps c' c'') : Keeps c c'' :=
  ⟨h'.ip.trans h.ip, h'.port.trans h.port, fun hkept => h'.kept (h.kept hkept)⟩

theorem keeps_processExtendedMessage (h : c.processExtendedMessage fuel payload = some c') :
    Keeps c c' := by
  cases effect_processExtendedMessage h with
  | handshake mapping pex => exact .of_eq rfl rfl rfl
  | pex value compact =>
    refine ⟨rfl, rfl, fun hkept => ?_⟩
    have hkept' := kept_discovers hkept (Tracker.parseCompactPeers compact)
    exact ⟨hkept'.length_le, hkept'.nodup, hkept'.port_ne, hkept'.foreign⟩
  | none => exact .of_eq rfl rfl rfl

theorem keeps_update {msg : PeerMessage} (h : c.update fuel msg = some c') : Keeps c c' := by
  obtain ⟨⟨id, payload⟩, length⟩ := msg
  cases id with
  | extended => exact keeps_processExtendedMessage h
  | havePiece =>
    obtain rfl := Option.some.inj h
    rw [setHave]
    split_ifs <;> exact .of_eq rfl rfl rfl
  | _ =>
    obtain rfl := Option.some.inj h
    exact .of_eq rfl rfl rfl

end PeerState

namespace PeerConnection

variable {c c' : PeerConnection} {fuel : ℕ} {call : PexCall}

theorem keeps_receiveMessageNonBlocking {msg : PeerMessage}
    {out : Bool × PeerConnection × PeerMessage}
    (h : c.receiveMessageNonBlocking fuel msg = some out) :
    c.toPeerState.Keeps out.2.1.toPeerState := by
  rcases receiveMessageNonBlocking_hears c h with ⟨-, hsame⟩ | ⟨-, fuel', hupdate⟩
  · rw [hsame]
    exact .of_eq rfl rfl rfl
  · exact PeerState.keeps_update hupdate

theorem keeps_sendMessage (c : PeerConnection) (msg : PeerMessage) (sent : Bool) :
    c.toPeerState.Keeps (c.sendMessage msg sent).2.toPeerState := by
  rw [sendMessage_state]
  exact .of_eq rfl rfl rfl

theorem keeps_sendUnchoke (c : PeerConnection) (sent : Bool) :
    c.toPeerState.Keeps (c.sendUnchoke sent).2.toPeerState := by
  have hkeeps := { c with amChoking := false }.keeps_sendMessage .createUnchoke sent
  exact ⟨hkeeps.ip, hkeeps.port, fun hkept => hkeeps.kept
    ⟨hkept.length_le, hkept.nodup, hkept.port_ne, hkept.foreign⟩⟩

theorem keeps_performHandshake (c : PeerConnection) (s : Socket) (net : Network) :
    c.toPeerState.Keeps (c.performHandshake s net).2.toPeerState := by
  rw [performHandshake]
  split_ifs
  · dsimp only [Socket.recvAll]
    split_ifs
    · dsimp only
      split_ifs
      · rw [greet_state]
        exact .of_eq rfl rfl rfl
      · exact .of_eq rfl rfl rfl
    · exact .of_eq rfl rfl rfl
  · exact .of_eq rfl rfl rfl

theorem keeps_connect (c : PeerConnection) (net : Network) :
    c.toPeerState.Keeps (c.connect net).2.toPeerState := by
  rw [connect]
  split_ifs
  · exact .of_eq rfl rfl rfl
  · have hkeeps := c.keeps_performHandshake { incoming := net.incoming } net
    rcases hout : c.performHandshake { incoming := net.incoming } net with ⟨ok, c'⟩
    rw [hout] at hkeeps
    cases ok <;> exact hkeeps
  · exact .of_eq rfl rfl rfl

theorem keeps_takeDiscoveredPeers (c : PeerConnection) :
    c.toPeerState.Keeps c.takeDiscoveredPeers.2.toPeerState :=
  ⟨rfl, rfl, fun _ => PeerState.kept_nil _⟩

theorem keeps_pexCall (h : c.pexCall fuel call = some c') :
    c.toPeerState.Keeps c'.toPeerState := by
  cases call with
  | takeDiscoveredPeers =>
    obtain rfl := Option.some.inj h
    exact c.keeps_takeDiscoveredPeers
  | processExtendedMessage payload =>
    obtain ⟨state, hstate, rfl⟩ := Option.map_eq_some_iff.1 h
    exact PeerState.keeps_processExtendedMessage hstate

end PeerConnection

/-! ### Histories that grow -/

variable {calls : List PexCall} {call : PexCall} {payload : Bytes} {mapping : BencodeDict}
  {peer : Peer} {c c' : PeerConnection} {fuel fuel' : ℕ}

/-- A call that is no handshake leaves the negotiation as it is. -/
theorem negotiated_append (h : ∀ payload, call = .processExtendedMessage payload →
    ¬ ∃ mapping, Handshake payload mapping) : Negotiated (calls ++ [call]) ↔ Negotiated calls := by
  constructor
  · rintro ⟨pre, payload, mapping, post, heq, hshake, hoffer, hlast⟩
    rcases Run.append_singleton_eq heq with ⟨-, -, hcall⟩ | ⟨post', rfl, hcalls⟩
    · exact absurd ⟨mapping, hshake⟩ (h payload hcall)
    · exact ⟨pre, payload, mapping, post', hcalls, hshake, hoffer, fun payload' hmem =>
        hlast payload' (List.mem_append_left _ hmem)⟩
  · rintro ⟨pre, payload, mapping, post, rfl, hshake, hoffer, hlast⟩
    refine ⟨pre, payload, mapping, post ++ [call], by simp, hshake, hoffer, fun payload' hmem => ?_⟩
    rcases List.mem_append.1 hmem with hmem | hmem
    · exact hlast payload' hmem
    · exact h payload' (List.mem_singleton.1 hmem).symm

theorem handshake_unique {mapping' : BencodeDict} (h : Handshake payload mapping)
    (h' : Handshake payload mapping') : mapping = mapping' := by
  obtain ⟨value, hdict, hget⟩ := h
  obtain ⟨value', hdict', hget'⟩ := h'
  obtain ⟨-, rfl⟩ := PeerState.hasDict_unique hdict hdict'
  rw [hget] at hget'
  simpa using hget'

/-- After a handshake it decides. -/
theorem negotiated_append_handshake (h : Handshake payload mapping) :
    Negotiated (calls ++ [.processExtendedMessage payload]) ↔ OffersPex mapping := by
  constructor
  · rintro ⟨pre, payload', mapping', post, heq, hshake, hoffer, hlast⟩
    rcases Run.append_singleton_eq heq with ⟨-, -, hcall⟩ | ⟨post', rfl, -⟩
    · cases hcall
      rwa [handshake_unique h hshake]
    · exact absurd ⟨mapping, h⟩ (hlast payload (by simp))
  · intro hoffer
    exact ⟨calls, payload, mapping, [], rfl, h, hoffer, by simp⟩

/-- What has been announced stays announced until the peers are taken. -/
theorem announced_append (h : Announced calls peer) (hcall : call ≠ .takeDiscoveredPeers) :
    Announced (calls ++ [call]) peer := by
  obtain ⟨pre, payload, value, compact, post, rfl, hdict, hadded, hmem, hneg, hpost⟩ := h
  refine ⟨pre, payload, value, compact, post ++ [call], by simp, hdict, hadded, hmem, hneg, ?_⟩
  simpa [hpost] using hcall.symm

/-! ### Runs -/

theorem malformed_unchanged {c c' : PeerState}
    (h : c.processExtendedMessage fuel payload = some c')
    (hdict : ¬ ∃ extensionId value, HasDict payload extensionId value) :
    c'.peerSupportsPex = c.peerSupportsPex ∧ c'.discoveredPeers = c.discoveredPeers := by
  cases PeerState.effect_processExtendedMessage h with
  | handshake mapping pex hshake => exact absurd ⟨mapping, hshake⟩ (PeerState.not_handshake hdict)
  | pex value compact hvalue => exact absurd ⟨1, value, hvalue⟩ hdict
  | none => exact ⟨rfl, rfl⟩

/-- One call keeps the tie between the list and the history. -/
theorem discovered_step (h : Discovered calls c.toPeerState) (hcall : c.pexCall fuel call = some c') :
    Discovered (calls ++ [call]) c'.toPeerState := by
  have hkept := (PeerConnection.keeps_pexCall hcall).kept h.kept
  cases call with
  | takeDiscoveredPeers =>
    obtain rfl := Option.some.inj hcall
    refine ⟨hkept, fun peer hpeer => absurd hpeer List.not_mem_nil, ?_,
      fun _ _ _ => malformed_unchanged⟩
    rw [negotiated_append fun _ heq => by cases heq]
    exact h.negotiated
  | processExtendedMessage payload =>
    obtain ⟨state, hstate, rfl⟩ := Option.map_eq_some_iff.1 hcall
    have hold : ∀ peer ∈ c.discoveredPeers,
        Announced (calls ++ [.processExtendedMessage payload]) peer := fun peer hpeer =>
      announced_append (h.announced peer hpeer) fun heq => by cases heq
    cases PeerState.effect_processExtendedMessage hstate with
    | handshake mapping pex hshake hpex =>
      refine ⟨hkept, hold, ?_, fun _ _ _ => malformed_unchanged⟩
      rw [negotiated_append_handshake hshake]
      exact hpex
    | pex value compact hvalue hadded hpex =>
      refine ⟨hkept, fun peer hpeer => ?_, ?_, fun _ _ _ => malformed_unchanged⟩
      · rcases PeerState.mem_discovers hpeer with hmem | hmem
        · exact hold peer hmem
        · exact ⟨calls, payload, value, compact, [], rfl, hvalue, hadded, hmem, h.negotiated.1 hpex,
            List.not_mem_nil⟩
      · rw [negotiated_append fun payload' heq => ?_]
        · exact h.negotiated
        · cases heq
          rintro ⟨mapping, value', hdict, -⟩
          exact absurd (PeerState.hasDict_unique hvalue hdict).1 (by decide)
    | none hshake =>
      refine ⟨hkept, hold, ?_, fun _ _ _ => malformed_unchanged⟩
      rw [negotiated_append fun payload' heq => ?_]
      · exact h.negotiated
      · cases heq
        exact hshake

theorem pexCall_mono (hle : fuel ≤ fuel') (h : c.pexCall fuel call = some c') :
    c.pexCall fuel' call = some c' := by
  cases call with
  | takeDiscoveredPeers => exact h
  | processExtendedMessage payload =>
    obtain ⟨state, hstate, rfl⟩ := Option.map_eq_some_iff.1 h
    exact Option.map_eq_some_iff.2
      ⟨state, PeerState.processExtendedMessage_mono hle hstate, rfl⟩

theorem exists_pexCall (c : PeerConnection) (call : PexCall)
    (h : ∀ payload, call = .processExtendedMessage payload → Ends payload) :
    ∃ fuel c', c.pexCall fuel call = some c' := by
  cases call with
  | takeDiscoveredPeers => exact ⟨0, _, rfl⟩
  | processExtendedMessage payload =>
    obtain ⟨fuel, state, hstate⟩ := PeerState.exists_processExtendedMessage c.toPeerState (h payload rfl)
    exact ⟨fuel, _, Option.map_eq_some_iff.2 ⟨state, hstate, rfl⟩⟩

theorem pexRun_append : c.pexRun fuel (calls ++ [call]) =
    (c.pexRun fuel calls).bind fun c => c.pexCall fuel call := by
  simp [PeerConnection.pexRun]

theorem discovered_init (ip : Bytes) (port : UInt16) (torrent : TorrentInfo) (peerId : Bytes) :
    Discovered [] { ip, port, torrent, peerId } := by
  refine ⟨PeerState.kept_nil _, fun peer hpeer => absurd hpeer List.not_mem_nil, ?_,
    fun _ _ _ => malformed_unchanged⟩
  simp [Negotiated]

/-- Payloads on which the parser ends lead a new connection to a state whose discovered peers are
within the bounds and come from the PEX messages of the history. -/
theorem pex_discovered (ip : Bytes) (port : UInt16) (torrent : TorrentInfo) (peerId : Bytes)
    (calls : List PexCall)
    (hends : ∀ payload, .processExtendedMessage payload ∈ calls → Ends payload) :
    ∃ c : PeerConnection, (∃ fuel, ∀ fuel' ≥ fuel,
        PeerConnection.pexRun fuel' { ip, port, torrent, peerId } calls = some c) ∧
      c.ip = ip ∧ c.port = port ∧ Discovered calls c.toPeerState := by
  induction calls using List.reverseRecOn with
  | nil => exact ⟨_, ⟨0, fun _ _ => rfl⟩, rfl, rfl, discovered_init ip port torrent peerId⟩
  | append_singleton calls call ih =>
    obtain ⟨c, ⟨fuel, hrun⟩, hip, hport, hc⟩ := ih fun payload hmem =>
      hends payload (List.mem_append_left _ hmem)
    obtain ⟨fuel₁, c', hcall⟩ := exists_pexCall c call fun payload heq =>
      hends payload (by simp [heq])
    have hkeeps := PeerConnection.keeps_pexCall hcall
    refine ⟨c', ⟨max fuel fuel₁, fun fuel' hle => ?_⟩, hkeeps.ip.trans hip,
      hkeeps.port.trans hport, discovered_step hc hcall⟩
    rw [pexRun_append, hrun fuel' (le_of_max_le_left hle), Option.bind_some]
    exact pexCall_mono (le_of_max_le_right hle) hcall

/-- A handshake that offers `ut_pex`, and a message with one peer. -/
theorem pex_discovered_one :
    ∃ c : PeerConnection, (∃ fuel, ∀ fuel' ≥ fuel,
        PeerConnection.pexRun fuel' { ip := [], port := 0, torrent := {}, peerId := [] }
          [.processExtendedMessage (0 :: ascii "d1:md6:ut_pexi1eee"),
            .processExtendedMessage (1 :: ascii "d5:added6:abcdeee")] = some c) ∧
      c.ip = [] ∧ c.port = 0 ∧
      Discovered [.processExtendedMessage (0 :: ascii "d1:md6:ut_pexi1eee"),
        .processExtendedMessage (1 :: ascii "d5:added6:abcdeee")] c.toPeerState := by
  refine pex_discovered [] 0 {} [] _ fun payload hpayload => ?_
  rcases List.mem_cons.1 hpayload with heq | hpayload
  · cases heq
    exact ⟨_, 5, rfl⟩
  · cases List.mem_singleton.1 hpayload
    exact ⟨_, 5, rfl⟩

end Gush.Wire
