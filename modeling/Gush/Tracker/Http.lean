import Gush.Tracker.Peers
import Gush.Utils.Encoding

/-!
# Announcing to a tracker

`contactTracker`: the announce over HTTP, and over UDP for a URL that says so. What the network does
is a part of the environment: the transfer is a function of the request URL, and its answer is parsed
as bencode, so contacting takes fuel.

`peers_of_contactTracker` says where a peer with the port zero can come from: of the formats, only the
compact one over HTTP lets it through.
-/

namespace Gush

open Cxx Bencode

/-- `e.what()`. -/
def Exn.what : Exn → Bytes
  | .runtimeError what => what
  | .invalidArgument what => what
  | .outOfRange what => what

namespace Tracker

/-- The arguments of `contactTracker`. -/
structure Announce where
  trackerUrl : Bytes
  torrent : TorrentInfo
  peerId : Bytes
  downloaded : ℤ := 0
  uploaded : ℤ := 0
  left : ℤ := 0
  event : Bytes := []

/-- What becomes of a transfer. -/
inductive Transfer
  | failed (error : Bytes)
  | answered (httpCode : ℤ) (responseData : Bytes)

/-- What `contactTracker` depends on: the network of a UDP tracker, the transfers by CURL, and what
the unassigned ports of `parsePeers` hold. -/
structure Environment where
  net : Network
  initializes : Bool := true
  transfer : Bytes → Transfer
  unassigned : ℕ → UInt16

namespace Announce

variable (a : Announce)

/-- The URL of the request. -/
def requestUrl : Bytes :=
  a.trackerUrl ++ (if '?'.toUInt8 ∈ a.trackerUrl then ascii "&" else ascii "?") ++
    ascii "info_hash=" ++ Utils.urlEncode (rawInfoHash a.torrent) ++
    ascii "&peer_id=" ++ Utils.urlEncode a.peerId ++ ascii "&port=6881" ++
    ascii "&uploaded=" ++ showInt a.uploaded ++ ascii "&downloaded=" ++ showInt a.downloaded ++
    ascii "&left=" ++ showInt a.left ++ ascii "&compact=1" ++ ascii "&numwant=500" ++
    (if a.event ≠ [] then ascii "&event=" ++ Utils.urlEncode a.event else [])

def isUdp : Bool := substr a.trackerUrl 0 6 = ascii "udp://"

/-- The request: the body of the answer, or the failure that is reported. -/
def request (env : Environment) : Except Bytes Bytes :=
  if (rawInfoHash a.torrent).length ≠ 20 ∨ a.peerId.length ≠ 20 then
    .error (ascii "Invalid info hash or peer ID")
  else if env.initializes = false then .error (ascii "Failed to initialize CURL")
  else
    match env.transfer a.requestUrl with
    | .failed error => .error (ascii "Tracker request failed: " ++ error)
    | .answered httpCode responseData =>
      if httpCode ≠ 200 then .error (ascii "HTTP error: " ++ showInt httpCode) else .ok responseData

end Announce

/-- The response that `contactTracker` starts from. -/
def initialResponse : TrackerResponse := { interval := 1800, minInterval := 900 }

/-- Reads a dictionary. -/
def readResponse (unassigned : ℕ → UInt16) (dict : BencodeDict) : TrackerResponse :=
  match dictGetString dict (ascii "failure reason") with
  | some failure => { initialResponse with failure }
  | none =>
    { warning := (dictGetString dict (ascii "warning message")).getD []
      interval := ((dictGetInt dict (ascii "interval")).map int32).getD 1800
      minInterval := ((dictGetInt dict (ascii "min interval")).map int32).getD 900
      complete := (dictGetInt dict (ascii "complete")).getD 0
      incomplete := (dictGetInt dict (ascii "incomplete")).getD 0
      peers :=
        match dictGet dict (ascii "peers") with
        | some (.str compact) => parseCompactPeers compact
        | some (.list items) => parsePeers unassigned (.list items)
        | _ => [] }

/-- Reads the body of an answer. -/
def parseResponse (fuel : ℕ) (unassigned : ℕ → UInt16) (responseData : Bytes) :
    Option TrackerResponse :=
  match parseImpl fuel responseData 0 with
  | none => none
  | some (.error e) =>
    some { initialResponse with failure := ascii "Failed to parse tracker response: " ++ e.what }
  | some (.ok (.dict dict, _)) => some (readResponse unassigned dict)
  | some (.ok _) =>
    some { initialResponse with failure := ascii "Invalid tracker response: not a dictionary" }

def contactTracker (fuel : ℕ) (env : Environment) (a : Announce) : Option TrackerResponse :=
  if a.isUdp then
    some (contactUdpTracker a.trackerUrl a.torrent a.peerId a.downloaded a.uploaded a.left env.net).1
  else
    match a.request env with
    | .error failure => some { initialResponse with failure }
    | .ok responseData => parseResponse fuel env.unassigned responseData

/-! ### Ports -/

/-- A record of a compact string has the port zero. -/
def HasZeroPort (compact : Bytes) : Prop :=
  ∃ k, 6 * k + 6 ≤ compact.length ∧ compact.getD (6 * k + 4) 0 = 0 ∧ compact.getD (6 * k + 5) 0 = 0

/-- The answer of an HTTP tracker gives the peers as a compact string. -/
def AnswersCompact (fuel : ℕ) (env : Environment) (a : Announce) (compact : Bytes) : Prop :=
  a.isUdp = false ∧ ∃ responseData dict p, a.request env = .ok responseData ∧
    parseImpl fuel responseData 0 = some (.ok (.dict dict, p)) ∧
    dictGetString dict (ascii "failure reason") = none ∧
    dictGet dict (ascii "peers") = some (.str compact)

theorem port_eq_zero_iff (hi lo : UInt8) :
    ((hi.toUInt16 <<< 8) ||| lo.toUInt16) = 0 ↔ hi = 0 ∧ lo = 0 := by
  rw [← UInt16.toNat_inj, port_of_bytes, ← UInt8.toNat_inj, ← UInt8.toNat_inj]
  simp only [UInt16.toNat_zero, UInt8.toNat_zero]
  omega

/-- A compact string has a zero port in its first record or behind it. -/
theorem hasZeroPort_cons (a b c d hi lo : UInt8) (rest : Bytes) :
    HasZeroPort (a :: b :: c :: d :: hi :: lo :: rest) ↔ (hi = 0 ∧ lo = 0) ∨ HasZeroPort rest := by
  constructor
  · rintro ⟨_ | k, hlen, hhi, hlo⟩
    · exact .inl ⟨hhi, hlo⟩
    · refine .inr ⟨k, ?_, hhi, hlo⟩
      simp only [List.length_cons] at hlen
      omega
  · rintro (⟨rfl, rfl⟩ | ⟨k, hlen, hhi, hlo⟩)
    · exact ⟨0, by simp, rfl, rfl⟩
    · refine ⟨k + 1, ?_, hhi, hlo⟩
      simp only [List.length_cons]
      omega

/-- `parseCompactPeers` lets a zero port through. -/
theorem exists_port_zero_iff (compact : Bytes) :
    (∃ peer ∈ parseCompactPeers compact, peer.port = 0) ↔ HasZeroPort compact := by
  fun_induction parseCompactPeers compact with
  | case1 a b c d hi lo rest ih =>
    rw [hasZeroPort_cons, ← ih, ← port_eq_zero_iff]
    simp
  | case2 compact hshort =>
    have hlen : compact.length < 6 := by
      by_contra hlong
      match compact with
      | a :: b :: c :: d :: hi :: lo :: rest => exact hshort a b c d hi lo rest rfl
      | [] | [_] | [_, _] | [_, _, _] | [_, _, _, _] | [_, _, _, _, _] => simp at hlong
    simp only [List.not_mem_nil, false_and, exists_false, false_iff]
    rintro ⟨k, hle, -⟩
    omega

theorem port_ne_zero_of_mem_decodePeers {data : Bytes} {peer : Peer} (h : peer ∈ decodePeers data) :
    peer.port ≠ 0 := by
  obtain ⟨records, junk, hjunk, rfl⟩ := exists_records data
  rw [decodePeers_records records hjunk, usablePeers] at h
  obtain ⟨r, hr, rfl⟩ := List.mem_map.1 h
  simpa using (List.mem_filter.1 hr).2

theorem port_ne_zero_of_mem_parsePeers {unassigned : ℕ → UInt16} {v : BencodeValue} {peer : Peer}
    (h : peer ∈ parsePeers unassigned v) : peer.port ≠ 0 := by
  cases v with
  | list items =>
    obtain ⟨⟨item, i⟩, -, hpeer⟩ := List.mem_filterMap.1 h
    cases item with
    | dict peerDict =>
      simp only [parsePeer] at hpeer
      split_ifs at hpeer with hok
      cases hpeer
      exact UInt16.pos_iff_ne_zero.1 hok.2
    | _ => cases hpeer
  | _ => cases h

/-- A UDP announce fails, or its answer is what the second reception reads. -/
theorem contactUdpTracker_cases (trackerUrl : Bytes) (torrent : TorrentInfo) (peerId : Bytes)
    (downloaded uploaded left : ℤ) (net : Network) :
    (∃ what, (contactUdpTracker trackerUrl torrent peerId downloaded uploaded left net).1 =
      failed what) ∨
    ∃ queue, (contactUdpTracker trackerUrl torrent peerId downloaded uploaded left net).1 =
      receivePeers net queue := by
  unfold contactUdpTracker
  dsimp only
  split
  · exact .inl ⟨_, rfl⟩
  split
  · exact .inl ⟨_, rfl⟩
  split
  · exact .inl ⟨_, rfl⟩
  split
  · exact .inl ⟨_, rfl⟩
  split
  · exact .inl ⟨_, rfl⟩
  split
  · exact .inl ⟨_, rfl⟩
  split
  · exact .inl ⟨_, rfl⟩
  split
  · exact .inl ⟨_, rfl⟩
  split
  · exact .inl ⟨_, rfl⟩
  · exact .inr ⟨_, rfl⟩

theorem port_ne_zero_of_mem_contactUdpTracker {trackerUrl : Bytes} {torrent : TorrentInfo}
    {peerId : Bytes} {downloaded uploaded left : ℤ} {net : Network} {peer : Peer}
    (h : peer ∈ (contactUdpTracker trackerUrl torrent peerId downloaded uploaded left net).1.peers) :
    peer.port ≠ 0 := by
  rcases contactUdpTracker_cases trackerUrl torrent peerId downloaded uploaded left net with
    ⟨what, heq⟩ | ⟨queue, heq⟩
  · rw [heq] at h
    cases h
  · rw [heq, receivePeers] at h
    split at h
    · cases h
    · split_ifs at h
      · cases h
      · cases h
      · exact port_ne_zero_of_mem_decodePeers h

/-- The peers that are read from a dictionary: a list of dictionaries gives none with the port zero. -/
theorem peers_of_readResponse {unassigned : ℕ → UInt16} {dict : BencodeDict} {peer : Peer}
    (h : peer ∈ (readResponse unassigned dict).peers) :
    peer.port ≠ 0 ∨ ∃ compact, dictGetString dict (ascii "failure reason") = none ∧
      dictGet dict (ascii "peers") = some (.str compact) ∧ peer ∈ parseCompactPeers compact := by
  rw [readResponse] at h
  cases hfailure : dictGetString dict (ascii "failure reason") with
  | some failure =>
    rw [hfailure] at h
    cases h
  | none =>
    rw [hfailure] at h
    dsimp only at h
    rcases hpeers : dictGet dict (ascii "peers") with - | _ | compact | items | _ <;>
      rw [hpeers] at h
    · cases h
    · cases h
    · exact .inr ⟨compact, rfl, rfl, h⟩
    · exact .inl (port_ne_zero_of_mem_parsePeers h)
    · cases h

/-- Only a dictionary gives peers. -/
theorem dict_of_parseResponse {fuel : ℕ} {unassigned : ℕ → UInt16} {responseData : Bytes}
    {response : TrackerResponse} (h : parseResponse fuel unassigned responseData = some response)
    {peer : Peer} (hpeer : peer ∈ response.peers) :
    ∃ dict p, parseImpl fuel responseData 0 = some (.ok (.dict dict, p)) ∧
      response = readResponse unassigned dict := by
  rw [parseResponse] at h
  rcases hparse : parseImpl fuel responseData 0 with - | e | ⟨_ | _ | _ | dict, p⟩ <;>
    rw [hparse] at h
  · cases h
  · obtain rfl := Option.some.inj h
    cases hpeer
  · obtain rfl := Option.some.inj h
    cases hpeer
  · obtain rfl := Option.some.inj h
    cases hpeer
  · obtain rfl := Option.some.inj h
    cases hpeer
  · exact ⟨dict, p, rfl, (Option.some.inj h).symm⟩

/-- What a response with peers over HTTP comes from. -/
theorem peers_of_contactTracker {fuel : ℕ} {env : Environment} {a : Announce}
    {response : TrackerResponse} (h : contactTracker fuel env a = some response) {peer : Peer}
    (hpeer : peer ∈ response.peers) :
    peer.port ≠ 0 ∨
      ∃ compact, AnswersCompact fuel env a compact ∧ peer ∈ parseCompactPeers compact := by
  rw [contactTracker] at h
  by_cases hudp : a.isUdp = true
  · rw [if_pos hudp] at h
    obtain rfl := Option.some.inj h
    exact .inl (port_ne_zero_of_mem_contactUdpTracker hpeer)
  rw [if_neg hudp] at h
  cases hrequest : a.request env with
  | error failure =>
    rw [hrequest] at h
    obtain rfl := Option.some.inj h
    cases hpeer
  | ok responseData =>
    rw [hrequest] at h
    obtain ⟨dict, p, hparse, rfl⟩ := dict_of_parseResponse h hpeer
    rcases peers_of_readResponse hpeer with hne | ⟨compact, hfailure, hpeers, hmem⟩
    · exact .inl hne
    · exact .inr ⟨compact, ⟨by simpa using hudp, responseData, dict, p, hrequest, hparse,
        hfailure, hpeers⟩, hmem⟩

/-- A compact answer over HTTP is a success with the peers of the string. -/
theorem contactTracker_of_answersCompact {fuel : ℕ} {env : Environment} {a : Announce}
    {compact : Bytes} (h : AnswersCompact fuel env a compact) :
    ∃ response, contactTracker fuel env a = some response ∧ response.ok ∧
      response.peers = parseCompactPeers compact := by
  obtain ⟨hudp, responseData, dict, p, hrequest, hparse, hfailure, hpeers⟩ := h
  refine ⟨readResponse env.unassigned dict, ?_, ?_⟩
  · simp [contactTracker, hudp, hrequest, parseResponse, hparse]
  · simp [readResponse, hfailure, hpeers, TrackerResponse.ok]

end Tracker

end Gush
