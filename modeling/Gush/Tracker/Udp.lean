import Gush.Lib.BigEndian
import Gush.Torrent.Info

/-!
# Announcing to a UDP tracker

`contactUdpTracker` with the socket it talks to. The socket is a queue of datagrams, and a call of
`recv` consumes one of them whole: what does not fit into the buffer is discarded.

`contactUdpTracker_peers_iff` says when the answer is the list of peers that the tracker announced.
-/

namespace Gush

open Cxx

namespace Utils

/-- The value of a hexadecimal digit. -/
def hexValue (c : UInt8) : Option ℕ :=
  if 48 ≤ c.toNat ∧ c.toNat ≤ 57 then some (c.toNat - 48)
  else if 65 ≤ c.toNat ∧ c.toNat ≤ 70 then some (c.toNat - 55)
  else if 97 ≤ c.toNat ∧ c.toNat ≤ 102 then some (c.toNat - 87)
  else none

/-- The loop of `fromHex`; `none` stands for its early return. -/
def fromHexLoop : Bytes → Option Bytes
  | c1 :: c2 :: rest =>
    match hexValue c1, hexValue c2 with
    | some h, some l => (fromHexLoop rest).map (UInt8.ofNat (16 * h + l) :: ·)
    | _, _ => none
  | _ => some []

def fromHex (hex : Bytes) : Bytes :=
  if hex.length < 2 ∨ hex.length % 2 ≠ 0 then [] else (fromHexLoop hex).getD []

end Utils

/-- `Peer`. -/
structure Peer where
  ip : Bytes
  port : UInt16
  peerId : Bytes := []
  deriving DecidableEq

/-- `TrackerResponse`. -/
structure TrackerResponse where
  interval : ℤ := 0
  minInterval : ℤ := 0
  /-- Seeders. -/
  complete : ℤ := 0
  /-- Leechers. -/
  incomplete : ℤ := 0
  warning : Bytes := []
  failure : Bytes := []
  peers : List Peer := []
  deriving DecidableEq

/-- `resp.ok()`. -/
def TrackerResponse.ok (resp : TrackerResponse) : Prop := resp.failure = []

instance (resp : TrackerResponse) : Decidable resp.ok := inferInstanceAs (Decidable (_ = _))

namespace Tracker

/-- The raw info hash, given raw or in hexadecimal. -/
def rawInfoHash (torrent : TorrentInfo) : Bytes :=
  if torrent.infoHash.length = 40 ∧ (Utils.fromHex torrent.infoHash).length = 20 then
    Utils.fromHex torrent.infoHash
  else if torrent.infoHash.length = 20 then torrent.infoHash
  else Utils.fromHex torrent.infoHash

/-- `parseUdpUrl`, with the host and the port it sets when it succeeds. -/
def parseUdpUrl (url : Bytes) : Option (Bytes × UInt16) :=
  if substr url 0 6 ≠ ascii "udp://" then none
  else
    match find url ':'.toUInt8 6 with
    | none => none
    | some portStart =>
      let host := substr url 6 (portStart - 6)
      let portStr :=
        match find url '/'.toUInt8 (portStart + 1) with
        | none => url.drop (portStart + 1)
        | some pathStart => substr url (portStart + 1) (pathStart - portStart - 1)
      match stoi portStr with
      | .error _ => none
      | .ok n => some (host, UInt16.ofInt n)

/-- The narrowing of a port. -/
theorem toNat_ofInt (port : ℤ) : ((UInt16.ofInt port).toNat : ℤ) = port % 65536 := by
  rw [UInt16.ofInt, UInt16.toNat_ofNat']
  omega

/-- A dotted address. -/
def dotted (a b c d : UInt8) : Bytes :=
  Decimal.numeral a.toNat ++ '.'.toUInt8 :: Decimal.numeral b.toNat ++
    '.'.toUInt8 :: Decimal.numeral c.toNat ++ '.'.toUInt8 :: Decimal.numeral d.toNat

/-- `parseCompactPeers`: six bytes for each peer. -/
def parseCompactPeers : Bytes → List Peer
  | a :: b :: c :: d :: hi :: lo :: rest =>
    { ip := dotted a b c d, port := (hi.toUInt16 <<< 8) ||| lo.toUInt16 } :: parseCompactPeers rest
  | _ => []

/-- The loop over the peer records; a peer with port zero is dropped. -/
def decodePeers : Bytes → List Peer
  | a :: b :: c :: d :: hi :: lo :: rest =>
    let peer : Peer := { ip := dotted a b c d, port := (hi.toUInt16 <<< 8) ||| lo.toUInt16 }
    if peer.port > 0 then peer :: decodePeers rest else decodePeers rest
  | _ => []

/-- `CONNECTION_ID`. -/
def connectionIdMagic : ℕ := 0x41727101980

def connectRequest (transactionId : UInt32) : Bytes :=
  BigEndian.encode 8 connectionIdMagic ++ BigEndian.encode 4 0 ++
    BigEndian.encode 4 transactionId.toNat

/-- The low 64 bits of a signed number, in network byte order. -/
def be64 (x : ℤ) : Bytes := BigEndian.encode 8 (x % 2 ^ 64).toNat

def announceRequest (connectionId : Bytes) (transactionId key : UInt32) (infoHash peerId : Bytes)
    (downloaded uploaded left : ℤ) : Bytes :=
  connectionId ++ BigEndian.encode 4 1 ++ BigEndian.encode 4 transactionId.toNat ++ infoHash ++
    peerId ++ be64 downloaded ++ be64 left ++ be64 uploaded ++ BigEndian.encode 4 0 ++
    BigEndian.encode 4 0 ++ BigEndian.encode 4 key.toNat ++ BigEndian.encode 4 200 ++
    BigEndian.encode 2 6881

/-- `recv` on a datagram socket: `none` if nothing comes. -/
def recv (queue : List Bytes) (size : ℕ) : Option Bytes × List Bytes :=
  match queue with
  | [] => (none, [])
  | datagram :: queue => (some (datagram.take size), queue)

/-- What the network and the random device do during one announce: the outcomes of the calls, and
the datagrams that reach the socket before each of the three receptions. -/
structure Network where
  resolves : Bytes → Bytes → Bool
  opensSocket : Bool := true
  transactionId : UInt32
  key : UInt32
  sendsConnect : Bool := true
  beforeConnect : List Bytes
  sendsAnnounce : Bool := true
  beforeAnnounce : List Bytes
  beforePeers : List Bytes

/-- The 32-bit field at an offset of a packed structure. -/
def field32 (packet : Bytes) (offset : ℕ) : ℕ := BigEndian.decode ((packet.drop offset).take 4)

def failed (what : String) : TrackerResponse := { interval := 1800, failure := ascii what }

/-- The end of `contactUdpTracker`, from the second reception on. -/
def receivePeers (net : Network) (queue : List Bytes) : TrackerResponse :=
  match recv (queue ++ net.beforeAnnounce) 20 with
  | (none, _) => failed "Failed to receive announce response"
  | (some announceResp, queue) =>
    if announceResp.length ≠ 20 then failed "Failed to receive announce response"
    else if field32 announceResp 0 ≠ 1 ∨ field32 announceResp 4 ≠ net.transactionId.toNat then
      failed "Invalid announce response"
    else
      let peerData := (recv (queue ++ net.beforePeers) 1200).1.getD []
      { interval := int32 (field32 announceResp 8)
        incomplete := field32 announceResp 12
        complete := field32 announceResp 16
        peers := decodePeers peerData }

/-- `contactUdpTracker`, with the datagrams that it sends. -/
def contactUdpTracker (trackerUrl : Bytes) (torrent : TorrentInfo) (peerId : Bytes)
    (downloaded uploaded left : ℤ) (net : Network) : TrackerResponse × List Bytes :=
  match parseUdpUrl trackerUrl with
  | none => (failed "Invalid UDP tracker URL", [])
  | some (host, port) =>
    if net.resolves host (Decimal.numeral port.toNat) = false then
      (failed "Failed to resolve tracker hostname", [])
    else if net.opensSocket = false then (failed "Failed to create socket", [])
    else
      let connectReq := connectRequest net.transactionId
      if net.sendsConnect = false then (failed "Failed to send connect request", [])
      else
        match recv net.beforeConnect 16 with
        | (none, _) => (failed "Failed to receive connect response", [connectReq])
        | (some connectResp, queue) =>
          if connectResp.length ≠ 16 then
            (failed "Failed to receive connect response", [connectReq])
          else if field32 connectResp 0 ≠ 0 ∨ field32 connectResp 4 ≠ net.transactionId.toNat then
            (failed "Invalid connect response", [connectReq])
          else if (rawInfoHash torrent).length ≠ 20 ∨ peerId.length ≠ 20 then
            (failed "Invalid info hash or peer ID", [connectReq])
          else
            let announceReq := announceRequest (connectResp.drop 8) net.transactionId net.key
              (rawInfoHash torrent) peerId downloaded uploaded left
            if net.sendsAnnounce = false then (failed "Failed to send announce", [connectReq])
            else (receivePeers net queue, [connectReq, announceReq])

/-! ### Peer records -/

/-- A record of the compact format. -/
structure PeerRecord where
  a : UInt8
  b : UInt8
  c : UInt8
  d : UInt8
  port : UInt16

def PeerRecord.encode (r : PeerRecord) : Bytes :=
  [r.a, r.b, r.c, r.d] ++ BigEndian.encode 2 r.port.toNat

/-- The peers that a client can connect to: those with a port. -/
def usablePeers (records : List PeerRecord) : List Peer :=
  (records.filter fun r => r.port ≠ 0).map fun r => { ip := dotted r.a r.b r.c r.d, port := r.port }

/-- A port is put together from its two bytes. -/
theorem port_of_bytes (hi lo : UInt8) :
    ((hi.toUInt16 <<< 8) ||| lo.toUInt16).toNat = 256 * hi.toNat + lo.toNat := by
  have hlo := lo.toNat_lt
  have hhi := hi.toNat_lt
  have hshift : (hi.toUInt16 <<< 8).toNat = hi.toNat <<< 8 := by
    rw [UInt16.toNat_shiftLeft, UInt8.toNat_toUInt16, Nat.mod_eq_of_lt]
    · rfl
    · have hpow : 2 ^ (UInt16.toNat 8 % 16) = 256 := by decide
      rw [Nat.shiftLeft_eq, hpow]
      omega
  rw [UInt16.toNat_or, hshift, UInt8.toNat_toUInt16, ← Nat.shiftLeft_add_eq_or_of_lt hlo,
    Nat.shiftLeft_eq]
  omega

theorem decodePeers_cons (r : PeerRecord) (rest : Bytes) :
    decodePeers (r.encode ++ rest) = if r.port ≠ 0 then
      { ip := dotted r.a r.b r.c r.d, port := r.port } :: decodePeers rest else decodePeers rest := by
  have hport : ((UInt8.ofNat (r.port.toNat / 256)).toUInt16 <<< 8) |||
      (UInt8.ofNat r.port.toNat).toUInt16 = r.port := by
    apply UInt16.toNat_inj.1
    have hlt := r.port.toNat_lt
    rw [port_of_bytes, UInt8.toNat_ofNat', UInt8.toNat_ofNat']
    omega
  have hencode : r.encode ++ rest = r.a :: r.b :: r.c :: r.d ::
      UInt8.ofNat (r.port.toNat / 256) :: UInt8.ofNat r.port.toNat :: rest := by
    simp [PeerRecord.encode, BigEndian.encode]
  rw [hencode, decodePeers]
  simp only [hport, gt_iff_lt, UInt16.pos_iff_ne_zero]

/-- The loop reads off the records and ignores a rest that is shorter than one. -/
theorem decodePeers_records (records : List PeerRecord) {junk : Bytes} (h : junk.length < 6) :
    decodePeers (records.flatMap PeerRecord.encode ++ junk) = usablePeers records := by
  induction records with
  | nil =>
    show decodePeers junk = []
    unfold decodePeers
    split
    · simp at h
      omega
    · rfl
  | cons r records ih =>
    rw [List.flatMap_cons, List.append_assoc, decodePeers_cons, ih]
    by_cases hport : r.port = 0 <;> simp [usablePeers, hport]

/-- Every byte string is a sequence of records with a short rest. -/
theorem exists_records : ∀ data : Bytes, ∃ records : List PeerRecord, ∃ junk : Bytes,
    junk.length < 6 ∧ data = records.flatMap PeerRecord.encode ++ junk
  | a :: b :: c :: d :: hi :: lo :: rest => by
    obtain ⟨records, junk, hjunk, rfl⟩ := exists_records rest
    obtain ⟨port, hport⟩ : ∃ port : UInt16, port.toNat = 256 * hi.toNat + lo.toNat :=
      ⟨_, port_of_bytes hi lo⟩
    refine ⟨⟨a, b, c, d, port⟩ :: records, junk, hjunk, ?_⟩
    have hlo := lo.toNat_lt
    have hhi := hi.toNat_lt
    have hhigh : UInt8.ofNat (port.toNat / 256) = hi := by
      apply UInt8.toNat_inj.1
      rw [UInt8.toNat_ofNat', hport]
      omega
    have hlow : UInt8.ofNat port.toNat = lo := by
      apply UInt8.toNat_inj.1
      rw [UInt8.toNat_ofNat', hport]
      omega
    rw [List.flatMap_cons, PeerRecord.encode, BigEndian.encode, BigEndian.encode, hhigh, hlow]
    simp [BigEndian.encode]
  | [] => ⟨[], [], by simp, rfl⟩
  | [a] => ⟨[], [a], by simp, rfl⟩
  | [a, b] => ⟨[], [a, b], by simp, rfl⟩
  | [a, b, c] => ⟨[], [a, b, c], by simp, rfl⟩
  | [a, b, c, d] => ⟨[], [a, b, c, d], by simp, rfl⟩
  | [a, b, c, d, e] => ⟨[], [a, b, c, d, e], by simp, rfl⟩

/-! ### One announce -/

/-- The announce response of the protocol: a header of 20 bytes and the peer records. -/
def announceResponse (transactionId interval leechers seeders : UInt32)
    (records : List PeerRecord) : Bytes :=
  BigEndian.encode 4 1 ++ BigEndian.encode 4 transactionId.toNat ++
    BigEndian.encode 4 interval.toNat ++ BigEndian.encode 4 leechers.toNat ++
    BigEndian.encode 4 seeders.toNat ++ records.flatMap PeerRecord.encode

/-- The announce was sent: every call up to there succeeded, the connect response was valid, and
`queue` holds the datagrams that came behind it. -/
structure Announced (trackerUrl : Bytes) (torrent : TorrentInfo) (peerId : Bytes) (net : Network)
    (queue : List Bytes) : Prop where
  resolved : ∃ host port, parseUdpUrl trackerUrl = some (host, port) ∧
    net.resolves host (Decimal.numeral port.toNat) = true
  opensSocket : net.opensSocket = true
  sendsConnect : net.sendsConnect = true
  connected : ∃ response, net.beforeConnect = response :: queue ∧ 16 ≤ response.length ∧
    field32 (response.take 16) 0 = 0 ∧ field32 (response.take 16) 4 = net.transactionId.toNat
  infoHash : (rawInfoHash torrent).length = 20
  peerId_length : peerId.length = 20
  sendsAnnounce : net.sendsAnnounce = true

/-- Once the announce is sent, the answer depends on the datagrams behind only. -/
theorem contactUdpTracker_of_announced {trackerUrl : Bytes} {torrent : TorrentInfo} {peerId : Bytes}
    {net : Network} {queue : List Bytes} (h : Announced trackerUrl torrent peerId net queue)
    (downloaded uploaded left : ℤ) :
    (contactUdpTracker trackerUrl torrent peerId downloaded uploaded left net).1 =
      receivePeers net queue := by
  obtain ⟨host, port, hurl, hresolves⟩ := h.resolved
  obtain ⟨response, hqueue, hlen, haction, htid⟩ := h.connected
  have htake : (response.take 16).length = 16 := by
    rw [List.length_take]
    omega
  simp [contactUdpTracker, hurl, hresolves, h.opensSocket, h.sendsConnect, hqueue, recv, htake,
    haction, htid, h.infoHash, h.peerId_length, h.sendsAnnounce]

theorem field32_encode {packet rest : Bytes} {offset : ℕ} {n : UInt32}
    (h : packet.drop offset = BigEndian.encode 4 n.toNat ++ rest) :
    field32 packet offset = n.toNat := by
  have hlt : n.toNat < 256 ^ 4 := n.toNat_lt
  rw [field32, h, List.take_left' (by simp), BigEndian.decode_encode_of_lt hlt]

/-- The second reception takes the header off the announce response and drops its records; the
peers are read from the datagram behind it. -/
theorem receivePeers_peers {net : Network} {queue rest : List Bytes}
    {interval leechers seeders : UInt32} {records : List PeerRecord}
    (h : queue ++ net.beforeAnnounce =
      announceResponse net.transactionId interval leechers seeders records :: rest) :
    (receivePeers net queue).peers =
      decodePeers (((rest ++ net.beforePeers).headD []).take 1200) := by
  -- what the first reception keeps of the datagram is a response without records
  have hheader : (announceResponse net.transactionId interval leechers seeders records).take 20 =
      announceResponse net.transactionId interval leechers seeders [] := by
    rw [announceResponse, List.take_left' (by simp)]
    simp [announceResponse]
  have hlen : (announceResponse net.transactionId interval leechers seeders []).length = 20 := by
    simp [announceResponse]
  have haction : field32 (announceResponse net.transactionId interval leechers seeders []) 0 =
      (1 : UInt32).toNat := by
    apply field32_encode
    rw [announceResponse, List.append_assoc, List.append_assoc, List.append_assoc, List.append_assoc]
    rfl
  have htid : field32 (announceResponse net.transactionId interval leechers seeders []) 4 =
      net.transactionId.toNat := by
    apply field32_encode
    rw [announceResponse, List.append_assoc, List.append_assoc, List.append_assoc, List.append_assoc,
      List.drop_left' (by simp)]
  have hpeers : (recv (rest ++ net.beforePeers) 1200).1.getD [] =
      ((rest ++ net.beforePeers).headD []).take 1200 := by
    cases rest ++ net.beforePeers <;> simp [recv]
  have hvalid : ¬ (field32 (announceResponse net.transactionId interval leechers seeders []) 0 ≠ 1 ∨
      field32 (announceResponse net.transactionId interval leechers seeders []) 4 ≠
        net.transactionId.toNat) :=
    not_or.2 ⟨not_not.2 haction, not_not.2 htid⟩
  rw [receivePeers, h]
  simp only [recv, hheader]
  rw [if_neg (not_not.2 hlen), if_neg hvalid]
  exact congrArg decodePeers hpeers

/-- **The announced peers, exactly**: the answer lists the usable peers of the announce response if
and only if the datagram behind it happens to carry the same ones. Without a datagram behind it,
an empty one stands in. -/
theorem contactUdpTracker_peers_iff {trackerUrl : Bytes} {torrent : TorrentInfo} {peerId : Bytes}
    {net : Network} {queue rest : List Bytes} {interval leechers seeders : UInt32}
    {records : List PeerRecord} (h : Announced trackerUrl torrent peerId net queue)
    (hqueue : queue ++ net.beforeAnnounce =
      announceResponse net.transactionId interval leechers seeders records :: rest)
    (downloaded uploaded left : ℤ) :
    (contactUdpTracker trackerUrl torrent peerId downloaded uploaded left net).1.peers =
        usablePeers records ↔
      ∃ records' junk, ((rest ++ net.beforePeers).headD []).take 1200 =
        records'.flatMap PeerRecord.encode ++ junk ∧ junk.length < 6 ∧
          usablePeers records' = usablePeers records := by
  rw [contactUdpTracker_of_announced h, receivePeers_peers hqueue]
  constructor
  · intro hpeers
    obtain ⟨records', junk, hjunk, hdata⟩ :=
      exists_records (((rest ++ net.beforePeers).headD []).take 1200)
    rw [hdata, decodePeers_records records' hjunk] at hpeers
    exact ⟨records', junk, hdata, hjunk, hpeers⟩
  · rintro ⟨records', junk, hdata, hjunk, hpeers⟩
    rw [hdata, decodePeers_records records' hjunk, hpeers]

/-- A tracker that sends nothing but its announce response is taken to know no peers. -/
theorem contactUdpTracker_peers_eq_nil {trackerUrl : Bytes} {torrent : TorrentInfo} {peerId : Bytes}
    {net : Network} {queue : List Bytes} {interval leechers seeders : UInt32}
    {records : List PeerRecord} (h : Announced trackerUrl torrent peerId net queue)
    (hqueue : queue ++ net.beforeAnnounce =
      [announceResponse net.transactionId interval leechers seeders records])
    (hlast : net.beforePeers = []) (downloaded uploaded left : ℤ) :
    (contactUdpTracker trackerUrl torrent peerId downloaded uploaded left net).1.peers = [] := by
  rw [contactUdpTracker_of_announced h, receivePeers_peers hqueue, hlast]
  rfl

/-! ### A tracker that knows one peer -/

/-- One announce to a tracker that answers with the peer `10.0.0.1:6881` and nothing else. -/
def onePeer : PeerRecord := { a := 10, b := 0, c := 0, d := 1, port := 6881 }

def oneTracker : Network where
  resolves := fun _ _ => true
  transactionId := 7
  key := 0
  beforeConnect := [BigEndian.encode 4 0 ++ BigEndian.encode 4 7 ++ BigEndian.encode 8 1]
  beforeAnnounce := [announceResponse 7 1800 0 1 [onePeer]]
  beforePeers := []

def zeroHashTorrent : TorrentInfo := { infoHash := List.replicate 20 0 }

theorem announced_oneTracker :
    Announced (ascii "udp://t:1") zeroHashTorrent (List.replicate 20 0) oneTracker [] where
  resolved := ⟨ascii "t", 1, by decide +kernel, rfl⟩
  opensSocket := rfl
  sendsConnect := rfl
  connected := ⟨_, rfl, by decide, by decide, by decide⟩
  infoHash := by decide
  peerId_length := by decide
  sendsAnnounce := rfl

theorem not_forall_peers :
    ¬ ∀ (trackerUrl : Bytes) (torrent : TorrentInfo) (peerId : Bytes) (net : Network)
      (queue rest : List Bytes) (interval leechers seeders : UInt32) (records : List PeerRecord),
      records.length ≤ 200 → Announced trackerUrl torrent peerId net queue →
      queue ++ net.beforeAnnounce =
        announceResponse net.transactionId interval leechers seeders records :: rest →
      ∀ downloaded uploaded left,
        (contactUdpTracker trackerUrl torrent peerId downloaded uploaded left net).1.peers =
          usablePeers records := by
  intro h
  have hpeers := h _ _ _ oneTracker [] [] 1800 0 1 [onePeer] (by decide) announced_oneTracker rfl
    0 0 0
  rw [contactUdpTracker_peers_eq_nil announced_oneTracker rfl rfl] at hpeers
  revert hpeers
  decide +kernel

/-- A tracker that sends the peer once more, in a datagram of its own. -/
def twoDatagrams : Network := { oneTracker with beforePeers := [onePeer.encode] }

theorem announced_twoDatagrams :
    Announced (ascii "udp://t:1") zeroHashTorrent (List.replicate 20 0) twoDatagrams [] where
  resolved := announced_oneTracker.resolved
  opensSocket := rfl
  sendsConnect := rfl
  connected := announced_oneTracker.connected
  infoHash := announced_oneTracker.infoHash
  peerId_length := announced_oneTracker.peerId_length
  sendsAnnounce := rfl

/-- With the peer in a datagram of its own, the answer lists it. -/
theorem contactUdpTracker_peers_iff_datagrams :
    (contactUdpTracker (ascii "udp://t:1") zeroHashTorrent (List.replicate 20 0) 0 0 0
      twoDatagrams).1.peers = usablePeers [onePeer] ∧
    ((contactUdpTracker (ascii "udp://t:1") zeroHashTorrent (List.replicate 20 0) 0 0 0
        oneTracker).1.peers = usablePeers [onePeer] ↔
      ∃ records' junk, (([] ++ oneTracker.beforePeers).headD []).take 1200 =
        records'.flatMap PeerRecord.encode ++ junk ∧ junk.length < 6 ∧
          usablePeers records' = usablePeers [onePeer]) :=
  ⟨(contactUdpTracker_peers_iff announced_twoDatagrams
      (show _ = announceResponse twoDatagrams.transactionId 1800 0 1 [onePeer] :: [] from rfl) 0 0 0).2
      ⟨[onePeer], [], by decide +kernel, by decide, rfl⟩,
    contactUdpTracker_peers_iff announced_oneTracker
      (show _ = announceResponse oneTracker.transactionId 1800 0 1 [onePeer] :: [] from rfl) 0 0 0⟩

end Tracker

end Gush
