import Gush.Dht.Discover
import Gush.Metadata.Identifiers
import Gush.Metadata.Integrity
import Gush.Tracker.List

/-!
# Finding peers that have the metadata

All of `MetadataDownloader::start`: the trackers of the magnet link are asked one after the other,
the DHT is asked if they know few peers, and then the peers are contacted. `findPeers_spec` says which
peers are found. `downloadMetadata_spec` says that nothing but metadata with the hash of the link is
returned, and that one peer that serves them is enough.
-/

namespace Gush.MetadataDownloader

open Cxx Bencode Wire Metadata Tracker

/-- What a call of `start` meets: the lists of trackers, the network at each tracker, the DHT, and what
happens when a peer is contacted. -/
structure Surroundings where
  fuel : ℕ
  lists : Environment
  tracker : ℕ → Environment
  dht : Dht.Network
  contact : ℕ → Peer → Contact

/-- The list that `getBuiltinTrackers` falls back to. -/
def fallbackTrackers : List Bytes :=
  [ascii "udp://tracker.opentrackr.org:1337/announce",
    ascii "udp://open.tracker.cl:1337/announce",
    ascii "udp://tracker.openbittorrent.com:6969/announce",
    ascii "udp://tracker.torrent.eu.org:451/announce",
    ascii "udp://tracker.bittor.pw:1337/announce",
    ascii "udp://tracker.dler.org:6969/announce",
    ascii "udp://tracker.moeking.me:6969/announce",
    ascii "udp://tracker.tiny-vps.com:6969/announce",
    ascii "udp://tracker.port443.xyz:6969/announce",
    ascii "udp://open.stealth.si:80/announce",
    ascii "udp://exodus.desync.com:6969/announce",
    ascii "udp://tracker.cyberia.is:6969/announce",
    ascii "udp://tracker.internetwarriors.net:1337/announce",
    ascii "udp://tracker.skynetcloud.site:6969/announce",
    ascii "http://tracker.opentrackr.org:1337/announce",
    ascii "http://tracker.openbittorrent.com:6969/announce",
    ascii "http://tracker.tfile.co/announce",
    ascii "http://bt1.archive.org:6969/announce",
    ascii "http://bt2.archive.org:6969/announce"]

def getBuiltinTrackers (env : Environment) : List Bytes :=
  let trackers :=
    TrackerList.fetchTrackersFromMultipleSources env [.trackerslistAll, .ngosangAll]
  if trackers = [] then fallbackTrackers else trackers

/-- Whether a URL begins with `udp://`. -/
def isUdp (url : Bytes) : Bool := (ascii "udp://").isPrefixOf url

/-- `MAX_TRACKERS_TO_TRY`. -/
def maxTrackersToTry : ℕ := 25

/-- `MAX_PEERS`. -/
def maxPeers : ℕ := 50

/-- The trackers in the order in which they are asked: those over UDP stand in front. -/
def trackersToUse (s : Surroundings) (magnet : MagnetLink) : List Bytes :=
  let trackers := if magnet.trackers = [] then getBuiltinTrackers s.lists else magnet.trackers
  trackers.filter isUdp ++ trackers.filter fun url => !isUdp url

/-- The torrent that the trackers are asked for. -/
def tempTorrent (magnet : MagnetLink) (announceList : List Bytes) : TorrentInfo where
  infoHash := magnet.infoHashRaw
  announceList
  peerId := ascii "-GT0001-" ++ List.replicate 12 'M'.toUInt8

/-- `contactTracker`, for the `i`-th tracker of the list. -/
def askTracker (s : Surroundings) (torrent : TorrentInfo) (i : ℕ) (trackerUrl : Bytes) :
    Option TrackerResponse :=
  contactTracker s.fuel (s.tracker i) { trackerUrl, torrent, peerId := torrent.peerId }

/-- The peers that an answer adds. -/
def peersOf (response : TrackerResponse) : List Peer := if response.ok then response.peers else []

/-- The loop over the trackers. -/
def askTrackers (s : Surroundings) (torrent : TorrentInfo) : List Bytes → ℕ → List Peer →
    Option (List Peer)
  | [], _, allPeers => some allPeers
  | trackerUrl :: rest, i, allPeers =>
    if i < maxTrackersToTry then
      match askTracker s torrent i trackerUrl with
      | none => none
      | some response =>
        let allPeers := allPeers ++ peersOf response
        if allPeers.length ≥ maxPeers then some allPeers
        else askTrackers s torrent rest (i + 1) allPeers
    else some allPeers

/-- `operator==` of `Peer`. -/
def sameAddress (a b : Peer) : Bool := a.ip = b.ip ∧ a.port = b.port

/-- The body of the loop over the peers that the DHT knows. -/
def addFound (allPeers : List Peer) (peer : Peer) : List Peer :=
  if allPeers.any (sameAddress peer) then allPeers else allPeers ++ [peer]

/-- The peers that `start` contacts. -/
def findPeers (s : Surroundings) (magnet : MagnetLink) : Option (List Peer) :=
  let trackers := trackersToUse s magnet
  match askTrackers s (tempTorrent magnet trackers) trackers 0 [] with
  | none => none
  | some allPeers =>
    if allPeers.length < 20 then
      (Dht.discoverDhtPeers s.fuel s.dht magnet.infoHashRaw []
        { maxQueries := 16, maxPeers := maxPeers - allPeers.length }).map fun found =>
          found.1.foldl addFound allPeers
    else some allPeers

/-- The contacts with some peers. -/
def contacts (s : Surroundings) (peers : List Peer) : List Contact :=
  peers.zipIdx.map fun entry => s.contact entry.2 entry.1

/-- All of `start`. -/
def search (sha1 : Bytes → Bytes) (s : Surroundings) (d : MetadataDownloader) :
    Option (Bool × MetadataDownloader) :=
  match findPeers s d.magnet with
  | none => none
  | some allPeers => d.start sha1 s.fuel (contacts s allPeers)

def downloadMetadata (sha1 : Bytes → Bytes) (s : Surroundings) (magnet : MagnetLink) : Option Bytes :=
  ((init magnet).search sha1 s).map fun out => if out.1 then out.2.getTorrentData else []

/-! ### The peers that are found -/

variable {s : Surroundings} {magnet : MagnetLink} {torrent : TorrentInfo}

/-- The trackers, from the `i`-th on, have given these answers. -/
def Answered (s : Surroundings) (torrent : TorrentInfo) (trackers : List Bytes) (i : ℕ)
    (responses : List TrackerResponse) : Prop :=
  ∀ j response, responses[j]? = some response →
    ∃ url, trackers[j]? = some url ∧ askTracker s torrent (i + j) url = some response

/-- The trackers are asked in a row until there are enough of them or enough peers. -/
theorem askTrackers_spec {trackers : List Bytes} {i : ℕ} {allPeers peers : List Peer}
    (h : askTrackers s torrent trackers i allPeers = some peers) :
    ∃ responses, Answered s torrent trackers i responses ∧
      peers = allPeers ++ responses.flatMap peersOf ∧
      (responses = [] ∨ i + responses.length ≤ maxTrackersToTry) ∧
      (∀ k, 0 < k → k < responses.length →
        (allPeers ++ (responses.take k).flatMap peersOf).length < maxPeers) ∧
      (responses.length = trackers.length ∨ maxTrackersToTry ≤ i + responses.length ∨
        maxPeers ≤ peers.length) := by
  induction trackers generalizing i allPeers with
  | nil =>
    obtain rfl := Option.some.inj h
    exact ⟨[], nofun, (List.append_nil _).symm, .inl rfl, nofun, .inl rfl⟩
  | cons trackerUrl rest ih =>
    rw [askTrackers] at h
    by_cases hi : i < maxTrackersToTry
    · rw [if_pos hi] at h
      cases hask : askTracker s torrent i trackerUrl with
      | none =>
        rw [hask] at h
        cases h
      | some response =>
        rw [hask] at h
        dsimp only at h
        have hfirst : ∀ responses, Answered s torrent rest (i + 1) responses →
            Answered s torrent (trackerUrl :: rest) i (response :: responses) := by
          intro responses hrest j r hj
          cases j with
          | zero =>
            obtain rfl := Option.some.inj hj
            exact ⟨trackerUrl, rfl, hask⟩
          | succ j =>
            obtain ⟨url, hurl, hanswer⟩ := hrest j r hj
            rw [Nat.add_right_comm] at hanswer
            exact ⟨url, hurl, hanswer⟩
        by_cases henough : (allPeers ++ peersOf response).length ≥ maxPeers
        · rw [if_pos henough] at h
          obtain rfl := Option.some.inj h
          refine ⟨[response], hfirst [] nofun, by simp, .inr hi, fun k hpos hk => ?_, .inr (.inr henough)⟩
          rw [List.length_singleton] at hk
          omega
        · rw [if_neg henough] at h
          obtain ⟨responses, hanswered, heq, hcount, hroom, hend⟩ := ih h
          refine ⟨response :: responses, hfirst responses hanswered, ?_, .inr ?_, fun k hpos hk => ?_, ?_⟩
          · rw [heq, List.flatMap_cons, List.append_assoc]
          · rw [List.length_cons]
            rcases hcount with rfl | hcount
            · exact hi
            · omega
          · obtain ⟨k, rfl⟩ := Nat.exists_eq_succ_of_ne_zero hpos.ne'
            rw [List.take_succ_cons, List.flatMap_cons, ← List.append_assoc]
            rcases Nat.eq_zero_or_pos k with rfl | hkpos
            · simpa using henough
            · exact hroom k hkpos (by simpa using hk)
          · rw [List.length_cons, List.length_cons]
            omega
    · rw [if_neg hi] at h
      obtain rfl := Option.some.inj h
      exact ⟨[], nofun, (List.append_nil _).symm, .inl rfl, nofun, .inr (.inl (not_lt.1 hi))⟩

/-- The address of a peer. -/
def address (peer : Peer) : Bytes × UInt16 := (peer.ip, peer.port)

theorem any_sameAddress_iff {allPeers : List Peer} {peer : Peer} :
    allPeers.any (sameAddress peer) = true ↔ address peer ∈ allPeers.map address := by
  rw [List.any_eq_true, List.mem_map]
  refine exists_congr fun other => and_congr_right fun _ => ?_
  rw [sameAddress, decide_eq_true_eq, address, address, Prod.mk.injEq, eq_comm, @eq_comm _ peer.port]

/-- The DHT adds the peers with new addresses, if all its peers have different ones. -/
theorem foldl_addFound {allPeers found : List Peer} (h : (found.map address).Nodup) :
    found.foldl addFound allPeers =
      allPeers ++ found.filter fun peer => !allPeers.any (sameAddress peer) := by
  have hinsert : addFound = Merge.insertBy address := by
    funext allPeers peer
    rw [addFound, Merge.insertBy]
    by_cases hknown : address peer ∈ allPeers.map address
    · rw [if_pos hknown, if_pos (any_sameAddress_iff.2 hknown)]
    · rw [if_neg hknown, if_neg (mt any_sameAddress_iff.1 hknown)]
  rw [hinsert, Merge.foldl_insertBy h]
  congr 1
  refine List.filter_congr fun peer _ => ?_
  rw [decide_eq_decide.2 (not_congr any_sameAddress_iff.symm), decide_not, Bool.decide_eq_true]

/-- The trackers of the link, or the built-in ones, are asked in an order with UDP in front. -/
theorem trackersToUse_spec (s : Surroundings) (magnet : MagnetLink) :
    (trackersToUse s magnet).Perm
        (if magnet.trackers = [] then getBuiltinTrackers s.lists else magnet.trackers) ∧
      (trackersToUse s magnet).Pairwise fun front behind => isUdp behind = true → isUdp front = true := by
  rw [trackersToUse]
  generalize (if magnet.trackers = [] then getBuiltinTrackers s.lists else magnet.trackers) = trackers
  refine ⟨List.filter_append_perm isUdp trackers, List.pairwise_append.2 ⟨?_, ?_, ?_⟩⟩
  · exact List.pairwise_of_forall_mem_list fun url hurl _ _ _ => (List.mem_filter.1 hurl).2
  · refine List.pairwise_of_forall_mem_list fun _ _ url hurl hudp => ?_
    have hother := (List.mem_filter.1 hurl).2
    rw [hudp] at hother
    cases hother
  · exact fun url hurl _ _ _ => (List.mem_filter.1 hurl).2

/-- **The peers that are found.** The trackers are asked in an order with UDP in front, at most 25 of
them, and none once 50 peers are known. If they name fewer than 20 peers, the DHT is asked for as many
as are missing to 50, and its peers with new addresses stand behind the others. -/
theorem findPeers_spec {peers : List Peer} (h : findPeers s magnet = some peers) :
    (trackersToUse s magnet).Perm
        (if magnet.trackers = [] then getBuiltinTrackers s.lists else magnet.trackers) ∧
    (trackersToUse s magnet).Pairwise (fun front behind => isUdp behind = true → isUdp front = true) ∧
    ∃ responses, Answered s (tempTorrent magnet (trackersToUse s magnet)) (trackersToUse s magnet) 0
        responses ∧
      responses.length ≤ maxTrackersToTry ∧
      (∀ k, 0 < k → k < responses.length →
        ((responses.take k).flatMap peersOf).length < maxPeers) ∧
      (responses.length = (trackersToUse s magnet).length ∨ responses.length = maxTrackersToTry ∨
        maxPeers ≤ (responses.flatMap peersOf).length) ∧
      if (responses.flatMap peersOf).length < 20 then
        ∃ found log, Dht.discoverDhtPeers s.fuel s.dht magnet.infoHashRaw []
            { maxQueries := 16, maxPeers := maxPeers - (responses.flatMap peersOf).length } =
              some (found, log) ∧
          Dht.Discovered s.dht
            { maxQueries := 16, maxPeers := maxPeers - (responses.flatMap peersOf).length } found log ∧
          peers = responses.flatMap peersOf ++ found.filter fun peer =>
            !(responses.flatMap peersOf).any (sameAddress peer)
      else peers = responses.flatMap peersOf := by
  rw [findPeers] at h
  rcases hask : askTrackers s (tempTorrent magnet (trackersToUse s magnet)) (trackersToUse s magnet) 0
    [] with - | known <;> rw [hask] at h
  · cases h
  obtain ⟨responses, hanswered, rfl, hcount, hroom, hend⟩ := askTrackers_spec hask
  simp only [List.nil_append, Nat.zero_add] at h hcount hroom hend
  have hle : responses.length ≤ maxTrackersToTry := by
    rcases hcount with rfl | hcount
    · exact Nat.zero_le _
    · exact hcount
  obtain ⟨hperm, hudp⟩ := trackersToUse_spec s magnet
  refine ⟨hperm, hudp, responses, hanswered, hle, hroom, ?_, ?_⟩
  · rcases hend with hall | hmax | henough
    · exact .inl hall
    · exact .inr (.inl (le_antisymm hle hmax))
    · exact .inr (.inr henough)
  · split_ifs with hfew
    · rw [if_pos hfew] at h
      obtain ⟨⟨found, log⟩, hdht, rfl⟩ := Option.map_eq_some_iff.1 h
      have hfound := Dht.discovered_of_eq_some hdht
      exact ⟨found, log, hdht, hfound, foldl_addFound hfound.distinct_peers⟩
    · rw [if_neg hfew] at h
      exact (Option.some.inj h).symm

/-- No tracker over UDP answers. -/
def silentNetwork : Tracker.Network where
  resolves _ _ := false
  transactionId := 0
  key := 0
  beforeConnect := []
  beforeAnnounce := []
  beforePeers := []

/-- A tracker over HTTP that knows one peer, no DHT, and a peer that serves 20 bytes of metadata. -/
def sampleSurroundings : Surroundings where
  fuel := 100
  lists :=
    { net := silentNetwork
      transfer := fun _ => .failed []
      unassigned := fun _ => 0 }
  tracker _ :=
    { net := silentNetwork
      transfer := fun _ => .answered 200 (ascii "d5:peers6:" ++ [1, 2, 3, 4, 26, 225] ++ ascii "e")
      unassigned := fun _ => 0 }
  dht :=
    { getaddrinfo := fun _ _ _ => none, socket := false, nodeId := [], transaction := fun _ => []
      sendto := fun _ => 0, inbox := [] }
  contact _ _ := { turns := ((sampleService 1 []).items sampleMetadata 1).map some }

/-- A magnet link with a tracker over UDP behind the one over HTTP. -/
def listedMagnet : MagnetLink :=
  { sampleMagnet with trackers := [ascii "http://t", ascii "udp://u"] }

theorem findPeers_listed : findPeers sampleSurroundings listedMagnet =
    some [⟨ascii "1.2.3.4", 6881, []⟩] := by decide +kernel

/-- The same with a DHT of one node, which knows another peer. -/
def dhtSurroundings : Surroundings := { sampleSurroundings with dht := Dht.oneNode }

theorem findPeers_dht : findPeers dhtSurroundings listedMagnet =
    some [⟨ascii "1.2.3.4", 6881, []⟩, ⟨ascii "10.0.0.1", 80, []⟩] := by decide +kernel

/-- The tracker over UDP, which does not answer, is asked first, and the node of the DHT last. -/
theorem findPeers_spec_listed : trackersToUse dhtSurroundings listedMagnet =
      [ascii "udp://u", ascii "http://t"] ∧
    ∃ responses, Answered dhtSurroundings (tempTorrent listedMagnet
        (trackersToUse dhtSurroundings listedMagnet)) (trackersToUse dhtSurroundings listedMagnet)
        0 responses ∧ responses.length ≤ maxTrackersToTry ∧
      if (responses.flatMap peersOf).length < 20 then
        ∃ found log, Dht.discoverDhtPeers 100 Dht.oneNode listedMagnet.infoHashRaw []
            { maxQueries := 16, maxPeers := maxPeers - (responses.flatMap peersOf).length } =
              some (found, log) ∧
          [⟨ascii "1.2.3.4", 6881, []⟩, ⟨ascii "10.0.0.1", 80, []⟩] = responses.flatMap peersOf ++
            found.filter fun peer => !(responses.flatMap peersOf).any (sameAddress peer)
      else [⟨ascii "1.2.3.4", 6881, []⟩, ⟨ascii "10.0.0.1", 80, []⟩] = responses.flatMap peersOf := by
  obtain ⟨-, -, responses, hanswered, hle, -, -, hpeers⟩ := findPeers_spec findPeers_dht
  refine ⟨by decide +kernel, responses, hanswered, hle, ?_⟩
  split_ifs at hpeers ⊢
  · obtain ⟨found, log, hdht, -, hfound⟩ := hpeers
    exact ⟨found, log, hdht, hfound⟩
  · exact hpeers

/-! ### More fuel -/

variable {sha1 : Bytes → Bytes} {d d' : MetadataDownloader} {fuel fuel' : ℕ}

theorem exchangeExtensions_mono (hle : fuel ≤ fuel') {sock : Metadata.Link}
    {out : Option ℤ × MetadataDownloader × Metadata.Link} (h : d.exchangeExtensions fuel sock = some out) :
    d.exchangeExtensions fuel' sock = some out := by
  unfold exchangeExtensions at h ⊢
  split at h
  · exact h
  · split at h
    · exact h
    · obtain ⟨r, hparse, rfl⟩ := Option.map_eq_some_iff.1 h
      rw [parseImpl_mono hle hparse]
      rfl

theorem requestLoop_mono (hle : fuel ≤ fuel') {extId : UInt8} {indices : List ℕ} {pieces : List Bytes}
    {sock : Metadata.Link} {out : Bool × List Bytes × Metadata.Link}
    (h : requestLoop fuel extId indices pieces sock = some out) :
    requestLoop fuel' extId indices pieces sock = some out := by
  induction indices generalizing pieces sock with
  | nil => exact h
  | cons i rest ih =>
    rw [requestLoop] at h ⊢
    split at h
    · exact h
    · split at h
      · exact h
      · split at h
        · cases h
        · rename_i hparse
          rw [parseImpl_mono hle hparse]
          dsimp only
          split at h
          · exact h
          · exact ih h

theorem downloadFromPeer_mono (hle : fuel ≤ fuel') {peer : Contact} {out : Bool × MetadataDownloader}
    (h : d.downloadFromPeer sha1 fuel peer = some out) :
    d.downloadFromPeer sha1 fuel' peer = some out := by
  unfold downloadFromPeer at h ⊢
  split_ifs at h ⊢
  · split at h
    · exact h
    · split at h
      · cases h
      · rename_i hexchange
        rw [exchangeExtensions_mono hle hexchange]
        exact h
      · rename_i hexchange
        rw [exchangeExtensions_mono hle hexchange]
        dsimp only
        split_ifs at h ⊢
        · exact h
        · obtain ⟨out', hrequest, rfl⟩ := Option.map_eq_some_iff.1 h
          rw [Option.map_eq_some_iff]
          refine ⟨out', ?_, rfl⟩
          unfold requestMetadata at hrequest ⊢
          split at hrequest
          · cases hrequest
          · rename_i hloop
            rw [requestLoop_mono hle hloop]
            exact hrequest
          · rename_i hloop
            rw [requestLoop_mono hle hloop]
            exact hrequest
  · exact h

/-! ### Contacting the peers -/

/-- The peer serves the metadata `m`, under an identifier of its own. -/
def Serves (contact : Contact) (infoHash m : Bytes) : Prop :=
  contact.connects = true ∧ ∃ k service, k ≠ 0 ∧ Service.Good service maxFrame infoHash m k ∧
    Delivers [] contact.turns (service.items m k)

/-- A contact that fails keeps the magnet link, and the download stays incomplete. -/
theorem downloadFromPeer_failed {peer : Contact}
    (h : d.downloadFromPeer sha1 fuel peer = some (false, d')) :
    d'.magnet = d.magnet ∧ d'.complete = d.complete := by
  refine ⟨?_, by simpa using downloadFromPeer_complete h⟩
  rcases downloadFromPeer_cases h with ⟨-, hkeeps⟩ | ⟨d₁, -, hkeeps, hverify⟩
  · exact hkeeps.magnet
  · rcases verify_cases sha1 d₁ with ⟨-, hout⟩ | ⟨-, hout⟩ <;> rw [hout] at hverify <;> cases hverify
    exact hkeeps.magnet

/-- A contact that succeeds has metadata, with the hash of the magnet link. -/
theorem downloadFromPeer_succeeded {peer : Contact}
    (h : d.downloadFromPeer sha1 fuel peer = some (true, d')) :
    d'.complete = true ∧ d'.metadata ≠ [] ∧ sha1 d'.metadata = d.magnet.infoHashRaw := by
  refine ⟨by simpa using downloadFromPeer_complete h, ?_⟩
  rcases downloadFromPeer_cases h with ⟨hfalse, -⟩ | ⟨d₁, hfetches, hkeeps, hverify⟩
  · cases hfalse
  rcases verify_cases sha1 d₁ with ⟨⟨hsize, hhash⟩, hout⟩ | ⟨-, hout⟩ <;> rw [hout] at hverify <;>
    cases hverify
  refine ⟨fun hnil => ?_, hhash.trans (congrArg MagnetLink.infoHashRaw hkeeps.magnet)⟩
  -- the size that the peer has announced is positive
  obtain ⟨-, sock, -, metadataExtId, d₂, sock₂, hexchange, pieces, sock₃, -, rfl⟩ := hfetches
  have hpos : d₂.metadataSize > 0 := by
    unfold exchangeExtensions at hexchange
    split at hexchange
    · cases hexchange
    · split at hexchange
      · cases hexchange
      · obtain ⟨r, -, hout⟩ := Option.map_eq_some_iff.1 hexchange
        split at hout
        · cases hout
        · split_ifs at hout with hboth
          · cases hout
            exact hboth.2
          · cases hout
  have hflat : pieces.flatten = [] := hnil
  have hzero : int32 (pieces.flatten.length : ℤ) = d₂.metadataSize := hsize
  rw [hflat] at hzero
  exact hpos.ne hzero

/-- What the contacts with the peers end with. -/
theorem tryPeers_spec {peers : List Contact} (hd : d.complete = false)
    (h : tryPeers sha1 fuel peers d = some d') :
    (d'.complete = true → d'.metadata ≠ [] ∧ sha1 d'.metadata = d.magnet.infoHashRaw) ∧
    ∀ m, 1 ≤ m.length → m.length ≤ 2 ^ 31 - 16384 → sha1 m = d.magnet.infoHashRaw →
      (∃ peer ∈ peers, Serves peer d.magnet.infoHashRaw m) → d'.complete = true := by
  induction peers generalizing d with
  | nil =>
    obtain rfl := Option.some.inj h
    refine ⟨fun hcomplete => absurd (hd.symm.trans hcomplete) Bool.false_ne_true, ?_⟩
    rintro m - - - ⟨peer, hmem, -⟩
    cases hmem
  | cons peer rest ih =>
    rw [tryPeers] at h
    rcases hdownload : d.downloadFromPeer sha1 fuel peer with - | ⟨_ | _, d₁⟩ <;> rw [hdownload] at h
    · cases h
    · -- this peer does not serve the metadata
      obtain ⟨hmagnet, hcomplete⟩ := downloadFromPeer_failed hdownload
      replace h : tryPeers sha1 fuel rest d₁ = some d' := h
      obtain ⟨hsound, hlive⟩ := ih (hcomplete.trans hd) h
      rw [hmagnet] at hsound hlive
      refine ⟨hsound, fun m hpos hm hhash hserves => hlive m hpos hm hhash ?_⟩
      obtain ⟨peer', hmem, hserves⟩ := hserves
      rcases List.mem_cons.1 hmem with rfl | hmem
      · obtain ⟨hconnects, k, service, hk, hgood, hdelivers⟩ := hserves
        obtain ⟨N, d₂, hends, -, -⟩ :=
          downloadFromPeer_serves hpos hm hhash hk hgood hconnects hdelivers
        have hmore := hends (max N fuel) (le_max_left N fuel)
        rw [downloadFromPeer_mono (le_max_right N fuel) hdownload] at hmore
        cases hmore
      · exact ⟨peer', hmem, hserves⟩
    · obtain ⟨hcomplete, hdata⟩ := downloadFromPeer_succeeded hdownload
      dsimp only at h
      rw [if_pos ⟨rfl, hcomplete⟩] at h
      obtain rfl := Option.some.inj h
      exact ⟨fun _ => hdata, fun _ _ _ _ _ => hcomplete⟩

/-- What a download that returns has found. -/
theorem search_cases {data : Bytes} (h : downloadMetadata sha1 s magnet = some data) :
    ∃ peers, findPeers s magnet = some peers ∧
      ((data = [] ∧ contacts s peers = []) ∨ ∃ d', tryPeers sha1 s.fuel (contacts s peers)
        (init magnet) = some d' ∧ data = if d'.complete then d'.metadata else []) := by
  obtain ⟨⟨found, d⟩, hsearch, rfl⟩ := Option.map_eq_some_iff.1 h
  rw [search] at hsearch
  have hmagnet : (init magnet).magnet = magnet := rfl
  rw [hmagnet] at hsearch
  rcases hfind : findPeers s magnet with - | peers <;> rw [hfind] at hsearch
  · cases hsearch
  refine ⟨peers, rfl, ?_⟩
  dsimp only at hsearch
  rw [start] at hsearch
  split_ifs at hsearch with hempty
  · obtain ⟨rfl, rfl⟩ := Prod.mk.inj (Option.some.inj hsearch)
    exact .inl ⟨rfl, hempty⟩
  · obtain ⟨d', htry, hout⟩ := Option.map_eq_some_iff.1 hsearch
    obtain ⟨rfl, rfl⟩ := Prod.mk.inj hout
    exact .inr ⟨d', htry, rfl⟩

/-- Metadata that are returned have the hash of the magnet link. -/
theorem downloadMetadata_sound {data : Bytes} (h : downloadMetadata sha1 s magnet = some data)
    (hne : data ≠ []) : sha1 data = magnet.infoHashRaw := by
  obtain ⟨peers, -, ⟨hnil, -⟩ | ⟨d', htry, rfl⟩⟩ := search_cases h
  · exact absurd hnil hne
  by_cases hcomplete : d'.complete = true
  · rw [if_pos hcomplete]
    exact ((tryPeers_spec rfl htry).1 hcomplete).2
  · rw [if_neg hcomplete] at hne
    exact absurd rfl hne

/-- **The metadata of a magnet link.** Whatever trackers, the DHT and the peers answer, a download that
returns has metadata with the hash of the link, or none at all. It has some if only one of the peers
that are found serves metadata with this hash, of 1 to `2 ^ 31 - 16384` bytes, whatever the others do. -/
theorem downloadMetadata_spec {data : Bytes} (h : downloadMetadata sha1 s magnet = some data) :
    (data ≠ [] → sha1 data = magnet.infoHashRaw) ∧
    ∀ m, 1 ≤ m.length → m.length ≤ 2 ^ 31 - 16384 → sha1 m = magnet.infoHashRaw →
      (∃ peers, findPeers s magnet = some peers ∧
        ∃ contact ∈ contacts s peers, Serves contact magnet.infoHashRaw m) → data ≠ [] := by
  refine ⟨downloadMetadata_sound h, ?_⟩
  rintro m hpos hm hhash ⟨peers, hpeers, hserves⟩
  obtain ⟨peers', hpeers', hout⟩ := search_cases h
  obtain rfl := Option.some.inj (hpeers.symm.trans hpeers')
  obtain ⟨-, hempty⟩ | ⟨d', htry, rfl⟩ := hout
  · rw [hempty] at hserves
    obtain ⟨contact, hmem, -⟩ := hserves
    cases hmem
  · obtain ⟨hsound, hlive⟩ := tryPeers_spec rfl htry
    have hcomplete := hlive m hpos hm hhash hserves
    rw [if_pos hcomplete]
    exact (hsound hcomplete).1

/-- The peer that is found serves the metadata, in which every byte string is its own hash. -/
theorem downloadMetadata_spec_listed : ∃ data,
    downloadMetadata id sampleSurroundings listedMagnet = some data ∧ data ≠ [] ∧
      id data = listedMagnet.infoHashRaw := by
  have hreturns : (downloadMetadata id sampleSurroundings listedMagnet).isSome = true := by
    decide +kernel
  obtain ⟨data, hdata⟩ := Option.isSome_iff_exists.1 hreturns
  obtain ⟨hsound, hlive⟩ := downloadMetadata_spec hdata
  have hgood : (sampleService 1 []).Good maxFrame sampleMagnet.infoHashRaw sampleMetadata 1 :=
    (sampleService_conventional (.inl rfl) (List.forall_mem_nil _)).good
      (sampleService_fits (.inl rfl) (by decide) (by decide) (List.forall_mem_nil _))
  have hserves : Serves (sampleSurroundings.contact 0 ⟨ascii "1.2.3.4", 6881, []⟩)
      listedMagnet.infoHashRaw sampleMetadata :=
    ⟨rfl, 1, sampleService 1 [], by decide, hgood, delivers_map _⟩
  have hne := hlive sampleMetadata (by decide) (by decide) rfl
    ⟨_, findPeers_listed, _, List.mem_singleton_self _, hserves⟩
  exact ⟨data, hdata, hne, hsound hne⟩

end Gush.MetadataDownloader
