import Gush.Metadata.Exchange

/-!
# Identifiers and limits of the exchange

What a peer must do to complete a download. The client reads the answers under the identifier of
the peer: `addPeer_completes` says that a peer that uses it completes the download, whatever the
state was before, if its frames are at most 4 MiB long.

The identifier of incoming messages is meant to be the one that the client has announced.
`addPeer_completes_iff` says that a peer that goes by this convention completes the download only if
its own identifier is the same one.
-/

namespace Gush.Metadata

open Cxx Bencode Wire

/-! ### Peers with ordinary frames -/

/-- The `ut_metadata` identifier that the client announces. -/
def ownId : UInt8 := 1

/-- A data message to a request, behind ordinary frames. -/
structure Answer.Conventional (a : Answer) (m : Bytes) (i : ℕ) : Prop where
  others : ∀ frame ∈ a.others, Ordinary frame
  valid : (BencodeValue.dict a.dict).Valid
  msgType : dictGet a.dict (ascii "msg_type") = some (.int 1)
  length : 2 + (a.payload m i).length < 2 ^ 32

/-- A peer that announces the metadata `m` and its identifier `k`, and answers with the slices. -/
structure Service.Conventional (s : Service) (infoHash m : Bytes) (k : UInt8) : Prop where
  hello_length : s.hello.length = 68
  hello : handshakeAccepted infoHash s.hello = true
  others : ∀ frame ∈ s.others, Ordinary frame
  announces : Announces s.handshake m k
  handshake_length : 2 + s.handshake.length < 2 ^ 32
  answers_length : s.answers.length = sliceCount m
  answers : ∀ (i : ℕ) (a : Answer), s.answers[i]? = some a → a.Conventional m i

/-- All that the peer sends is within the limits. -/
structure Service.Fits (s : Service) (limit : ℕ) (m : Bytes) : Prop where
  handshake : Metadata.Fits limit s.others s.handshake
  answers : ∀ (i : ℕ) (a : Answer), s.answers[i]? = some a →
    Metadata.Fits limit a.others (a.payload m i)

/-- Within the limits, such a peer serves the metadata. -/
theorem Service.Conventional.good {s : Service} {infoHash m : Bytes} {k : UInt8} {limit : ℕ}
    (h : s.Conventional infoHash m k) (hfits : s.Fits limit m) : s.Good limit infoHash m k where
  hello_length := h.hello_length
  hello := h.hello
  others_length := hfits.handshake.count
  others := fun frame hframe =>
    (h.others frame hframe).skipped (hfits.handshake.others frame hframe) extendedHandshakeId
  announces := h.announces
  handshake_length := hfits.handshake.payload
  answers_length := h.answers_length
  answers := by
    intro i a ha
    have hconv := h.answers i a ha
    have hlimits := hfits.answers i a ha
    exact ⟨hlimits.count,
      fun frame hframe => (hconv.others frame hframe).skipped (hlimits.others frame hframe) k,
      hconv.valid, hconv.msgType, hlimits.payload⟩

/-- Each item arrives behind a message. -/
theorem delivers_map (items : List Bytes) : Delivers [] (items.map some) items := by
  induction items with
  | nil => exact .nil _ _
  | cons item items ih => exact .cons (List.append_nil item).symm ih

/-- Nothing has arrived, and each item will arrive behind a message. -/
structure Exact (sock : Link) (items : List Bytes) : Prop where
  incoming : sock.incoming = []
  turns : sock.turns = items.map some

theorem sendFull_exact {sock sock' : Link} {item data : Bytes} {items : List Bytes}
    (h : Exact sock (item :: items)) (hsend : sock.sendFull data = (true, sock')) :
    sock'.incoming = item ∧ sock'.turns = items.map some := by
  rw [Link.sendFull, h.turns, h.incoming] at hsend
  cases hsend
  exact ⟨rfl, rfl⟩

/-- Behind a message, an item is read to its end. -/
theorem readItem_exact {sock sock' sock'' : Link} {others : List Bytes} {expected extId : UInt8}
    {payload data result : Bytes} {items : List Bytes}
    (hothers : ∀ frame ∈ others, Ordinary frame) (hlen : 2 + payload.length < 2 ^ 32)
    (h : Exact sock ((others.flatten ++ extendedFrame extId payload) :: items))
    (hsend : sock.sendFull data = (true, sock'))
    (hread : readExtendedMessage sock' expected = (some result, sock'')) :
    extId = expected ∧ Fits maxFrame others payload ∧ result = payload ∧ Exact sock'' items := by
  obtain ⟨hincoming, hturns⟩ := sendFull_exact h hsend
  obtain ⟨hid, hfits, hresult, rfl⟩ := readExtendedMessage_exact hothers hlen hincoming hread
  exact ⟨hid, hfits, hresult, ⟨rfl, hturns⟩⟩

end Gush.Metadata

namespace Gush.MetadataDownloader

open Cxx Bencode Wire Metadata

variable {sha1 : Bytes → Bytes} {fuel : ℕ} {d d' : MetadataDownloader} {m : Bytes}
  {k answerId : UInt8} {sock : Link} {contact : Contact}

/-! ### What a completed exchange says about the peer -/

/-- A completed handshake leaves the rest. -/
theorem performHandshake_exact {sock' : Link} {hello : Bytes} {items : List Bytes}
    (hlen : hello.length = 68) (h : Exact sock (hello :: items))
    (hhandshake : d.performHandshake sock = (true, sock')) : Exact sock' items := by
  unfold performHandshake at hhandshake
  rcases hsend : sock.sendFull (handshake d.magnet.infoHashRaw clientId) with ⟨_ | _, sock₁⟩ <;>
    rw [hsend] at hhandshake
  · cases hhandshake
  obtain ⟨hincoming, hturns⟩ := sendFull_exact h hsend
  dsimp only at hhandshake
  rw [Link.recvFull_append (hincoming.trans (List.append_nil hello).symm) hlen.symm] at hhandshake
  obtain rfl : sock₁.leave [] = sock' := (Prod.mk.inj hhandshake).2
  exact ⟨rfl, hturns⟩

/-- A request that has been answered. -/
theorem requestLoop_cons {extId : UInt8} {i : ℕ} {rest : List ℕ} {pieces pieces' : List Bytes}
    {sock' : Link} (h : requestLoop fuel extId (i :: rest) pieces sock = some (true, pieces', sock')) :
    ∃ sock₁ payload sock₂ pieces₁,
      sock.sendFull (extendedFrame extId (requestDict i)) = (true, sock₁) ∧
      readExtendedMessage sock₁ extId = (some payload, sock₂) ∧
      requestLoop fuel extId rest pieces₁ sock₂ = some (true, pieces', sock') := by
  rw [requestLoop] at h
  rcases hsend : sock.sendFull (extendedFrame extId (requestDict i)) with ⟨_ | _, sock₁⟩ <;>
    rw [hsend] at h
  · cases h
  dsimp only at h
  rcases hread : readExtendedMessage sock₁ extId with ⟨_ | payload, sock₂⟩ <;> rw [hread] at h
  · cases h
  dsimp only at h
  rcases hparse : parseImpl fuel payload 0 with - | r <;> rw [hparse] at h
  · cases h
  dsimp only at h
  rcases haccept : acceptPiece pieces i payload r with - | pieces₁ <;> rw [haccept] at h
  · cases h
  · exact ⟨sock₁, payload, sock₂, pieces₁, rfl, hread, h⟩

/-- If all requests are answered, then under the identifier that is looked for and within the
limits. -/
theorem requestLoop_exact {answers : List Answer} {i : ℕ} {pieces pieces' : List Bytes} {sock' : Link}
    (hanswers : ∀ (j : ℕ) (a : Answer), answers[j]? = some a → a.Conventional m (i + j))
    (hsock : Exact sock (answerItems m answerId i answers))
    (h : requestLoop fuel k (List.range' i answers.length) pieces sock = some (true, pieces', sock')) :
    ∀ (j : ℕ) (a : Answer), answers[j]? = some a →
      answerId = k ∧ Fits maxFrame a.others (a.payload m (i + j)) := by
  induction answers generalizing i pieces sock with
  | nil => exact nofun
  | cons b answers ih =>
    rw [List.length_cons, List.range'_succ] at h
    obtain ⟨sock₁, payload, sock₂, pieces₁, hsend, hread, hrest⟩ := requestLoop_cons h
    have hb : b.Conventional m i := hanswers 0 b rfl
    obtain ⟨hid, hfits, -, hsock₂⟩ := readItem_exact hb.others hb.length hsock hsend hread
    have hanswers' : ∀ (j : ℕ) (a : Answer), answers[j]? = some a → a.Conventional m (i + 1 + j) := by
      intro j a ha
      have hconv := hanswers (j + 1) a ha
      rwa [show i + (j + 1) = i + 1 + j by omega] at hconv
    intro j a ha
    cases j with
    | zero =>
      cases ha
      exact ⟨hid, hfits⟩
    | succ j =>
      rw [show i + (j + 1) = i + 1 + j by omega]
      exact ih hanswers' hsock₂ hrest j a ha

/-- A peer from which all pieces were fetched has answered under its identifier, and within the
limits. -/
theorem Fetches.exact {s : Service} (h : Fetches fuel d contact d') (hpos : 1 ≤ m.length)
    (hm : m.length ≤ 2 ^ 31 - 16384) (hk : k ≠ 0)
    (hs : s.Conventional d.magnet.infoHashRaw m k)
    (hturns : contact.turns = (s.items m answerId).map some) :
    answerId = k ∧ s.Fits maxFrame m := by
  obtain ⟨-, sock, hhandshake, metadataExtId, d₁, sock₁, hexchange, pieces, sock₂, hloop, -⟩ := h
  have hsock : Exact sock _ := performHandshake_exact hs.hello_length ⟨rfl, hturns⟩ hhandshake
  obtain ⟨hfailed, -⟩ | ⟨sock', payload, -, hsend, hread, -⟩ := exchangeExtensions_cases hexchange
  · cases hfailed
  obtain ⟨-, hfits, rfl, hsock₁⟩ :=
    readItem_exact hs.others hs.handshake_length hsock hsend hread
  obtain ⟨r, d₂, -, hready, hexchange'⟩ :=
    exchangeExtensions_announces (d := d) hpos hm hk hs.announces hsend hread
  obtain ⟨-, -, hout⟩ := Option.map_eq_some_iff.1 ((hexchange' fuel).symm.trans hexchange)
  obtain ⟨hid, hrest⟩ := Prod.mk.inj hout
  obtain ⟨rfl, -⟩ := Prod.mk.inj hrest
  obtain rfl := Option.some.inj hid
  have hrange : List.range d₂.numPieces.toNat = List.range' 0 s.answers.length := by
    rw [hready.numPieces, Int.toNat_natCast, hs.answers_length, List.range_eq_range']
  have hanswers : ∀ (j : ℕ) (a : Answer), s.answers[j]? = some a → a.Conventional m (0 + j) := by
    intro j a ha
    rw [Nat.zero_add]
    exact hs.answers j a ha
  rw [ofInt_toNat, hrange] at hloop
  have hall := requestLoop_exact hanswers hsock₁ hloop
  have hfirst : 0 < s.answers.length := by
    have hcount : 0 < sliceCount m := by
      unfold sliceCount
      omega
    rwa [hs.answers_length]
  refine ⟨(hall 0 _ (List.getElem?_eq_getElem hfirst)).1, hfits, fun i a ha => ?_⟩
  have hanswer := (hall i a ha).2
  rwa [Nat.zero_add] at hanswer

/-! ### Completing a download -/

/-- A further peer completes the download with the metadata `m`. -/
def Completes (sha1 : Bytes → Bytes) (d : MetadataDownloader) (contact : Contact) (m : Bytes) : Prop :=
  ∃ N, ∀ fuel ≥ N, ∃ d', d.addPeer sha1 fuel contact = some d' ∧ d'.isComplete = true ∧
    d'.getTorrentData = m

/-- What `addPeer` does with a peer that succeeds. -/
theorem addPeer_of_success (hincomplete : d.isComplete = false)
    (h : d.downloadFromPeer sha1 fuel contact = some (true, d')) :
    d.addPeer sha1 fuel contact = some d' := by
  have hnot : ¬ d.complete = true := ne_true_of_eq_false hincomplete
  rw [addPeer, if_neg hnot, h]
  rfl

/-- A peer that completes a download has answered everything. -/
theorem fetches_of_addPeer (hincomplete : d.isComplete = false)
    (h : d.addPeer sha1 fuel contact = some d') (hcomplete : d'.isComplete = true) :
    ∃ d₁, Fetches fuel d contact d₁ := by
  have hnot : ¬ d.complete = true := ne_true_of_eq_false hincomplete
  rw [addPeer, if_neg hnot] at h
  obtain ⟨⟨success, d₂⟩, hdownload, rfl⟩ := Option.map_eq_some_iff.1 h
  rcases downloadFromPeer_cases hdownload with ⟨-, hkeeps⟩ | ⟨d₁, hfetches, -⟩
  · exact absurd (hkeeps.complete.symm.trans hcomplete) hnot
  · exact ⟨d₁, hfetches⟩

/-- A contact that succeeds with any large fuel completes the download. -/
theorem completes_of_download (hincomplete : d.isComplete = false) {N : ℕ}
    (hdownload : ∀ fuel ≥ N, d.downloadFromPeer sha1 fuel contact = some (true, d'))
    (hcomplete : d'.isComplete = true) (hdata : d'.getTorrentData = m) :
    d.Completes sha1 contact m :=
  ⟨N, fun fuel hfuel =>
    ⟨d', addPeer_of_success hincomplete (hdownload fuel hfuel), hcomplete, hdata⟩⟩

/-- 20 bytes of metadata. -/
def sampleMetadata : Bytes := List.replicate 20 'a'.toUInt8

/-- The extended handshake of a peer that serves them under an identifier. -/
def sampleAnnounce (k : UInt8) : BencodeDict :=
  [(ascii "m", .dict [(ascii "ut_metadata", .int k.toNat)]), (ascii "metadata_size", .int 20)]

/-- The peer, with some frames in front of its only answer. -/
def sampleService (k : UInt8) (others : List Bytes) : Service where
  hello := handshake sampleMagnet.infoHashRaw clientId
  handshake := encode (.dict (sampleAnnounce k))
  answers := [{ others, dict := [(ascii "msg_type", .int 1)] }]

theorem sampleAnnounce_announces (hk : k = 1 ∨ k = 2) :
    Announces (encode (.dict (sampleAnnounce k))) sampleMetadata k := by
  refine ⟨sampleAnnounce k, (encode (.dict (sampleAnnounce k))).length,
    [(ascii "ut_metadata", .int k.toNat)], ⟨10, ?_⟩, ?_, ?_, ?_⟩ <;>
    rcases hk with rfl | rfl <;> decide +kernel

theorem sampleAnnounce_length (hk : k = 1 ∨ k = 2) :
    2 + (encode (.dict (sampleAnnounce k))).length ≤ 100 := by
  rcases hk with rfl | rfl <;> decide +kernel

theorem samplePayload_length {others : List Bytes} :
    2 + (Answer.payload { others, dict := [(ascii "msg_type", .int 1)] } sampleMetadata 0).length ≤
      100 := by
  have hdict : (encode (.dict [(ascii "msg_type", .int 1)])).length = 15 := by decide +kernel
  have hslice : (slice sampleMetadata 0).length = 20 := by decide +kernel
  rw [Answer.payload, List.length_append, hdict, hslice]
  decide

theorem sampleService_answer {others : List Bytes} {i : ℕ} {a : Answer}
    (h : (sampleService k others).answers[i]? = some a) :
    i = 0 ∧ a = { others, dict := [(ascii "msg_type", .int 1)] } := by
  cases i with
  | zero => exact ⟨rfl, (Option.some.inj h).symm⟩
  | succ i => cases h

theorem sampleService_conventional {others : List Bytes} (hk : k = 1 ∨ k = 2)
    (hothers : ∀ frame ∈ others, Ordinary frame) :
    (sampleService k others).Conventional sampleMagnet.infoHashRaw sampleMetadata k where
  hello_length := by
    show (handshake sampleMagnet.infoHashRaw clientId).length = 68
    decide +kernel
  hello := by
    show handshakeAccepted sampleMagnet.infoHashRaw
      (handshake sampleMagnet.infoHashRaw clientId) = true
    decide +kernel
  others := nofun
  announces := sampleAnnounce_announces hk
  handshake_length := (sampleAnnounce_length hk).trans_lt (by decide)
  answers_length := rfl
  answers := by
    intro i a ha
    obtain ⟨rfl, rfl⟩ := sampleService_answer ha
    refine ⟨hothers, .dict (fun e he => ?_) (List.pairwise_singleton _ _), rfl,
      samplePayload_length.trans_lt (by decide)⟩
    rw [List.mem_singleton.1 he]
    exact .int (by norm_num) (by norm_num)

theorem sampleService_fits {others : List Bytes} {limit : ℕ} (hk : k = 1 ∨ k = 2)
    (hlimit : 100 ≤ limit) (hcount : others.length < 4096)
    (hothers : ∀ frame ∈ others, frame.length ≤ limit + 4) :
    (sampleService k others).Fits limit sampleMetadata := by
  refine ⟨⟨Nat.succ_pos 4095, nofun, (sampleAnnounce_length hk).trans hlimit⟩, fun i a ha => ?_⟩
  obtain ⟨rfl, rfl⟩ := sampleService_answer ha
  exact ⟨hcount, hothers, samplePayload_length.trans hlimit⟩

/-- **A peer that serves the metadata completes the download**: whatever the calls before have left
in the state, as long as it is not complete. The frames of the peer are at most 4 MiB long. -/
theorem addPeer_completes (sha1 : Bytes → Bytes) (d : MetadataDownloader) (m : Bytes) (k : UInt8)
    (s : Service) (contact : Contact) (hpos : 1 ≤ m.length) (hm : m.length ≤ 2 ^ 31 - 16384)
    (hhash : sha1 m = d.magnet.infoHashRaw) (hincomplete : d.isComplete = false) (hk : k ≠ 0)
    (hgood : s.Good maxFrame d.magnet.infoHashRaw m k) (hconnects : contact.connects = true)
    (h : Delivers [] contact.turns (s.items m k)) : d.Completes sha1 contact m := by
  obtain ⟨N, d', hdownload, hcomplete, hdata⟩ :=
    downloadFromPeer_serves hpos hm hhash hk hgood hconnects h
  exact completes_of_download hincomplete hdownload hcomplete hdata

/-- Metadata of two pieces. -/
def longMetadata : Bytes := List.replicate 20000 'a'.toUInt8

/-- A hash that knows them by their length. -/
def lengthHash (data : Bytes) : Bytes := if data.length = 20000 then sampleMagnet.infoHashRaw else []

/-- The extended handshake of a peer that serves them under the identifier 3. -/
def longAnnounce : BencodeDict :=
  [(ascii "m", .dict [(ascii "ut_metadata", .int 3)]), (ascii "metadata_size", .int 20000)]

/-- A frame of the peer protocol. -/
def plainFrame (id : UInt8) (body : Bytes) : Bytes := intToBytes (1 + body.length) ++ id :: body

/-- The peer, with a bitfield in front of its handshake, and with a keep-alive message, a have message
and an extended message under another identifier in front of its first answer. -/
def longService : Service where
  hello := handshake sampleMagnet.infoHashRaw clientId
  others := [plainFrame 5 [128]]
  handshake := encode (.dict longAnnounce)
  answers :=
    [{ others := [intToBytes 0, plainFrame 4 [0, 0, 0, 1], extendedFrame 9 [1]]
       dict := [(ascii "msg_type", .int 1), (ascii "piece", .int 0)] },
      { dict := [(ascii "msg_type", .int 1), (ascii "piece", .int 1)] }]

theorem plainFrame_skipped {id expected : UInt8} {body : Bytes} (hid : id ≠ extendedMessageId)
    (hlen : 1 + body.length ≤ maxFrame) : Skipped maxFrame expected (plainFrame id body) :=
  .plain hid hlen

theorem length_longMetadata : longMetadata.length = 20000 := List.length_replicate

theorem longAnswer_good {others : List Bytes} {i : ℕ} (hi : i < 2) (hcount : others.length < 4096)
    (hothers : ∀ frame ∈ others, Skipped maxFrame 3 frame) :
    Answer.Good { others, dict := [(ascii "msg_type", .int 1), (ascii "piece", .int i)] } maxFrame
      longMetadata 3 i where
  others_length := hcount
  others := hothers
  valid := by
    refine .dict (fun e he => ?_) ?_
    · rcases List.mem_pair.1 he with rfl | rfl
      · exact .int (by norm_num) (by norm_num)
      · exact .int (by omega) (by omega)
    · exact List.pairwise_pair.2 (show ascii "msg_type" < ascii "piece" by decide)
  msgType := rfl
  length := by
    have hdict : (encode (.dict [(ascii "msg_type", .int 1), (ascii "piece", .int i)])).length ≤ 100 := by
      interval_cases i <;> decide +kernel
    have hslice : (slice longMetadata i).length ≤ 16384 := by
      rw [slice, Slice.length_slice]
      exact min_le_left _ _
    have hmax : maxFrame = 4194304 := rfl
    rw [Answer.payload, List.length_append]
    dsimp only
    omega

theorem longService_good : longService.Good maxFrame sampleMagnet.infoHashRaw longMetadata 3 where
  hello_length := by
    show (handshake sampleMagnet.infoHashRaw clientId).length = 68
    decide +kernel
  hello := by
    show handshakeAccepted sampleMagnet.infoHashRaw
      (handshake sampleMagnet.infoHashRaw clientId) = true
    decide +kernel
  others_length := by decide
  others := List.forall_mem_singleton.2 (plainFrame_skipped (by decide) (by decide))
  announces := by
    refine ⟨longAnnounce, (encode (.dict longAnnounce)).length, [(ascii "ut_metadata", .int 3)],
      ⟨10, ?_⟩, ?_, ?_, ?_⟩
    · decide +kernel
    · rw [length_longMetadata]
      decide +kernel
    · decide +kernel
    · decide +kernel
  handshake_length := by
    show 2 + (encode (.dict longAnnounce)).length ≤ maxFrame
    decide +kernel
  answers_length := by
    rw [sliceCount, length_longMetadata]
    rfl
  answers := by
    intro i a ha
    rcases i with - | - | i
    · obtain rfl := Option.some.inj ha
      refine longAnswer_good (by decide) (by decide) ?_
      rw [List.forall_mem_cons, List.forall_mem_cons, List.forall_mem_singleton]
      exact ⟨.keepAlive, plainFrame_skipped (by decide) (by decide), .extended (by decide) (by decide)⟩
    · obtain rfl := Option.some.inj ha
      exact longAnswer_good (by decide) (by decide) (List.forall_mem_nil _)
    · cases ha

/-- A peer has announced another size and served other bytes; the next one completes the download. -/
theorem addPeer_completes_longService : ∃ d : MetadataDownloader,
    (init sampleMagnet).addPeer lengthHash 100 (serving (ascii "spoiled")) = some d ∧
      d.metadataSize = 20 ∧ d.pieces = [ascii "spoiled"] ∧
      d.Completes lengthHash { turns := (longService.items longMetadata 3).map some } longMetadata := by
  have hspoiled : ((init sampleMagnet).addPeer lengthHash 100 (serving (ascii "spoiled"))).map
      (fun d => (d.magnet.infoHashRaw, d.isComplete, d.metadataSize, d.pieces)) =
        some (sampleMagnet.infoHashRaw, false, 20, [ascii "spoiled"]) := by decide +kernel
  obtain ⟨d, hadd, hout⟩ := Option.map_eq_some_iff.1 hspoiled
  obtain ⟨hhash, hrest⟩ := Prod.mk.inj hout
  obtain ⟨hincomplete, hrest⟩ := Prod.mk.inj hrest
  obtain ⟨hsize, hpieces⟩ := Prod.mk.inj hrest
  refine ⟨d, hadd, hsize, hpieces, addPeer_completes lengthHash d longMetadata 3 longService _ ?_ ?_ ?_
    hincomplete (by decide) (hhash.symm ▸ longService_good) rfl (delivers_map _)⟩
  · rw [length_longMetadata]
    decide
  · rw [length_longMetadata]
    decide
  · rw [lengthHash, if_pos length_longMetadata, hhash]

/-- A frame of the peer protocol that is longer than 4 MiB. -/
def longFrame : Bytes := intToBytes (1 + maxFrame) ++ 0 :: List.replicate maxFrame 0

theorem longFrame_ordinary : Ordinary longFrame := by
  have hlength : (List.replicate maxFrame (0 : UInt8)).length = maxFrame := List.length_replicate
  have hmax : maxFrame = 4194304 := rfl
  have hplain : Ordinary (intToBytes (1 + (List.replicate maxFrame (0 : UInt8)).length) ++
      0 :: List.replicate maxFrame 0) := .plain (by decide) (by omega)
  rwa [hlength] at hplain

theorem length_longFrame : longFrame.length = maxFrame + 5 := by
  rw [longFrame, List.length_append, length_intToBytes, List.length_cons, List.length_replicate]
  omega

/-- A peer with a longer frame in front of its answer does not complete the download. -/
theorem not_forall_completes :
    ¬ ∀ (sha1 : Bytes → Bytes) (d : MetadataDownloader) (m : Bytes) (k : UInt8) (s : Service)
      (contact : Contact), 1 ≤ m.length → m.length ≤ 2 ^ 31 - 16384 →
      sha1 m = d.magnet.infoHashRaw → d.isComplete = false → k ≠ 0 →
      s.Good (2 ^ 32 - 1) d.magnet.infoHashRaw m k → contact.connects = true →
      Delivers [] contact.turns (s.items m k) → d.Completes sha1 contact m := by
  intro h
  have hconv : (sampleService 1 [longFrame]).Conventional sampleMagnet.infoHashRaw sampleMetadata 1 :=
    sampleService_conventional (.inl rfl) (List.forall_mem_singleton.2 longFrame_ordinary)
  have hmax : maxFrame = 4194304 := rfl
  have hfits : (sampleService 1 [longFrame]).Fits (2 ^ 32 - 1) sampleMetadata := by
    refine sampleService_fits (.inl rfl) (by decide) (by decide) (List.forall_mem_singleton.2 ?_)
    rw [length_longFrame]
    omega
  obtain ⟨N, hN⟩ := h id (init sampleMagnet) sampleMetadata 1 (sampleService 1 [longFrame])
    { turns := ((sampleService 1 [longFrame]).items sampleMetadata 1).map some } (by decide)
    (by decide) rfl rfl (by decide) (hconv.good hfits) rfl (delivers_map _)
  obtain ⟨d', hadd, hcomplete, -⟩ := hN N le_rfl
  obtain ⟨d₁, hfetches⟩ := fetches_of_addPeer rfl hadd hcomplete
  obtain ⟨-, hshort⟩ := hfetches.exact (by decide) (by decide) (by decide) hconv rfl
  have hlong := (hshort.answers 0 _ rfl).others longFrame (List.mem_singleton_self _)
  rw [length_longFrame] at hlong
  omega

/-- **The identifier of the answers**: a peer that answers each request under the identifier that
the client has announced completes the download if and only if its own identifier is the same one,
and all that it sends is within the limits. Each item arrives when it is due, and nothing else does:
`Delivers` lets more arrive behind it, for example a second answer under `k`, and then a peer with
another identifier may complete the download. -/
theorem addPeer_completes_iff (sha1 : Bytes → Bytes) (d : MetadataDownloader) (m : Bytes) (k : UInt8)
    (s : Service) (contact : Contact) (hpos : 1 ≤ m.length) (hm : m.length ≤ 2 ^ 31 - 16384)
    (hhash : sha1 m = d.magnet.infoHashRaw) (hincomplete : d.isComplete = false) (hk : k ≠ 0)
    (hs : s.Conventional d.magnet.infoHashRaw m k) (hconnects : contact.connects = true)
    (hturns : contact.turns = (s.items m ownId).map some) :
    d.Completes sha1 contact m ↔ k = ownId ∧ s.Fits maxFrame m := by
  constructor
  · rintro ⟨N, hN⟩
    obtain ⟨d', hadd, hcomplete, -⟩ := hN N le_rfl
    obtain ⟨d₁, hfetches⟩ := fetches_of_addPeer hincomplete hadd hcomplete
    obtain ⟨hid, hfits⟩ := hfetches.exact hpos hm hk hs hturns
    exact ⟨hid.symm, hfits⟩
  · rintro ⟨rfl, hfits⟩
    have hdelivers : Delivers [] contact.turns (s.items m ownId) := by
      rw [hturns]
      exact delivers_map _
    obtain ⟨N, d', hdownload, hcomplete, hdata⟩ :=
      downloadFromPeer_serves hpos hm hhash hk (hs.good hfits) hconnects hdelivers
    exact completes_of_download hincomplete hdownload hcomplete hdata

/-- `addPeer_completes_iff` for a peer with the identifier of the client. -/
theorem addPeer_completes_iff_one : (init sampleMagnet).Completes id
    { turns := ((sampleService 1 []).items sampleMetadata ownId).map some } sampleMetadata :=
  (addPeer_completes_iff id (init sampleMagnet) sampleMetadata 1 (sampleService 1 []) _ (by decide)
    (by decide) rfl rfl (by decide) (sampleService_conventional (.inl rfl) (List.forall_mem_nil _)) rfl rfl).2
    ⟨rfl, sampleService_fits (.inl rfl) (by decide) (by decide) (List.forall_mem_nil _)⟩

/-- A peer with the identifier 2 that answers under the one of the client does not complete the
download. -/
theorem not_forall_conventional :
    ¬ ∀ (sha1 : Bytes → Bytes) (d : MetadataDownloader) (m : Bytes) (k : UInt8) (s : Service)
      (contact : Contact), 1 ≤ m.length → m.length ≤ 2 ^ 31 - 16384 →
      sha1 m = d.magnet.infoHashRaw → d.isComplete = false → k ≠ 0 →
      s.Conventional d.magnet.infoHashRaw m k → contact.connects = true →
      contact.turns = (s.items m ownId).map some → d.Completes sha1 contact m := by
  intro h
  have hconv : (sampleService 2 []).Conventional sampleMagnet.infoHashRaw sampleMetadata 2 :=
    sampleService_conventional (.inr rfl) (List.forall_mem_nil _)
  obtain ⟨N, hN⟩ := h id (init sampleMagnet) sampleMetadata 2 (sampleService 2 [])
    { turns := ((sampleService 2 []).items sampleMetadata ownId).map some } (by decide) (by decide)
    rfl rfl (by decide) hconv rfl rfl
  obtain ⟨d', hadd, hcomplete, -⟩ := hN N le_rfl
  obtain ⟨d₁, hfetches⟩ := fetches_of_addPeer rfl hadd hcomplete
  obtain ⟨hid, -⟩ := hfetches.exact (by decide) (by decide) (by decide) hconv rfl
  exact absurd hid (by decide)

end Gush.MetadataDownloader
