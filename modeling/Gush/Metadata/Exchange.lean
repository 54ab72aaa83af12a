import Gush.Bencode.RoundTrip
import Gush.Lib.Slice
import Gush.Metadata.Frames
import Gush.Metadata.Integrity

/-!
# Metadata from one peer

A peer that serves metadata sends its handshake, an extended handshake that announces the size and
an identifier, and for each request an answer with a slice of the metadata; other frames may stand
in front of each of them.

`downloadFromPeer_serves` says that the client then has the metadata, if it looks for the answers
under the identifier that they have. What the state was before plays no part.
-/

namespace Gush.Metadata

open Cxx Bencode Wire

/-! ### What the peer serves -/

/-- A slice of the metadata. -/
def slice (m : Bytes) (i : ℕ) : Bytes := Slice.slice m (i * metadataPieceSize) metadataPieceSize

/-- The number of slices. -/
def sliceCount (m : Bytes) : ℕ := (m.length + 16383) / 16384

/-- An answer: the frames in front of it, and the dictionary in front of the slice. -/
structure Answer where
  others : List Bytes := []
  dict : BencodeDict

/-- What a peer sends: its handshake, the frames in front of its extended handshake and the payload
of the latter, and its answers. -/
structure Service where
  hello : Bytes
  others : List Bytes := []
  handshake : Bytes
  answers : List Answer

/-- The payload of the answer to the request `i`. -/
def Answer.payload (a : Answer) (m : Bytes) (i : ℕ) : Bytes := encode (.dict a.dict) ++ slice m i

/-- The bytes of some answers, from the request `i` on. -/
def answerItems (m : Bytes) (answerId : UInt8) : ℕ → List Answer → List Bytes
  | _, [] => []
  | i, a :: answers =>
    (a.others.flatten ++ extendedFrame answerId (a.payload m i)) ::
      answerItems m answerId (i + 1) answers

/-- What the peer sends behind each message of the client. -/
def Service.items (s : Service) (m : Bytes) (answerId : UInt8) : List Bytes :=
  s.hello :: (s.others.flatten ++ extendedFrame extendedHandshakeId s.handshake) ::
    answerItems m answerId 0 s.answers

/-- An answer to a request: at most 4095 frames that are skipped, and a data message whose
dictionary says so. -/
structure Answer.Good (a : Answer) (limit : ℕ) (m : Bytes) (expected : UInt8) (i : ℕ) : Prop where
  others_length : a.others.length < 4096
  others : ∀ frame ∈ a.others, Skipped limit expected frame
  valid : (BencodeValue.dict a.dict).Valid
  msgType : dictGet a.dict (ascii "msg_type") = some (.int 1)
  length : 2 + (a.payload m i).length ≤ limit

/-- The payload of an extended handshake announces the size of the metadata and an identifier. -/
def Announces (payload m : Bytes) (k : UInt8) : Prop :=
  ∃ dict p mapping, Parses payload 0 (.ok (.dict dict, p)) ∧
    dictGet dict (ascii "metadata_size") = some (.int m.length) ∧
    dictGet dict (ascii "m") = some (.dict mapping) ∧
    dictGet mapping (ascii "ut_metadata") = some (.int k.toNat)

/-- A peer that serves the metadata `m` under its identifier `k`, with frames up to a limit. -/
structure Service.Good (s : Service) (limit : ℕ) (infoHash m : Bytes) (k : UInt8) : Prop where
  hello_length : s.hello.length = 68
  hello : handshakeAccepted infoHash s.hello = true
  others_length : s.others.length < 4096
  others : ∀ frame ∈ s.others, Skipped limit extendedHandshakeId frame
  announces : Announces s.handshake m k
  handshake_length : 2 + s.handshake.length ≤ limit
  answers_length : s.answers.length = sliceCount m
  answers : ∀ (i : ℕ) (a : Answer), s.answers[i]? = some a → a.Good limit m k i

/-- Behind each message of the client, the next item has arrived completely, whatever else has
arrived: `queue` is what has arrived before. -/
inductive Delivers : Bytes → List (Option Bytes) → List Bytes → Prop
  | nil (queue : Bytes) (turns : List (Option Bytes)) : Delivers queue turns []
  | cons {queue bytes item queue' : Bytes} {turns : List (Option Bytes)} {items : List Bytes}
      (arrived : queue ++ bytes = item ++ queue') (rest : Delivers queue' turns items) :
      Delivers queue (some bytes :: turns) (item :: items)

/-! ### Slices -/

section

variable {m : Bytes}

theorem slice_nonempty {i : ℕ} (h : i < sliceCount m) : slice m i ≠ [] := by
  have hc : metadataPieceSize = 16384 := rfl
  unfold sliceCount at h
  refine List.ne_nil_of_length_pos ?_
  rw [slice, Slice.length_slice, hc]
  omega

theorem flatten_slices (m : Bytes) : ((List.range (sliceCount m)).map (slice m)).flatten = m := by
  have hc : metadataPieceSize = 16384 := rfl
  have hslices := Slice.flatten_slices m metadataPieceSize (sliceCount m)
  have hall : m.take (sliceCount m * metadataPieceSize) = m := by
    apply List.take_of_length_le
    rw [sliceCount, hc]
    omega
  exact hslices.trans hall

/-- The number of pieces is computed without loss. At `2 ^ 31 - 16384` the sum overflows, which the
language leaves undefined (`roundUp_eq_none_iff`); here it wraps around. -/
theorem pieceCount_eq (h : m.length ≤ 2 ^ 31 - 16384) :
    MetadataDownloader.pieceCount m.length = sliceCount m := by
  have hc : metadataPieceSize = 16384 := rfl
  have hwrap : int32 (int32 ((m.length : ℤ) + metadataPieceSize) - 1) = (m.length : ℤ) + 16383 := by
    have hmod : int32 (int32 ((m.length : ℤ) + metadataPieceSize) - 1) =
        int32 ((m.length : ℤ) + metadataPieceSize - 1) := Int.bmod_sub_bmod
    rw [hmod, hc, int32_of_range (by omega) (by omega)]
    omega
  rw [MetadataDownloader.pieceCount, hwrap, Int.tdiv_eq_ediv_of_nonneg (by omega), sliceCount, hc]
  omega

end

/-! ### One item after the other -/

/-- A send is followed by the next item. -/
theorem sendFull_delivers {sock : Link} {item : Bytes} {items : List Bytes}
    (h : Delivers sock.incoming sock.turns (item :: items)) (data : Bytes) :
    ∃ sock' queue, sock.sendFull data = (true, sock') ∧ sock'.incoming = item ++ queue ∧
      Delivers queue sock'.turns items := by
  rcases sock with ⟨⟨incoming, outgoing⟩, turns⟩
  cases h with
  | @cons _ bytes _ queue turns _ arrived rest =>
    exact ⟨_, queue, rfl, arrived, rest⟩

/-- A send, and an extended message behind frames that are skipped. -/
theorem readItem_delivers {sock : Link} {expected : UInt8} {others : List Bytes} {payload : Bytes}
    {items : List Bytes} (hcount : others.length < 4096)
    (hothers : ∀ frame ∈ others, Skipped maxFrame expected frame)
    (hlen : 2 + payload.length ≤ maxFrame)
    (h : Delivers sock.incoming sock.turns
      ((others.flatten ++ extendedFrame expected payload) :: items)) (data : Bytes) :
    ∃ sock' sock'', sock.sendFull data = (true, sock') ∧
      readExtendedMessage sock' expected = (some payload, sock'') ∧
      Delivers sock''.incoming sock''.turns items := by
  obtain ⟨sock', queue, hsend, hincoming, hrest⟩ := sendFull_delivers h data
  exact ⟨sock', sock'.leave queue, hsend, readLoop_frames hothers hcount hlen hincoming, hrest⟩

end Gush.Metadata

namespace Gush.MetadataDownloader

open Cxx Bencode Wire Metadata

variable {sha1 : Bytes → Bytes} {d d' : MetadataDownloader} {m : Bytes} {k : UInt8} {sock : Link}

theorem performHandshake_of_send {sock' : Link} {hello queue : Bytes} (hlen : hello.length = 68)
    (haccepted : handshakeAccepted d.magnet.infoHashRaw hello = true)
    (hsend : sock.sendFull (handshake d.magnet.infoHashRaw clientId) = (true, sock'))
    (hincoming : sock'.incoming = hello ++ queue) :
    d.performHandshake sock = (true, sock'.leave queue) := by
  rw [performHandshake, hsend]
  dsimp only
  rw [Link.recvFull_append hincoming hlen.symm]
  dsimp only
  rw [haccepted]

theorem performHandshake_delivers {hello : Bytes} {items : List Bytes}
    (hlen : hello.length = 68) (haccepted : handshakeAccepted d.magnet.infoHashRaw hello = true)
    (h : Delivers sock.incoming sock.turns (hello :: items)) :
    ∃ sock', d.performHandshake sock = (true, sock') ∧
      Delivers sock'.incoming sock'.turns items := by
  obtain ⟨sock', queue, hsend, hincoming, hrest⟩ :=
    sendFull_delivers h (handshake d.magnet.infoHashRaw clientId)
  exact ⟨sock'.leave queue, performHandshake_of_send hlen haccepted hsend hincoming, hrest⟩

/-- The state behind an extended handshake. -/
structure Ready (d d' : MetadataDownloader) (m : Bytes) : Prop where
  keeps : Keeps d d'
  metadataSize : d'.metadataSize = m.length
  numPieces : d'.numPieces = sliceCount m
  pieces : d'.pieces.length = sliceCount m

/-- An announced size that gives no exception. -/
theorem announceSize_eq {dict : BencodeDict} {value size count : ℤ} {pieces : List Bytes}
    (hvalue : dictGetInt dict (ascii "metadata_size") = some value) (hsize : int32 value = size)
    (hcount : pieceCount size = count) (hpieces : resizePieces d.pieces count = some pieces) :
    d.announceSize dict = (true, { d with metadataSize := size, numPieces := count, pieces }) := by
  subst hsize hcount
  rw [announceSize, hvalue]
  simp only [hpieces]

/-- An extended handshake sets the size and the number of pieces, whatever they were. -/
theorem readHandshake_announces {payload : Bytes} (hm : m.length ≤ 2 ^ 31 - 16384)
    (h : Announces payload m k) :
    ∃ r d', Parses payload 0 r ∧ d.readHandshake r = (some (k.toNat : ℤ), d') ∧ Ready d d' m := by
  obtain ⟨dict, p, mapping, hparse, hvalue, hmapping, hid⟩ := h
  have hk : int32 (k.toNat : ℤ) = k.toNat := by
    have hlt := k.toNat_lt
    exact int32_of_range (by omega) (by omega)
  have hannounced : announcedId dict = k.toNat := by
    have hget : dictGetInt mapping (ascii "ut_metadata") = some (k.toNat : ℤ) := by
      rw [dictGetInt, hid]
    rw [announcedId, hmapping]
    dsimp only
    rw [hget]
    exact hk
  have hpieces : resizePieces d.pieces (sliceCount m) =
      some ((d.pieces ++ List.replicate (sliceCount m) []).take (sliceCount m)) := by
    rw [resizePieces, if_neg (by omega), Int.toNat_natCast]
  have hannounce := announceSize_eq (by rw [dictGetInt, hvalue])
    (int32_of_range (by omega) (by omega)) (pieceCount_eq hm) hpieces
  refine ⟨.ok (.dict dict, p), _, hparse, (?_ : _ = (_, Prod.snd (d.announceSize dict))), ?_⟩
  · rw [readHandshake, hannounce]
    dsimp only
    rw [hannounced]
  · rw [hannounce]
    exact ⟨⟨rfl, rfl, rfl⟩, rfl, rfl, by simp⟩

/-- What `exchangeExtensions` does once it has read an extended handshake. -/
theorem exchangeExtensions_announces {sock' sock'' : Link} {payload : Bytes} (hpos : 1 ≤ m.length)
    (hm : m.length ≤ 2 ^ 31 - 16384) (hk : k ≠ 0) (h : Announces payload m k)
    (hsend : sock.sendFull (extendedFrame extendedHandshakeId (ascii "d1:md2:ut_metadatai1ee")) =
      (true, sock'))
    (hread : readExtendedMessage sock' extendedHandshakeId = (some payload, sock'')) :
    ∃ r d', Parses payload 0 r ∧ Ready d d' m ∧ ∀ fuel, d.exchangeExtensions fuel sock =
      (parseImpl fuel payload 0).map fun _ => (some (k.toNat : ℤ), d', sock'') := by
  obtain ⟨r, d', hparse, hreadHandshake, hready⟩ := readHandshake_announces (d := d) hm h
  refine ⟨r, d', hparse, hready, fun fuel => ?_⟩
  have hkpos : (0 : ℤ) < k.toNat := by
    have hne : k.toNat ≠ 0 := fun h => hk (UInt8.toNat_inj.1 h)
    omega
  have hsize : 0 < d'.metadataSize := by
    rw [hready.metadataSize]
    omega
  rw [exchangeExtensions, hsend]
  dsimp only
  rw [hread]
  dsimp only
  rcases hfuel : parseImpl fuel payload 0 with - | r'
  · rfl
  · obtain rfl := hparse.unique ⟨fuel, hfuel⟩
    rw [Option.map_some, Option.map_some, hreadHandshake]
    dsimp only
    rw [if_pos ⟨hkpos, hsize⟩]

/-! ### The requests -/

/-- The slice of an answer becomes the piece. -/
theorem acceptPiece_payload {a : Answer} {i : ℕ} (pieces : List Bytes)
    (htype : dictGet a.dict (ascii "msg_type") = some (.int 1)) (hi : i < sliceCount m) :
    acceptPiece pieces i (a.payload m i) (.ok (.dict a.dict, (encode (.dict a.dict)).length)) =
      some (pieces.set i (slice m i)) := by
  have hmsgType : msgType a.dict = 1 := by
    rw [msgType, dictGetInt, htype]
    decide
  have hdata : (encode (.dict a.dict)).length < (a.payload m i).length := by
    have hpos := List.length_pos_of_ne_nil (slice_nonempty hi)
    rw [Answer.payload, List.length_append]
    omega
  rw [acceptPiece, if_pos hmsgType, if_pos hdata, Answer.payload, List.drop_left]

/-- The slices of a run of answers become the pieces. -/
theorem requestLoop_delivers {answers : List Answer} {i : ℕ} (pieces : List Bytes)
    (hgood : ∀ (j : ℕ) (a : Answer), answers[j]? = some a → a.Good maxFrame m k (i + j))
    (hend : i + answers.length ≤ sliceCount m)
    (h : Delivers sock.incoming sock.turns (answerItems m k i answers)) :
    ∃ N sock', ∀ fuel ≥ N, requestLoop fuel k (List.range' i answers.length) pieces sock =
      some (true, (List.range' i answers.length).foldl (fun pieces j => pieces.set j (slice m j))
        pieces, sock') := by
  induction answers generalizing i pieces sock with
  | nil => exact ⟨0, sock, fun fuel _ => rfl⟩
  | cons a answers ih =>
    have ha : a.Good maxFrame m k i := hgood 0 a rfl
    rw [List.length_cons] at hend
    have hmax : maxFrame = 4194304 := rfl
    have hlen := ha.length
    obtain ⟨sock', sock'', hsend, hread, hrest⟩ :=
      readItem_delivers ha.others_length ha.others hlen h (extendedFrame k (requestDict i))
    obtain ⟨M, hparse⟩ : Parses (a.payload m i) 0
        (.ok (.dict a.dict, 0 + (encode (.dict a.dict)).length)) :=
      parses_encode_at (by omega) ha.valid rfl
    rw [Nat.zero_add] at hparse
    have hgood' : ∀ (j : ℕ) (b : Answer), answers[j]? = some b → b.Good maxFrame m k (i + 1 + j) := by
      intro j b hb
      have hgoodb := hgood (j + 1) b hb
      rwa [show i + (j + 1) = i + 1 + j by omega] at hgoodb
    obtain ⟨N, sock₃, hloop⟩ := ih (pieces.set i (slice m i)) hgood' (by omega) hrest
    refine ⟨max M N, sock₃, fun fuel hfuel => ?_⟩
    rw [List.length_cons, List.range'_succ, requestLoop, hsend]
    dsimp only
    rw [hread]
    dsimp only
    rw [parseImpl_mono (le_of_max_le_left hfuel) hparse]
    dsimp only
    rw [acceptPiece_payload pieces ha.msgType (by omega)]
    exact hloop fuel (le_of_max_le_right hfuel)

theorem ofInt_toNat (k : UInt8) : UInt8.ofInt (k.toNat : ℤ) = k := by
  have hlt := k.toNat_lt
  have hmod : ((k.toNat : ℤ) % 2 ^ 8).toNat = k.toNat := by omega
  rw [UInt8.ofInt, hmod, UInt8.ofNat_toNat]

/-- All slices together pass the checks. -/
theorem verify_slices (hready : Ready d d' m) (hm : m.length ≤ 2 ^ 31 - 16384)
    (hhash : sha1 m = d.magnet.infoHashRaw) :
    ∃ d'', { d' with pieces := (List.range (sliceCount m)).map (slice m) }.verify sha1 = (true, d'') ∧
      d''.isComplete = true ∧ d''.getTorrentData = m := by
  have hint : int32 (m.length : ℤ) = m.length := int32_of_range (by omega) (by omega)
  have hflatten := flatten_slices m
  rcases verify_cases sha1 { d' with pieces := (List.range (sliceCount m)).map (slice m) } with
    ⟨-, hverify⟩ | ⟨hmatches, -⟩
  · exact ⟨_, hverify, rfl, hflatten⟩
  · refine absurd ⟨?_, ?_⟩ hmatches <;> dsimp only <;> rw [hflatten]
    · exact hint.trans hready.metadataSize.symm
    · exact hhash.trans (congrArg _ hready.keeps.magnet).symm

/-- The whole exchange with a peer that serves the metadata. -/
theorem downloadFromPeer_serves {s : Service} {contact : Contact} (hpos : 1 ≤ m.length)
    (hm : m.length ≤ 2 ^ 31 - 16384) (hhash : sha1 m = d.magnet.infoHashRaw) (hk : k ≠ 0)
    (hgood : s.Good maxFrame d.magnet.infoHashRaw m k) (hconnects : contact.connects = true)
    (h : Delivers [] contact.turns (s.items m k)) :
    ∃ N d', (∀ fuel ≥ N, d.downloadFromPeer sha1 fuel contact = some (true, d')) ∧
      d'.isComplete = true ∧ d'.getTorrentData = m := by
  obtain ⟨sock₁, hhandshake, h₁⟩ : ∃ sock₁, d.performHandshake { turns := contact.turns } =
      (true, sock₁) ∧ Delivers sock₁.incoming sock₁.turns _ :=
    performHandshake_delivers hgood.hello_length hgood.hello h
  obtain ⟨sock₂, sock₃, hsend, hread, h₃⟩ := readItem_delivers hgood.others_length hgood.others
    hgood.handshake_length h₁ (extendedFrame extendedHandshakeId (ascii "d1:md2:ut_metadatai1ee"))
  obtain ⟨r, d₁, ⟨M, hparse⟩, hready, hexchange⟩ :=
    exchangeExtensions_announces (d := d) hpos hm hk hgood.announces hsend hread
  have hanswers : ∀ (j : ℕ) (a : Answer), s.answers[j]? = some a → a.Good maxFrame m k (0 + j) := by
    intro j a ha
    rw [Nat.zero_add]
    exact hgood.answers j a ha
  have hlength := hgood.answers_length
  obtain ⟨N, sock₄, hloop⟩ := requestLoop_delivers d₁.pieces hanswers (by omega) h₃
  obtain ⟨d₂, hverify, hcomplete, hdata⟩ := verify_slices hready hm hhash
  refine ⟨max M N, d₂, fun fuel hfuel => ?_, hcomplete, hdata⟩
  have hrequest : d₁.requestMetadata sha1 fuel sock₃ k.toNat = some (true, d₂, sock₄) := by
    have hrange : List.range d₁.numPieces.toNat = List.range' 0 s.answers.length := by
      rw [hready.numPieces, Int.toNat_natCast, hlength, List.range_eq_range']
    have hpieces : (List.range' 0 s.answers.length).foldl
        (fun pieces j => pieces.set j (slice m j)) d₁.pieces =
          (List.range (sliceCount m)).map (slice m) := by
      rw [hlength, ← List.range_eq_range', Slice.foldl_set_range hready.pieces.ge,
        List.drop_of_length_le hready.pieces.le, List.append_nil]
    rw [requestMetadata, ofInt_toNat, hrange, hloop fuel (le_of_max_le_right hfuel), hpieces]
    dsimp only
    rw [hverify]
  rw [downloadFromPeer, if_pos hconnects, hhandshake]
  dsimp only
  rw [hexchange, parseImpl_mono (le_of_max_le_left hfuel) hparse]
  dsimp only [Option.map_some]
  rw [if_neg (by omega), hrequest]
  rfl

end Gush.MetadataDownloader
