import Gush.Bencode.RoundTrip
import Gush.Metadata.Frames

/-!
# The extended messages of the client

The client sends three kinds of extended messages: the handshake of a metadata download, the requests
for pieces of metadata, and the handshake of a peer connection. The first two are written by hand.
`wellFormed_iff` says which of them are frames whose body the parser reads as the intended dictionary;
`outgoing_exchangeExtensions`, `outgoing_requestMetadata` and `outgoing_sendExtensionHandshake` say
that nothing else is sent.
-/

namespace Gush.Metadata

open Cxx Bencode Wire
open Downloader (bytesToInt)

/-- An extended message that the client sends. A piece index is an `int`. -/
inductive ClientMessage where
  | metadataHandshake
  | request (metadataExtId : ℤ) (i : ℕ) (hi : i < 2 ^ 31)
  | pexHandshake

namespace ClientMessage

/-- The message of `sendExtensionHandshake`. -/
def pexMessage : Wire.PeerMessage :=
  let payload := 0 :: encode (.dict PeerConnection.extensionHandshake)
  { id := .extended, payload, length := 1 + payload.length }

/-- What is sent. -/
def bytes : ClientMessage → Bytes
  | metadataHandshake => extendedFrame extendedHandshakeId (ascii "d1:md2:ut_metadatai1ee")
  | request metadataExtId i _ =>
    extendedFrame (UInt8.ofInt metadataExtId) (MetadataDownloader.requestDict i)
  | pexHandshake => pexMessage.bytes

/-- The dictionary that is meant. -/
def meaning : ClientMessage → BencodeDict
  | metadataHandshake => [(ascii "m", .dict [(ascii "ut_metadata", .int 1)])]
  | request _ i _ => [(ascii "msg_type", .int 0), (ascii "piece", .int i)]
  | pexHandshake => [(ascii "m", .dict [(ascii "ut_pex", .int 1)])]

end ClientMessage

/-- The length in front is the number of the bytes behind it, and behind the two identifiers the
parser reads a dictionary, to the end. -/
structure WellFormed (bytes : Bytes) (dict : BencodeDict) : Prop where
  six_le : 6 ≤ bytes.length
  length : bytesToInt bytes = bytes.length - 4
  id : bytes[4]? = some extendedMessageId
  body : Parses (bytes.drop 6) 0 (.ok (.dict dict, (bytes.drop 6).length))

/-! ### Which messages are well-formed -/

/-- The frame of an extended message. -/
theorem wellFormed_extendedFrame {extId : UInt8} {body : Bytes} {dict : BencodeDict}
    (hlen : 2 + body.length < 2 ^ 32) (h : Parses body 0 (.ok (.dict dict, body.length))) :
    WellFormed (extendedFrame extId body) dict where
  six_le := by
    simp [extendedFrame]
    omega
  length := by
    rw [extendedFrame, bytesToInt_intToBytes (by omega)]
    simp
    omega
  id := by simp [extendedFrame]
  body := by
    have hdrop : (extendedFrame extId body).drop 6 = body := by
      simp [extendedFrame, List.drop_append]
    rwa [hdrop]

/-- The encoding of a dictionary is read back. -/
theorem parses_encode_dict {dict : BencodeDict} (hvalid : (BencodeValue.dict dict).Valid)
    (hlen : (encode (.dict dict)).length < 2 ^ 63) :
    Parses (encode (.dict dict)) 0 (.ok (.dict dict, (encode (.dict dict)).length)) := by
  have hparse : Parses (encode (.dict dict)) 0
      (.ok (.dict dict, 0 + (encode (.dict dict)).length)) :=
    parses_encode_at hlen hvalid (List.append_nil _).symm
  rwa [Nat.zero_add] at hparse

/-- The text of a request is the encoding of its dictionary. -/
theorem requestDict_eq (i : ℕ) : MetadataDownloader.requestDict i =
    encode (.dict [(ascii "msg_type", .int 0), (ascii "piece", .int i)]) := by
  have hfront : ascii "d8:msg_typei0e5:piecei" = 'd'.toUInt8 :: (encodeString (ascii "msg_type") ++
      (encode (.int 0) ++ (encodeString (ascii "piece") ++ ['i'.toUInt8]))) := by
    decide +kernel
  have hback : ascii "ee" = ['e'.toUInt8, 'e'.toUInt8] := by decide
  rw [MetadataDownloader.requestDict, hfront, hback]
  simp [encode, encodeEntries, showInt]

theorem valid_requestDict {i : ℕ} (hi : i < 2 ^ 31) :
    (BencodeValue.dict [(ascii "msg_type", .int 0), (ascii "piece", .int i)]).Valid := by
  have hkeys : ascii "msg_type" < ascii "piece" := by decide
  refine .dict (fun e he => ?_) (List.pairwise_pair.2 hkeys)
  rcases List.mem_pair.1 he with rfl | rfl
  · exact .int (by norm_num) (by norm_num)
  · exact .int (by omega) (by omega)

/-- The text of a request is short. -/
theorem length_requestDict {i : ℕ} (hi : i < 2 ^ 31) :
    (MetadataDownloader.requestDict i).length ≤ 34 := by
  have hnumeral : (Decimal.numeral i).length ≤ 10 :=
    (Decimal.length_numeral_le_iff (by norm_num)).2 (by omega)
  have hfront : (ascii "d8:msg_typei0e5:piecei").length = 22 := by decide
  have hback : (ascii "ee").length = 2 := by decide
  rw [MetadataDownloader.requestDict, List.length_append, List.length_append]
  omega

/-- The handshake of a connection is framed in the same way, by other code. -/
theorem pexMessage_bytes : ClientMessage.pexMessage.bytes =
    extendedFrame extendedHandshakeId (encode (.dict PeerConnection.extensionHandshake)) := by
  rw [extendedFrame, PeerMessage.bytes, ClientMessage.pexMessage]
  dsimp only
  rw [List.length_cons, if_pos (by omega), ← Nat.add_assoc, Nat.add_right_comm]
  rfl

/-- The handshake of a metadata download is not bencode: its key ends behind `ut`. -/
theorem parses_metadataHandshake :
    Parses ((ClientMessage.bytes .metadataHandshake).drop 6) 0
      (.error (.runtimeError (ascii "Invalid bencode character: _"))) :=
  ⟨10, by decide +kernel⟩

/-- **Main result.** All extended messages of the client are well-formed, except for the handshake of
a metadata download: the key `ut_metadata` is written with the length two. -/
theorem wellFormed_iff (m : ClientMessage) :
    WellFormed m.bytes m.meaning ↔ m ≠ .metadataHandshake := by
  cases m with
  | metadataHandshake =>
    refine ⟨fun h => ?_, fun h => absurd rfl h⟩
    cases parses_metadataHandshake.unique h.body
  | request metadataExtId i hi =>
    refine ⟨fun _ => ClientMessage.noConfusion, fun _ => ?_⟩
    have hlen := length_requestDict hi
    refine wellFormed_extendedFrame (by omega) ?_
    rw [requestDict_eq] at hlen ⊢
    exact parses_encode_dict (valid_requestDict hi) (by omega)
  | pexHandshake =>
    refine ⟨fun _ => ClientMessage.noConfusion, fun _ => ?_⟩
    have hvalid : (BencodeValue.dict PeerConnection.extensionHandshake).Valid := by
      refine .dict (fun e he => ?_) (List.pairwise_singleton _ _)
      rw [List.mem_singleton.1 he]
      refine .dict (fun e he => ?_) (List.pairwise_singleton _ _)
      rw [List.mem_singleton.1 he]
      exact .int (by norm_num) (by norm_num)
    rw [ClientMessage.bytes, pexMessage_bytes]
    exact wellFormed_extendedFrame (by decide) (parses_encode_dict hvalid (by decide))

theorem not_forall_wellFormed : ¬ ∀ m : ClientMessage, WellFormed m.bytes m.meaning := by
  intro h
  cases parses_metadataHandshake.unique (h .metadataHandshake).body

/-! ### What is sent -/

/-- Bytes are the given ones and some extended messages behind them. -/
def SendsMessages (before after : Bytes) : Prop :=
  ∃ sent : List ClientMessage, after = before ++ sent.flatMap ClientMessage.bytes

theorem SendsMessages.refl (before : Bytes) : SendsMessages before before := ⟨[], by simp⟩

theorem SendsMessages.trans {a b c : Bytes} (h : SendsMessages a b) (h' : SendsMessages b c) :
    SendsMessages a c := by
  obtain ⟨sent, rfl⟩ := h
  obtain ⟨sent', rfl⟩ := h'
  exact ⟨sent ++ sent', by simp⟩

variable {sock sock' : Link}

theorem Link.outgoing_recvFull {size : ℕ} {received : Option Bytes}
    (h : sock.recvFull size = (received, sock')) : sock'.outgoing = sock.outgoing := by
  have hout : (sock.recvFull size).2.outgoing = sock.outgoing := by
    rw [recvFull, Socket.recvAll]
    split_ifs <;> rfl
  rwa [h] at hout

theorem Link.sends_sendFull {sent : Bool} {m : ClientMessage}
    (h : sock.sendFull m.bytes = (sent, sock')) : SendsMessages sock.outgoing sock'.outgoing := by
  unfold sendFull at h
  split at h <;> cases h
  · exact ⟨[m], by simp⟩
  · exact .refl _
  · exact .refl _

/-- However a round ends, its socket has sent nothing more. -/
theorem outgoing_readRound (expected : UInt8) (sock : Link) :
    ∃ sock' : Link, sock'.outgoing = sock.outgoing ∧ ((readRound expected sock).2 = .stop sock' ∨
      (readRound expected sock).2 = .next sock' ∨
      ∃ payload, (readRound expected sock).2 = .found payload sock') := by
  rw [readRound]
  rcases h₁ : sock.recvFull 4 with ⟨- | lenBuf, sock₁⟩
  · exact ⟨sock₁, Link.outgoing_recvFull h₁, .inl rfl⟩
  have hout₁ := Link.outgoing_recvFull h₁
  dsimp only
  split_ifs
  · exact ⟨sock₁, hout₁, .inr (.inl rfl)⟩
  · exact ⟨sock₁, hout₁, .inl rfl⟩
  rcases h₂ : sock₁.recvFull 1 with ⟨- | idBuf, sock₂⟩
  · exact ⟨sock₂, (Link.outgoing_recvFull h₂).trans hout₁, .inl rfl⟩
  have hout₂ := (Link.outgoing_recvFull h₂).trans hout₁
  dsimp only
  split_ifs
  · rcases h₃ : sock₂.recvFull (bytesToInt lenBuf - 1) with ⟨- | skip, sock₃⟩
    · exact ⟨sock₃, (Link.outgoing_recvFull h₃).trans hout₂, .inl rfl⟩
    · exact ⟨sock₃, (Link.outgoing_recvFull h₃).trans hout₂, .inr (.inl rfl)⟩
  rcases h₃ : sock₂.recvFull 1 with ⟨- | extBuf, sock₃⟩
  · exact ⟨sock₃, (Link.outgoing_recvFull h₃).trans hout₂, .inl rfl⟩
  have hout₃ := (Link.outgoing_recvFull h₃).trans hout₂
  dsimp only
  rcases h₄ : sock₃.recvFull (uint32 (bytesToInt lenBuf - 2)) with ⟨- | payload, sock₄⟩
  · exact ⟨sock₄, (Link.outgoing_recvFull h₄).trans hout₃, .inl rfl⟩
  have hout₄ := (Link.outgoing_recvFull h₄).trans hout₃
  dsimp only
  split_ifs
  · exact ⟨sock₄, hout₄, .inr (.inr ⟨payload, rfl⟩)⟩
  · exact ⟨sock₄, hout₄, .inr (.inl rfl)⟩

/-- Reading sends nothing. -/
theorem outgoing_readLoop (expected : UInt8) (rounds : ℕ) (sock : Link) :
    (readLoop expected rounds sock).2.outgoing = sock.outgoing := by
  induction rounds generalizing sock with
  | zero => rfl
  | succ rounds ih =>
    rw [readLoop_succ]
    obtain ⟨sock', hround, h | h | ⟨payload, h⟩⟩ := outgoing_readRound expected sock <;> rw [h]
    · exact hround
    · exact (ih sock').trans hround
    · exact hround

theorem outgoing_readExtendedMessage {expected : UInt8} {payload : Option Bytes}
    (h : readExtendedMessage sock expected = (payload, sock')) :
    sock'.outgoing = sock.outgoing := by
  have hout := outgoing_readLoop expected 4096 sock
  rwa [show readLoop expected 4096 sock = (payload, sock') from h] at hout

end Gush.Metadata

namespace Gush

open Cxx Bencode Wire Metadata

namespace MetadataDownloader

variable {d d' : MetadataDownloader} {sock sock' : Link} {fuel : ℕ}

/-- An exchange sends its handshake. -/
theorem outgoing_exchangeExtensions {metadataExtId : Option ℤ}
    (h : d.exchangeExtensions fuel sock = some (metadataExtId, d', sock')) :
    SendsMessages sock.outgoing sock'.outgoing := by
  unfold exchangeExtensions at h
  rcases hsend : sock.sendFull (extendedFrame extendedHandshakeId
    (ascii "d1:md2:ut_metadatai1ee")) with ⟨_ | _, sock₁⟩ <;> rw [hsend] at h
  · cases h
    exact Link.sends_sendFull (m := .metadataHandshake) hsend
  have hsent : SendsMessages sock.outgoing sock₁.outgoing :=
    Link.sends_sendFull (m := .metadataHandshake) hsend
  dsimp only at h
  rcases hread : readExtendedMessage sock₁ extendedHandshakeId with ⟨- | payload, sock₂⟩ <;>
    rw [hread] at h
  · cases h
    rwa [outgoing_readExtendedMessage hread]
  obtain ⟨r, -, hout⟩ := Option.map_eq_some_iff.1 h
  have hsock : sock₂ = sock' := by
    rcases hhandshake : d.readHandshake r with ⟨- | id, d₁⟩ <;> rw [hhandshake] at hout <;>
      exact congrArg (fun out => out.2.2) hout
  rwa [← hsock, outgoing_readExtendedMessage hread]

/-- The loop over the pieces sends requests. -/
theorem outgoing_requestLoop {metadataExtId : ℤ} {indices : List ℕ} {pieces pieces' : List Bytes}
    {all : Bool} (hindices : ∀ i ∈ indices, i < 2 ^ 31)
    (h : requestLoop fuel (UInt8.ofInt metadataExtId) indices pieces sock =
      some (all, pieces', sock')) : SendsMessages sock.outgoing sock'.outgoing := by
  induction indices generalizing pieces sock with
  | nil =>
    cases h
    exact .refl _
  | cons i indices ih =>
    obtain ⟨hi, hindices⟩ := List.forall_mem_cons.1 hindices
    rw [requestLoop] at h
    rcases hsend : sock.sendFull (extendedFrame (UInt8.ofInt metadataExtId) (requestDict i)) with
      ⟨_ | _, sock₁⟩ <;> rw [hsend] at h
    · cases h
      exact Link.sends_sendFull (m := .request metadataExtId i hi) hsend
    have hsent : SendsMessages sock.outgoing sock₁.outgoing :=
      Link.sends_sendFull (m := .request metadataExtId i hi) hsend
    dsimp only at h
    rcases hread : readExtendedMessage sock₁ (UInt8.ofInt metadataExtId) with ⟨- | payload, sock₂⟩ <;>
      rw [hread] at h
    · cases h
      rwa [outgoing_readExtendedMessage hread]
    rw [← outgoing_readExtendedMessage hread] at hsent
    dsimp only at h
    split at h
    · cases h
    · split at h
      · cases h
        exact hsent
      · exact hsent.trans (ih hindices h)

/-- Requesting the metadata sends requests for the pieces, whose number is an `int`. -/
theorem outgoing_requestMetadata {sha1 : Bytes → Bytes} {metadataExtId : ℤ} {success : Bool}
    (hnum : d.numPieces < 2 ^ 31)
    (h : d.requestMetadata sha1 fuel sock metadataExtId = some (success, d', sock')) :
    SendsMessages sock.outgoing sock'.outgoing := by
  have hindices : ∀ i ∈ List.range d.numPieces.toNat, i < 2 ^ 31 := by
    intro i hi
    rw [List.mem_range] at hi
    omega
  unfold requestMetadata at h
  rcases hloop : requestLoop fuel (UInt8.ofInt metadataExtId) (List.range d.numPieces.toNat)
    d.pieces sock with - | ⟨_ | _, pieces, sock₁⟩ <;> rw [hloop] at h
  · cases h
  · cases h
    exact outgoing_requestLoop hindices hloop
  · obtain ⟨-, hout⟩ := Prod.mk.inj (Option.some.inj h)
    obtain ⟨-, rfl⟩ := Prod.mk.inj hout
    exact outgoing_requestLoop hindices hloop

end MetadataDownloader

/-- A connection sends its handshake, or nothing. -/
theorem Wire.PeerConnection.outgoing_sendExtensionHandshake {c : Wire.PeerConnection}
    {s s' : Socket} (hs : c.socket = some s) {sent : Bool}
    (h : (c.sendExtensionHandshake sent).2.socket = some s') :
    SendsMessages s.outgoing s'.outgoing := by
  have hsend : c.sendExtensionHandshake sent = c.sendMessage ClientMessage.pexMessage sent := rfl
  rw [hsend, sendMessage, hs] at h
  cases sent with
  | true =>
    obtain rfl := Option.some.inj h
    refine ⟨[.pexHandshake], ?_⟩
    rw [List.flatMap_cons, List.flatMap_nil, List.append_nil]
    rfl
  | false => cases h

end Gush
