import Gush.Metadata.Frames

/-!
# Frame boundaries

`readExtendedMessage` takes frames off a stream of untrusted bytes. What it asks for in each round is
compared with the length of the frame: `keepsFrames_iff` says that the reader stays within its frames
and finds the payload that it looks for, unless it comes upon an extended message without an
identifier, or the message that it looks for is too long.
-/

namespace Gush.Metadata

open Cxx Wire
open Downloader (bytesToInt)

variable {sock : Link} {expected : UInt8} {rounds : ℕ}

/-- The receptions of the loop of `readExtendedMessage`, frame by frame. -/
def receptions (expectedExtId : UInt8) : ℕ → Link → List FrameReads
  | 0, _ => []
  | rounds + 1, sock =>
    (readRound expectedExtId sock).1 ::
      match (readRound expectedExtId sock).2 with
      | .next sock => receptions expectedExtId rounds sock
      | _ => []

/-- No more is asked for than the frame has, and the payload of an extended message is what stands
behind the two identifiers. -/
structure FrameReads.Within (r : FrameReads) : Prop where
  sum_le : r.sizes.sum ≤ r.length
  payloadSize : ∀ size, r.payloadSize = some size → (size : ℤ) = r.length - 2

/-- An extended message of length one: it ends behind the identifier of the peer protocol. -/
def bareFrame : Bytes := intToBytes 1 ++ [extendedMessageId]

/-! ### One round -/

theorem Link.recvFull_some {size : ℕ} {bytes : Bytes} {sock' : Link}
    (h : sock.recvFull size = (some bytes, sock')) :
    bytes.length = size ∧ ∃ rest, sock.incoming = bytes ++ rest ∧ sock' = sock.leave rest := by
  unfold recvFull Socket.recvAll at h
  by_cases hle : size ≤ sock.incoming.length
  · rw [if_pos hle] at h
    cases h
    exact ⟨List.length_take_of_le hle, sock.incoming.drop size, by simp, rfl⟩
  · rw [if_neg hle] at h
    cases h

/-- What is received of a frame without an identifier: at least one byte too much. -/
theorem readRound_bare {rest : Bytes} (h : sock.incoming = bareFrame ++ rest) :
    (readRound expected sock).1.length = 1 ∧
      ∃ sizes, (readRound expected sock).1.sizes = 1 :: 1 :: sizes := by
  rw [bareFrame, List.append_assoc, List.singleton_append] at h
  rw [readRound_identifier Nat.one_pos (by decide) h, if_neg (not_not.2 rfl)]
  rcases (sock.leave rest).recvFull 1 with ⟨- | extBuf, sock'⟩ <;> simp

theorem not_within_bare {rest : Bytes} (h : sock.incoming = bareFrame ++ rest) :
    ¬ (readRound expected sock).1.Within := by
  obtain ⟨hlength, sizes, hsizes⟩ := @readRound_bare sock expected rest h
  rintro ⟨hsum, -⟩
  simp [hlength, hsizes] at hsum

/-- A round that stays within its frame, and goes on only behind a frame that is to be skipped. -/
def RoundKept (expected : UInt8) (sock : Link) : Prop :=
  (readRound expected sock).1.Within ∧ ∀ sock', (readRound expected sock).2 = .next sock' →
    ∃ frame rest, Skipped maxFrame expected frame ∧ sock.incoming = frame ++ rest ∧
      sock' = sock.leave rest

section Identifier

variable {length : ℕ} {id : UInt8} {rest : Bytes}

theorem roundKept_plain (hpos : 0 < length) (hfits : length ≤ maxFrame)
    (hid : id ≠ extendedMessageId) (h : sock.incoming = intToBytes length ++ id :: rest) :
    RoundKept expected sock := by
  rw [RoundKept, readRound_identifier hpos hfits h, if_pos hid]
  rcases hbody : (sock.leave rest).recvFull (length - 1) with ⟨- | body, sock₁⟩
  · exact ⟨⟨by simp; omega, by simp⟩, by simp⟩
  obtain ⟨hbodyLen, rest₁, hincoming, rfl⟩ := Link.recvFull_some hbody
  replace hincoming : rest = body ++ rest₁ := hincoming
  refine ⟨⟨by simp; omega, by simp⟩, fun sock' hnext => ?_⟩
  cases hnext
  obtain rfl : length = 1 + body.length := by omega
  refine ⟨intToBytes (1 + body.length) ++ id :: body, rest₁, .plain hid hfits, ?_, rfl⟩
  rw [h, hincoming, List.append_assoc, List.cons_append]

theorem roundKept_extended (hlen : 2 ≤ length) (hfits : length ≤ maxFrame)
    (h : sock.incoming = intToBytes length ++ extendedMessageId :: rest) :
    RoundKept expected sock := by
  have hmax : maxFrame = 4194304 := rfl
  have hsize : (uint32 (length - 2) : ℤ) = length - 2 := by
    unfold uint32
    omega
  rw [RoundKept, readRound_identifier (by omega) hfits h, if_neg (not_not.2 rfl)]
  rcases hext : (sock.leave rest).recvFull 1 with ⟨- | extBuf, sock₁⟩
  · exact ⟨⟨by simp; omega, by simp⟩, by simp⟩
  obtain ⟨hextLen, rest₁, hincoming, rfl⟩ := Link.recvFull_some hext
  obtain ⟨extId, rfl⟩ := List.length_eq_one_iff.1 hextLen
  replace hincoming : rest = [extId] ++ rest₁ := hincoming
  refine ⟨⟨by simp; omega, by simpa using hsize⟩, fun sock' hnext => ?_⟩
  dsimp only at hnext
  rcases hpayload : ((sock.leave rest).leave rest₁).recvFull (uint32 (length - 2)) with
    ⟨- | payload, sock₂⟩ <;> rw [hpayload] at hnext
  · cases hnext
  obtain ⟨hpayloadLen, rest₂, hincoming₁, rfl⟩ := Link.recvFull_some hpayload
  replace hincoming₁ : rest₁ = payload ++ rest₂ := hincoming₁
  dsimp only at hnext
  by_cases hfound : [extId].headD 0 = expected
  · rw [if_pos hfound] at hnext
    cases hnext
  rw [if_neg hfound] at hnext
  cases hnext
  obtain rfl : length = 1 + 1 + payload.length := by omega
  refine ⟨extendedFrame extId payload, rest₂, .extended hfound (by omega), ?_, rfl⟩
  rw [extendedFrame, h, hincoming, hincoming₁]
  simp

end Identifier

/-- What one round does, unless it comes upon a frame without an identifier. -/
theorem readRound_cases (expected : UInt8) (sock : Link) :
    (∃ rest, sock.incoming = bareFrame ++ rest) ∨ RoundKept expected sock := by
  rcases hlength : sock.recvFull 4 with ⟨- | lenBuf, sock₁⟩
  · right
    rw [RoundKept, readRound, hlength]
    exact ⟨⟨by simp, by simp⟩, by simp⟩
  obtain ⟨hlen, rest, hincoming, rfl⟩ := Link.recvFull_some hlength
  have hbytes := intToBytes_bytesToInt hlen
  by_cases hzero : bytesToInt lenBuf = 0
  · rw [← hbytes, hzero] at hincoming
    right
    rw [RoundKept, readRound_keepAlive hincoming]
    refine ⟨⟨by simp, by simp⟩, fun sock' hnext => ?_⟩
    cases hnext
    exact ⟨_, rest, .keepAlive, hincoming, rfl⟩
  by_cases hlarge : bytesToInt lenBuf > 4 * 1024 * 1024
  · right
    rw [RoundKept, readRound, hlength]
    exact ⟨⟨by simp [hzero, hlarge], by simp [hzero, hlarge]⟩, by simp [hzero, hlarge]⟩
  rcases hid : (sock.leave rest).recvFull 1 with ⟨- | idBuf, sock₂⟩
  · right
    rw [RoundKept, readRound, hlength]
    dsimp only
    rw [if_neg hzero, if_neg hlarge, hid]
    exact ⟨⟨by simp; omega, by simp⟩, by simp⟩
  obtain ⟨hidLen, rest₁, hincoming₁, rfl⟩ := Link.recvFull_some hid
  obtain ⟨id, rfl⟩ := List.length_eq_one_iff.1 hidLen
  replace hincoming₁ : rest = [id] ++ rest₁ := hincoming₁
  rw [← hbytes, hincoming₁] at hincoming
  by_cases hplain : id ≠ extendedMessageId
  · exact .inr (roundKept_plain (Nat.pos_of_ne_zero hzero) (not_lt.1 hlarge) hplain hincoming)
  rw [not_not.1 hplain] at hincoming
  by_cases hone : bytesToInt lenBuf = 1
  · left
    refine ⟨rest₁, ?_⟩
    rw [bareFrame, hincoming, hone, List.append_assoc]
  · exact .inr (roundKept_extended (by omega) (not_lt.1 hlarge) hincoming)

/-! ### All rounds -/

/-- Behind frames that are skipped, and before the rounds are over, there is a frame without an
identifier. -/
def MeetsBare (expected : UInt8) (rounds : ℕ) (stream : Bytes) : Prop :=
  ∃ (others : List Bytes) (rest : Bytes), others.length < rounds ∧
    (∀ frame ∈ others, Skipped maxFrame expected frame) ∧
    stream = others.flatten ++ (bareFrame ++ rest)

theorem not_within_of_meetsBare (h : MeetsBare expected rounds sock.incoming) :
    ¬ ∀ r ∈ receptions expected rounds sock, r.Within := by
  obtain ⟨others, rest, hcount, hothers, hincoming⟩ := h
  induction others generalizing rounds sock with
  | nil =>
    obtain ⟨rounds, rfl⟩ := Nat.exists_eq_succ_of_ne_zero hcount.ne'
    exact fun hall => not_within_bare hincoming (hall _ List.mem_cons_self)
  | cons frame others ih =>
    obtain ⟨rounds, rfl⟩ := Nat.exists_eq_succ_of_ne_zero (Nat.ne_zero_of_lt hcount)
    obtain ⟨hframe, hothers⟩ := List.forall_mem_cons.1 hothers
    rw [List.flatten_cons, List.append_assoc] at hincoming
    rw [receptions, readRound_skipped hframe hincoming]
    exact fun hall => ih (Nat.lt_of_succ_lt_succ hcount) hothers rfl
      fun r hr => hall r (List.mem_cons_of_mem _ hr)

theorem within_of_not_meetsBare (h : ¬ MeetsBare expected rounds sock.incoming) :
    ∀ r ∈ receptions expected rounds sock, r.Within := by
  induction rounds generalizing sock with
  | zero => simp [receptions]
  | succ rounds ih =>
    rcases readRound_cases expected sock with ⟨rest, hbare⟩ | ⟨hwithin, hnext⟩
    · exact absurd ⟨[], rest, Nat.succ_pos rounds, by simp, hbare⟩ h
    rw [receptions, List.forall_mem_cons]
    refine ⟨hwithin, ?_⟩
    cases hround : (readRound expected sock).2 with
    | stop sock' => simp
    | found payload sock' => simp
    | next sock' =>
      obtain ⟨frame, rest, hframe, hincoming, rfl⟩ := hnext sock' hround
      -- a frame without an identifier further on would be one behind this frame
      refine ih fun ⟨others, rest', hcount, hothers, hrest⟩ => h ⟨frame :: others, rest', ?_, ?_, ?_⟩
      · exact Nat.succ_lt_succ hcount
      · exact List.forall_mem_cons.2 ⟨hframe, hothers⟩
      · replace hrest : rest = _ := hrest
        rw [hincoming, hrest, List.flatten_cons, List.append_assoc]

/-! ### The payload that is looked for -/

/-- The frames that are not looked for: those that are skipped, and extended messages without an
identifier. -/
inductive Unwanted (expected : UInt8) : Bytes → Prop
  | skipped {frame : Bytes} (h : Skipped maxFrame expected frame) : Unwanted expected frame
  | bare : Unwanted expected bareFrame

/-- Among frames that are not looked for, the first one that is not skipped has no identifier. -/
theorem skipped_or_bare {others : List Bytes} (h : ∀ frame ∈ others, Unwanted expected frame) :
    (∀ frame ∈ others, Skipped maxFrame expected frame) ∨
      ∃ front back, others = front ++ bareFrame :: back ∧
        ∀ frame ∈ front, Skipped maxFrame expected frame := by
  induction others with
  | nil => exact .inl (by simp)
  | cons frame others ih =>
    obtain ⟨hframe, hothers⟩ := List.forall_mem_cons.1 h
    cases hframe with
    | bare => exact .inr ⟨[], others, rfl, by simp⟩
    | skipped hframe =>
      rcases ih hothers with hall | ⟨front, back, rfl, hfront⟩
      · exact .inl (List.forall_mem_cons.2 ⟨hframe, hall⟩)
      · exact .inr ⟨frame :: front, back, rfl, List.forall_mem_cons.2 ⟨hframe, hfront⟩⟩

/-- The stream starts with frames that are not looked for, and one that is. -/
structure LeadsTo (expected : UInt8) (stream : Bytes) (others : List Bytes) (payload rest : Bytes) :
    Prop where
  count : others.length < 4096
  unwanted : ∀ frame ∈ others, Unwanted expected frame
  length_lt : 2 + payload.length < 2 ^ 32
  stream : stream = others.flatten ++ extendedFrame expected payload ++ rest

/-- The reader stays within the frames, and the payload that is looked for is returned with exactly
its frame and those in front of it consumed. -/
structure KeepsFrames (expected : UInt8) (sock : Link) : Prop where
  within : ∀ r ∈ receptions expected 4096 sock, r.Within
  payload : ∀ others payload rest, LeadsTo expected sock.incoming others payload rest →
    readExtendedMessage sock expected = (some payload, sock.leave rest)

/-- The message that is looked for is too long, behind frames that are skipped. -/
def MeetsOversized (expected : UInt8) (stream : Bytes) : Prop :=
  ∃ others payload rest, LeadsTo expected stream others payload rest ∧
    (∀ frame ∈ others, Skipped maxFrame expected frame) ∧ maxFrame < 2 + payload.length

theorem readLoop_meetsOversized {others : List Bytes} {payload rest : Bytes}
    (hothers : ∀ frame ∈ others, Skipped maxFrame expected frame)
    (hlength : 2 + payload.length < 2 ^ 32) (hlarge : maxFrame < 2 + payload.length)
    (h : sock.incoming = others.flatten ++ extendedFrame expected payload ++ rest) :
    (readLoop expected rounds sock).1 = none := by
  induction others generalizing rounds sock with
  | nil =>
    rw [List.flatten_nil, List.nil_append, extendedFrame, List.append_assoc] at h
    exact readLoop_oversized (by omega) h (by omega)
  | cons frame others ih =>
    cases rounds with
    | zero => rfl
    | succ rounds =>
      obtain ⟨hframe, hothers⟩ := List.forall_mem_cons.1 hothers
      rw [List.flatten_cons, List.append_assoc, List.append_assoc] at h
      rw [readLoop_skipped hframe h]
      exact ih hothers (List.append_assoc ..).symm

/-- **Main result.** The reader keeps the boundaries of the frames if and only if it comes upon
neither an extended message without an identifier nor one that it looks for and that is too long. -/
theorem keepsFrames_iff (expected : UInt8) (sock : Link) : KeepsFrames expected sock ↔
    ¬ MeetsBare expected 4096 sock.incoming ∧ ¬ MeetsOversized expected sock.incoming := by
  constructor
  · intro h
    refine ⟨fun hbare => not_within_of_meetsBare hbare h.within, ?_⟩
    rintro ⟨others, payload, rest, hleads, hothers, hlarge⟩
    have hnone := @readLoop_meetsOversized sock expected 4096 _ _ _ hothers hleads.length_lt hlarge
      hleads.stream
    have hsome := h.payload others payload rest hleads
    rw [readExtendedMessage] at hsome
    rw [hsome] at hnone
    cases hnone
  · rintro ⟨hbare, hoversized⟩
    refine ⟨within_of_not_meetsBare hbare, fun others payload rest hleads => ?_⟩
    rcases skipped_or_bare hleads.unwanted with hothers | ⟨front, back, rfl, hfront⟩
    · have hfits : 2 + payload.length ≤ maxFrame :=
        not_lt.1 fun hlarge => hoversized ⟨others, payload, rest, hleads, hothers, hlarge⟩
      exact readLoop_frames hothers hleads.count hfits hleads.stream
    · refine absurd ⟨front, back.flatten ++ extendedFrame expected payload ++ rest, ?_, hfront, ?_⟩
        hbare
      · have hcount := hleads.count
        rw [List.length_append] at hcount
        omega
      · rw [hleads.stream, List.flatten_append, List.flatten_cons]
        simp only [List.append_assoc]

/-- An extended message without an identifier, and the handshake that is looked for. -/
def bareStream : Link where
  incoming := bareFrame ++ extendedFrame extendedHandshakeId (ascii "de")

/-- The handshake is not found: its first byte is taken for the identifier, and the payload is to
have `2 ^ 32 - 1` bytes. -/
theorem not_forall_keepsFrames :
    ¬ ∀ (expected : UInt8) (sock : Link), KeepsFrames expected sock := by
  intro h
  have hbare : MeetsBare extendedHandshakeId 4096 bareStream.incoming :=
    ⟨[], extendedFrame extendedHandshakeId (ascii "de"), by decide, by simp, rfl⟩
  exact not_within_of_meetsBare hbare (h extendedHandshakeId bareStream).within

end Gush.Metadata
