import Gush.Metadata.Download

/-!
# Reading extended messages

What `readExtendedMessage` does with the frames that stand at the head of its socket: it skips
frames that are not looked for, returns the payload of the first one that is, and gives up on a
frame that is too long.
-/

namespace Gush.Metadata

open Cxx Wire
open Downloader (bytesToInt)

/-- The longest frame that `readExtendedMessage` accepts. -/
def maxFrame : ℕ := 4 * 1024 * 1024

/-- A socket of whose bytes only some are left. -/
def Link.leave (sock : Link) (rest : Bytes) : Link := { sock with incoming := rest }

variable {sock : Link} {expected : UInt8} {rounds : ℕ}

theorem Link.recvFull_append {bytes rest : Bytes} (h : sock.incoming = bytes ++ rest) {size : ℕ}
    (hsize : size = bytes.length) : sock.recvFull size = (some bytes, sock.leave rest) := by
  subst hsize
  have hle : bytes.length ≤ sock.incoming.length := by
    rw [h, List.length_append]
    omega
  rw [recvFull, Socket.recvAll, if_pos hle]
  show (some (sock.incoming.take bytes.length), sock.leave (sock.incoming.drop bytes.length)) = _
  rw [h, List.take_left, List.drop_left]

/-! ### One round of the loop -/

/-- What a round receives of a frame: its length, the sizes that it asks for behind the length, and
the size that it gives to the payload of an extended message. -/
structure FrameReads where
  length : ℕ := 0
  sizes : List ℕ := []
  payloadSize : Option ℕ := none

/-- How a round of the loop ends. -/
inductive Round where
  | stop (sock : Link)
  | next (sock : Link)
  | found (payload : Bytes) (sock : Link)

/-- The body of the loop of `readExtendedMessage`, with what it receives. -/
def readRound (expectedExtId : UInt8) (sock : Link) : FrameReads × Round :=
  match sock.recvFull 4 with
  | (none, sock) => ({}, .stop sock)
  | (some lenBuf, sock) =>
    let len := bytesToInt lenBuf
    if len = 0 then ({ length := len }, .next sock)
    else if len > 4 * 1024 * 1024 then ({ length := len }, .stop sock)
    else
      match sock.recvFull 1 with
      | (none, sock) => ({ length := len, sizes := [1] }, .stop sock)
      | (some idBuf, sock) =>
        if idBuf.headD 0 ≠ extendedMessageId then
          match sock.recvFull (len - 1) with
          | (none, sock) => ({ length := len, sizes := [1, len - 1] }, .stop sock)
          | (some _, sock) => ({ length := len, sizes := [1, len - 1] }, .next sock)
        else
          match sock.recvFull 1 with
          | (none, sock) => ({ length := len, sizes := [1, 1] }, .stop sock)
          | (some extBuf, sock) =>
            let size := uint32 (len - 2)
            ({ length := len, sizes := [1, 1, size], payloadSize := some size },
              match sock.recvFull size with
              | (none, sock) => .stop sock
              | (some payload, sock) =>
                if extBuf.headD 0 = expectedExtId then .found payload sock else .next sock)

/-- The loop is made of its rounds. -/
theorem readLoop_succ : readLoop expected (rounds + 1) sock =
    match (readRound expected sock).2 with
    | .stop sock => (none, sock)
    | .next sock => readLoop expected rounds sock
    | .found payload sock => (some payload, sock) := by
  rw [readLoop, readRound]
  rcases sock.recvFull 4 with ⟨- | lenBuf, sock⟩
  · rfl
  dsimp only
  by_cases hzero : bytesToInt lenBuf = 0
  · simp [hzero]
  by_cases hlarge : bytesToInt lenBuf > 4 * 1024 * 1024
  · simp [hzero, hlarge]
  rw [if_neg hzero, if_neg hlarge, if_neg hzero, if_neg hlarge]
  rcases sock.recvFull 1 with ⟨- | idBuf, sock⟩
  · rfl
  dsimp only
  by_cases hid : idBuf.headD 0 ≠ extendedMessageId
  · rw [if_pos hid, if_pos hid]
    rcases sock.recvFull (bytesToInt lenBuf - 1) with ⟨- | skip, sock⟩ <;> rfl
  rw [if_neg hid, if_neg hid]
  rcases sock.recvFull 1 with ⟨- | extBuf, sock⟩
  · rfl
  dsimp only
  rcases sock.recvFull (uint32 (bytesToInt lenBuf - 2)) with ⟨- | payload, sock⟩
  · rfl
  dsimp only
  by_cases hext : extBuf.headD 0 = expected
  · rw [if_pos hext, if_pos hext]
  · rw [if_neg hext, if_neg hext]

theorem Link.recvFull_length {length : ℕ} {rest : Bytes}
    (h : sock.incoming = intToBytes length ++ rest) :
    sock.recvFull 4 = (some (intToBytes length), sock.leave rest) :=
  Link.recvFull_append h (length_intToBytes length).symm

/-- Nothing is read from an empty socket. -/
theorem readRound_nil (h : sock.incoming = []) :
    readRound expected sock = ({}, .stop (sock.leave [])) := by
  have hrecv : sock.recvFull 4 = (none, sock.leave []) := by
    rw [Link.recvFull, Socket.recvAll, h]
    rfl
  rw [readRound, hrecv]

/-- A frame that is too long ends the reading. -/
theorem readRound_oversized {length : ℕ} {rest : Bytes} (hlength : length < 2 ^ 32)
    (h : sock.incoming = intToBytes length ++ rest) (hlarge : maxFrame < length) :
    readRound expected sock = ({ length }, .stop (sock.leave rest)) := by
  have hpos : length ≠ 0 := by omega
  rw [readRound, Link.recvFull_length h]
  dsimp only
  rw [bytesToInt_of_lt hlength, if_neg hpos, if_pos (show length > 4 * 1024 * 1024 from hlarge)]

/-- A keep-alive message is skipped. -/
theorem readRound_keepAlive {rest : Bytes} (h : sock.incoming = intToBytes 0 ++ rest) :
    readRound expected sock = ({}, .next (sock.leave rest)) := by
  rw [readRound, Link.recvFull_length h]
  dsimp only
  rw [bytesToInt_of_lt (by decide), if_pos rfl]

/-- A frame whose length is accepted, up to the identifier: what is behind it depends on whether it
is an extended message. -/
theorem readRound_identifier {length : ℕ} {id : UInt8} {rest : Bytes} (hpos : 0 < length)
    (hfits : length ≤ maxFrame) (h : sock.incoming = intToBytes length ++ id :: rest) :
    readRound expected sock =
      if id ≠ extendedMessageId then
        match (sock.leave rest).recvFull (length - 1) with
        | (none, sock) => ({ length := length, sizes := [1, length - 1] }, .stop sock)
        | (some _, sock) => ({ length := length, sizes := [1, length - 1] }, .next sock)
      else
        match (sock.leave rest).recvFull 1 with
        | (none, sock) => ({ length := length, sizes := [1, 1] }, .stop sock)
        | (some extBuf, sock) =>
          ({ length := length, sizes := [1, 1, uint32 (length - 2)],
             payloadSize := some (uint32 (length - 2)) },
            match sock.recvFull (uint32 (length - 2)) with
            | (none, sock) => .stop sock
            | (some payload, sock) =>
              if extBuf.headD 0 = expected then .found payload sock else .next sock) := by
  have hmax : maxFrame = 4194304 := rfl
  have hsmall : ¬ length > 4 * 1024 * 1024 := by omega
  have hidBuf : (sock.leave (id :: rest)).recvFull 1 = (some [id], sock.leave rest) :=
    @Link.recvFull_append (sock.leave (id :: rest)) [id] rest rfl 1 rfl
  rw [readRound, Link.recvFull_length h]
  dsimp only
  rw [bytesToInt_of_lt (by omega), if_neg hpos.ne', if_neg hsmall, hidBuf]
  rfl

/-- Other messages of the peer protocol are skipped. -/
theorem readRound_plain {id : UInt8} {body rest : Bytes} (hid : id ≠ extendedMessageId)
    (hlen : 1 + body.length ≤ maxFrame)
    (h : sock.incoming = intToBytes (1 + body.length) ++ id :: body ++ rest) :
    readRound expected sock =
      ({ length := 1 + body.length, sizes := [1, body.length] }, .next (sock.leave rest)) := by
  have hsize : 1 + body.length - 1 = body.length := Nat.add_sub_cancel_left 1 _
  have hbody : (sock.leave (body ++ rest)).recvFull body.length = (some body, sock.leave rest) :=
    @Link.recvFull_append (sock.leave (body ++ rest)) body rest rfl _ rfl
  rw [List.append_assoc, List.cons_append] at h
  rw [readRound_identifier (by omega) hlen h, if_pos hid, hsize, hbody]

/-- An extended message is the one that is looked for, or it is skipped. -/
theorem readRound_extended {extId : UInt8} {payload rest : Bytes}
    (hlen : 2 + payload.length ≤ maxFrame)
    (h : sock.incoming = extendedFrame extId payload ++ rest) :
    readRound expected sock =
      ({ length := 2 + payload.length, sizes := [1, 1, payload.length],
         payloadSize := some payload.length },
        if extId = expected then .found payload (sock.leave rest)
        else .next (sock.leave rest)) := by
  have hextBuf : (sock.leave (extId :: payload ++ rest)).recvFull 1 =
      (some [extId], sock.leave (payload ++ rest)) :=
    @Link.recvFull_append (sock.leave (extId :: payload ++ rest)) [extId] (payload ++ rest) rfl 1 rfl
  have hsize : uint32 (((1 + 1 + payload.length : ℕ) : ℤ) - 2) = payload.length := by
    unfold uint32
    have hmax : maxFrame = 4194304 := rfl
    omega
  have hpayload : (sock.leave (payload ++ rest)).recvFull payload.length =
      (some payload, sock.leave rest) :=
    @Link.recvFull_append (sock.leave (payload ++ rest)) payload rest rfl _ rfl
  rw [extendedFrame, List.append_assoc, List.cons_append] at h
  rw [readRound_identifier (by omega) (by omega) h, if_neg (not_not.2 rfl), hextBuf]
  dsimp only
  rw [hsize, hpayload]
  rfl

/-! ### The loop -/

/-- Nothing is read from an empty socket. -/
theorem readLoop_nil (h : sock.incoming = []) : (readLoop expected rounds sock).1 = none := by
  cases rounds with
  | zero => rfl
  | succ rounds => rw [readLoop_succ, readRound_nil h]

theorem readLoop_oversized {length : ℕ} {rest : Bytes} (hlength : length < 2 ^ 32)
    (h : sock.incoming = intToBytes length ++ rest) (hlarge : maxFrame < length) :
    (readLoop expected rounds sock).1 = none := by
  cases rounds with
  | zero => rfl
  | succ rounds => rw [readLoop_succ, readRound_oversized hlength h hlarge]

theorem readLoop_extended {extId : UInt8} {payload rest : Bytes}
    (hlen : 2 + payload.length ≤ maxFrame)
    (h : sock.incoming = extendedFrame extId payload ++ rest) :
    readLoop expected (rounds + 1) sock =
      if extId = expected then (some payload, sock.leave rest)
      else readLoop expected rounds (sock.leave rest) := by
  rw [readLoop_succ, readRound_extended hlen h]
  by_cases hid : extId = expected <;> simp [hid]

/-- The frames that are skipped, up to a limit for their length. -/
inductive Skipped (limit : ℕ) (expected : UInt8) : Bytes → Prop
  | keepAlive : Skipped limit expected (intToBytes 0)
  | plain {id : UInt8} {body : Bytes} (hid : id ≠ extendedMessageId)
      (hlen : 1 + body.length ≤ limit) :
      Skipped limit expected (intToBytes (1 + body.length) ++ id :: body)
  | extended {extId : UInt8} {payload : Bytes} (hne : extId ≠ expected)
      (hlen : 2 + payload.length ≤ limit) : Skipped limit expected (extendedFrame extId payload)

theorem readRound_skipped {frame rest : Bytes} (hframe : Skipped maxFrame expected frame)
    (h : sock.incoming = frame ++ rest) :
    (readRound expected sock).2 = .next (sock.leave rest) := by
  cases hframe with
  | keepAlive => rw [readRound_keepAlive h]
  | plain hid hlen => rw [readRound_plain hid hlen h]
  | extended hne hlen => rw [readRound_extended hlen h, if_neg hne]

theorem readLoop_skipped {frame rest : Bytes} (hframe : Skipped maxFrame expected frame)
    (h : sock.incoming = frame ++ rest) :
    readLoop expected (rounds + 1) sock = readLoop expected rounds (sock.leave rest) := by
  rw [readLoop_succ, readRound_skipped hframe h]

/-- The payload behind fewer frames than there are rounds. -/
theorem readLoop_frames {others : List Bytes} {payload rest : Bytes}
    (hothers : ∀ frame ∈ others, Skipped maxFrame expected frame) (hrounds : others.length < rounds)
    (hlen : 2 + payload.length ≤ maxFrame)
    (h : sock.incoming = others.flatten ++ extendedFrame expected payload ++ rest) :
    readLoop expected rounds sock = (some payload, sock.leave rest) := by
  induction others generalizing rounds sock with
  | nil =>
    obtain ⟨rounds, rfl⟩ := Nat.exists_eq_succ_of_ne_zero hrounds.ne'
    rw [readLoop_extended hlen h, if_pos rfl]
  | cons frame others ih =>
    obtain ⟨rounds, rfl⟩ := Nat.exists_eq_succ_of_ne_zero (Nat.ne_zero_of_lt hrounds)
    rw [List.flatten_cons, List.append_assoc, List.append_assoc] at h
    rw [readLoop_skipped (hothers frame (List.mem_cons_self ..)) h]
    refine ih (fun f hf => hothers f (List.mem_cons_of_mem _ hf)) (Nat.lt_of_succ_lt_succ hrounds) ?_
    exact (List.append_assoc _ _ _).symm

/-! ### What the frames of a peer must be like -/

/-- The frames that are not extended, up to what the length field can say. -/
inductive Ordinary : Bytes → Prop
  | keepAlive : Ordinary (intToBytes 0)
  | plain {id : UInt8} {body : Bytes} (hid : id ≠ extendedMessageId)
      (hlen : 1 + body.length < 2 ^ 32) : Ordinary (intToBytes (1 + body.length) ++ id :: body)

theorem Ordinary.skipped {frame : Bytes} {limit : ℕ} (h : Ordinary frame)
    (hlen : frame.length ≤ limit + 4) (expected : UInt8) : Skipped limit expected frame := by
  cases h with
  | keepAlive => exact .keepAlive
  | plain hid _ =>
    rw [List.length_append, length_intToBytes, List.length_cons] at hlen
    exact .plain hid (by omega)

/-- Reading comes to its end only if an ordinary frame is not too long. -/
theorem readLoop_ordinary {frame rest payload : Bytes} (hframe : Ordinary frame)
    (h : sock.incoming = frame ++ rest) (hread : (readLoop expected rounds sock).1 = some payload) :
    frame.length ≤ maxFrame + 4 := by
  cases hframe with
  | keepAlive =>
    rw [length_intToBytes]
    omega
  | @plain id body hid hlen =>
    rw [List.length_append, length_intToBytes, List.length_cons]
    by_contra hlong
    rw [List.append_assoc] at h
    rw [readLoop_oversized hlen h (by omega)] at hread
    cases hread

/-- There are not too many frames in front of a payload, and none is longer than a limit. -/
structure Fits (limit : ℕ) (others : List Bytes) (payload : Bytes) : Prop where
  count : others.length < 4096
  others : ∀ frame ∈ others, frame.length ≤ limit + 4
  payload : 2 + payload.length ≤ limit

/-- If only one extended message is there, then reading comes to its end only within the limits and
with its identifier. -/
theorem readLoop_exact {others : List Bytes} {extId : UInt8} {payload result : Bytes}
    (hothers : ∀ frame ∈ others, Ordinary frame) (hlen : 2 + payload.length < 2 ^ 32)
    (h : sock.incoming = others.flatten ++ extendedFrame extId payload)
    (hread : (readLoop expected rounds sock).1 = some result) :
    extId = expected ∧ others.length < rounds ∧ (∀ frame ∈ others, frame.length ≤ maxFrame + 4) ∧
      2 + payload.length ≤ maxFrame := by
  induction others generalizing rounds sock with
  | nil =>
    cases rounds with
    | zero => cases hread
    | succ rounds =>
      have hfits : 2 + payload.length ≤ maxFrame := by
        by_contra hlong
        rw [readLoop_oversized (by omega) h (by omega)] at hread
        cases hread
      rw [readLoop_extended hfits (h.trans (List.append_nil _).symm)] at hread
      split_ifs at hread with hid
      · exact ⟨hid, Nat.succ_pos rounds, nofun, hfits⟩
      · rw [readLoop_nil rfl] at hread
        cases hread
  | cons frame others ih =>
    obtain ⟨hframe, hothers⟩ := List.forall_mem_cons.1 hothers
    rw [List.flatten_cons, List.append_assoc] at h
    have hshort := readLoop_ordinary hframe h hread
    cases rounds with
    | zero => cases hread
    | succ rounds =>
      rw [readLoop_skipped (hframe.skipped hshort expected) h] at hread
      obtain ⟨hid, hcount, hfits, hpayload⟩ := ih hothers rfl hread
      exact ⟨hid, Nat.succ_lt_succ hcount, List.forall_mem_cons.2 ⟨hshort, hfits⟩, hpayload⟩

/-- The same for `readExtendedMessage`, which then leaves nothing. -/
theorem readExtendedMessage_exact {others : List Bytes} {extId : UInt8} {payload result : Bytes}
    {sock' : Link} (hothers : ∀ frame ∈ others, Ordinary frame) (hlen : 2 + payload.length < 2 ^ 32)
    (h : sock.incoming = others.flatten ++ extendedFrame extId payload)
    (hread : readExtendedMessage sock expected = (some result, sock')) :
    extId = expected ∧ Fits maxFrame others payload ∧ result = payload ∧ sock' = sock.leave [] := by
  obtain ⟨rfl, hcount, hshort, hpayload⟩ := readLoop_exact hothers hlen h (congrArg Prod.fst hread)
  have hskipped : ∀ frame ∈ others, Skipped maxFrame extId frame :=
    fun frame hframe => (hothers frame hframe).skipped (hshort frame hframe) extId
  have hresult : readExtendedMessage sock extId = (some payload, sock.leave []) :=
    readLoop_frames hskipped hcount hpayload (h.trans (List.append_nil _).symm)
  obtain ⟨hpayload', hsock⟩ := Prod.mk.inj (hread.symm.trans hresult)
  exact ⟨rfl, ⟨hcount, hshort, hpayload⟩, Option.some.inj hpayload', hsock⟩

end Gush.Metadata
