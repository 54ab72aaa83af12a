import Gush.Lib.Framing
import Gush.Wire.Connection

/-!
# The two receiving functions

`receiveMessage` and `receiveMessageNonBlocking` are two copies of one frame decoder. `reader` is
that decoder without a socket: it takes frames off a buffer and keeps the state of the peer and the
payload of the message variable. The non-blocking function simulates it with a reader that waits for
the rest of a frame, the blocking one with a reader that loses what it has when the stream ends.

`receive_agrees`: however a stream is cut into arrivals, the non-blocking function yields the
messages and the state of the blocking one.
-/

namespace Gush.Wire

open Framing
open Downloader (bytesToInt)

/-! ### Frames -/

/-- A frame: what stands behind its length, unless the length is too large. -/
inductive Frame
  | oversized
  | whole (body : Bytes)

/-- The first frame of a buffer. Of an oversized frame, only the length is waited for. -/
def nextFrame (buffer : Bytes) : Option (Frame × Bytes) :=
  if buffer.length < 4 then none
  else if bytesToInt buffer > maxPeerMessageSize then some (.oversized, buffer.drop 4)
  else if buffer.length < 4 + bytesToInt buffer then none
  else some (.whole ((buffer.drop 4).take (bytesToInt buffer)),
    buffer.drop (4 + bytesToInt buffer))

theorem bytesToInt_append {buffer : Bytes} (h : 4 ≤ buffer.length) (more : Bytes) :
    bytesToInt (buffer ++ more) = bytesToInt buffer := by
  rw [bytesToInt, bytesToInt, List.take_append_of_le_length h]

theorem bytesToInt_take (buffer : Bytes) : bytesToInt (buffer.take 4) = bytesToInt buffer := by
  rw [bytesToInt, bytesToInt, List.take_take, min_self]

/-- The buffer up to the end of a complete frame decides what the frame is. -/
theorem nextFrame_append {buffer rest : Bytes} {f : Frame} (more : Bytes)
    (h : nextFrame buffer = some (f, rest)) :
    nextFrame (buffer ++ more) = some (f, rest ++ more) := by
  unfold nextFrame at h ⊢
  split_ifs at h with hshort hlarge hcut
  · cases h
    have hlen : 4 ≤ buffer.length := not_lt.1 hshort
    rw [bytesToInt_append hlen, if_neg (by rw [List.length_append]; omega), if_pos hlarge,
      List.drop_append_of_le_length hlen]
  · cases h
    have hlen : 4 ≤ buffer.length := not_lt.1 hshort
    have hframe : 4 + bytesToInt buffer ≤ buffer.length := not_lt.1 hcut
    rw [bytesToInt_append hlen, if_neg (by rw [List.length_append]; omega), if_neg hlarge,
      if_neg (by rw [List.length_append]; omega), List.drop_append_of_le_length hlen,
      List.drop_append_of_le_length hframe, List.take_append_of_le_length]
    rw [List.length_drop]
    omega

theorem length_nextFrame {buffer rest : Bytes} {f : Frame}
    (h : nextFrame buffer = some (f, rest)) : rest.length < buffer.length := by
  unfold nextFrame at h
  split_ifs at h with hshort hlarge hcut <;> cases h <;> rw [List.length_drop] <;> omega

/-- What is done with a frame, given the state of the peer and the payload left in the message
variable. -/
def acceptFrame (fuel : ℕ) : PeerState × Bytes → Frame →
    Option (Option PeerMessage × (PeerState × Bytes))
  | (c, payload), .oversized => some (none, (c, payload))
  | (c, payload), .whole [] =>
    some (some { length := 0, id := .keepAlive, payload }, (c, payload))
  | (c, payload), .whole (b :: rest) =>
    let msg : PeerMessage :=
      { length := rest.length + 1, id := .ofByte b, payload := if rest = [] then payload else rest }
    (c.update fuel msg).map fun c => (some msg, (c, msg.payload))

/-- A frame that is not refused yields a message, if its handling ends. -/
theorem acceptFrame_whole (fuel : ℕ) (s : PeerState × Bytes) (body : Bytes) :
    acceptFrame fuel s (.whole body) = none ∨
      ∃ msg s', acceptFrame fuel s (.whole body) = some (some msg, s') := by
  obtain ⟨c, payload⟩ := s
  cases body with
  | nil => exact .inr ⟨_, _, rfl⟩
  | cons b rest =>
    rw [acceptFrame]
    rcases PeerState.update c fuel _ with - | c'
    · exact .inl rfl
    · exact .inr ⟨_, _, rfl⟩

/-- The decoder without a socket. -/
def reader (fuel : ℕ) : Reader UInt8 Frame (PeerState × Bytes) PeerMessage where
  next := nextFrame
  next_append := nextFrame_append
  length_lt := length_nextFrame
  act := acceptFrame fuel

/-! ### The machine -/

/-- What the receiving functions return: a message if the result is true. -/
def poll (receive : PeerConnection → PeerMessage → Option (Bool × PeerConnection × PeerMessage))
    (k : PeerConnection × PeerMessage) :
    Option (Option PeerMessage × (PeerConnection × PeerMessage)) :=
  (receive k.1 k.2).map fun out => (if out.1 then some out.2.2 else none, out.2)

/-- Calls of `receiveMessageNonBlocking` with one message variable. -/
def pollNonBlocking (fuel : ℕ) :=
  poll fun c msg => c.receiveMessageNonBlocking fuel msg

/-- Calls of `receiveMessage` with one message variable. -/
def pollBlocking (fuel : ℕ) :=
  poll fun c msg => c.receiveMessage fuel msg

/-- Bytes that reach the connection. -/
def arrive (k : PeerConnection × PeerMessage) (bytes : Bytes) : PeerConnection × PeerMessage :=
  (k.1.arrive bytes, k.2)

/-- The bytes that have arrived and have not been read. -/
def PeerConnection.waiting (c : PeerConnection) : Bytes := (c.socket.map Socket.incoming).getD []

/-- A connection with a message variable, as a reader. -/
def view (k : PeerConnection × PeerMessage) : Config UInt8 (PeerState × Bytes) where
  state := (k.1.toPeerState, k.2.payload)
  isOpen := k.1.isConnected
  buffer := k.1.waiting

theorem view_arrive (k : PeerConnection × PeerMessage) (bytes : Bytes) :
    view (arrive k bytes) = (view k).arrive bytes := by
  obtain ⟨⟨state, socket⟩, msg⟩ := k
  cases socket <;> rfl

/-- A result of the receiving functions, as a step of the reader. -/
def shown (out : Bool × PeerConnection × PeerMessage) :
    Option PeerMessage × Config UInt8 (PeerState × Bytes) :=
  (if out.1 then some out.2.2 else none, view out.2)

theorem map_poll (receive : PeerConnection → PeerMessage →
    Option (Bool × PeerConnection × PeerMessage)) (k : PeerConnection × PeerMessage) :
    (poll receive k).map (Prod.map id view) = (receive k.1 k.2).map shown := by
  rw [poll, Option.map_map]
  rfl

theorem recvAll_append {s : Socket} {bytes rest : Bytes} (h : s.incoming = bytes ++ rest) :
    s.recvAll bytes.length = (some bytes, { s with incoming := rest }) := by
  have hle : bytes.length ≤ s.incoming.length := by
    rw [h, List.length_append]
    omega
  rw [Socket.recvAll, if_pos hle, h, List.take_left, List.drop_left]

theorem recvAll_short {s : Socket} {size : ℕ} (h : s.incoming.length < size) :
    s.recvAll size = (none, { s with incoming := [] }) := by
  rw [Socket.recvAll, if_neg (not_le.2 h)]

/-- Behind the length, a whole frame is read and handled. -/
theorem receiveBody_whole (fuel : ℕ) (c : PeerConnection) {s : Socket} {msg : PeerMessage}
    {body rest : Bytes} (h : s.incoming = body ++ rest) (hlen : msg.length = body.length) :
    (c.receiveBody fuel s msg).map shown =
      (acceptFrame fuel (c.toPeerState, msg.payload) (.whole body)).map fun out =>
        (out.1, { state := out.2, isOpen := true, buffer := rest }) := by
  cases body with
  | nil =>
    rw [PeerConnection.receiveBody, if_pos (show msg.length = 0 from hlen)]
    simp [acceptFrame, shown, view, PeerConnection.isConnected, PeerConnection.waiting, h, hlen]
  | cons b body =>
    have hid : s.recvAll 1 = (some [b], { s with incoming := body ++ rest }) :=
      @recvAll_append s [b] (body ++ rest) h
    have hpos : msg.length ≠ 0 := by
      rw [hlen]
      exact Nat.succ_ne_zero _
    rw [PeerConnection.receiveBody, if_neg hpos, hid]
    dsimp only [List.headD]
    by_cases hbody : body = []
    · -- no payload is read, and the variable keeps the one it has
      subst hbody
      have hone : ¬ msg.length > 1 := by
        rw [hlen]
        simp
      rw [if_neg hone, Option.map_map, acceptFrame, Option.map_map, hlen]
      rfl
    · have hpayload : Socket.recvAll { s with incoming := body ++ rest } (msg.length - 1) =
          (some body, { s with incoming := rest }) := by
        rw [hlen]
        exact recvAll_append rfl
      have hlong : msg.length > 1 := by
        rw [hlen, List.length_cons]
        exact Nat.succ_lt_succ (List.length_pos_of_ne_nil hbody)
      rw [if_pos hlong, hpayload, acceptFrame, if_neg hbody, Option.map_map, Option.map_map, hlen]
      rfl

/-- A frame whose rest is missing is read to the end of the stream. -/
theorem receiveBody_cut (fuel : ℕ) (c : PeerConnection) {s : Socket} {msg : PeerMessage}
    (h : s.incoming.length < msg.length) :
    ∃ msg', c.receiveBody fuel s msg =
      some (false, { c with socket := some { s with incoming := [] } }, msg') := by
  have hpos : msg.length ≠ 0 := by omega
  rw [PeerConnection.receiveBody, if_neg hpos]
  cases hs : s.incoming with
  | nil =>
    have hid : s.recvAll 1 = (none, { s with incoming := [] }) := by
      apply recvAll_short
      rw [hs]
      exact Nat.zero_lt_one
    rw [hid]
    exact ⟨_, rfl⟩
  | cons b bytes =>
    have hid : s.recvAll 1 = (some [b], { s with incoming := bytes }) :=
      @recvAll_append s [b] bytes hs
    rw [hs, List.length_cons] at h
    have hpayload : Socket.recvAll { s with incoming := bytes } (msg.length - 1) =
        (none, { s with incoming := [] }) := by
      apply recvAll_short
      show bytes.length < _
      omega
    have hlong : msg.length > 1 := by omega
    rw [hid]
    dsimp only
    rw [if_pos hlong, hpayload]
    exact ⟨_, rfl⟩

/-- What can stand at the head of a buffer: a length of which a part is missing, the length of an
oversized frame, a frame of which a part is missing, or a frame. -/
inductive Head (buffer : Bytes) : Prop
  | short (hlen : buffer.length < 4) (hnext : nextFrame buffer = none)
  | oversized (hlen : ¬ buffer.length < 4) (hlarge : bytesToInt buffer > maxPeerMessageSize)
      (hnext : nextFrame buffer = some (.oversized, buffer.drop 4))
  | cut (hlen : ¬ buffer.length < 4) (hlarge : ¬ bytesToInt buffer > maxPeerMessageSize)
      (hcut : buffer.length < 4 + bytesToInt buffer) (hnext : nextFrame buffer = none)
  | whole (hlen : ¬ buffer.length < 4) (hlarge : ¬ bytesToInt buffer > maxPeerMessageSize)
      (hcut : ¬ buffer.length < 4 + bytesToInt buffer) (body rest : Bytes)
      (hbytes : buffer.drop 4 = body ++ rest) (hbody : bytesToInt buffer = body.length)
      (hnext : nextFrame buffer = some (.whole body, rest))

theorem head (buffer : Bytes) : Head buffer := by
  by_cases hlen : buffer.length < 4
  · exact .short hlen (if_pos hlen)
  by_cases hlarge : bytesToInt buffer > maxPeerMessageSize
  · refine .oversized hlen hlarge ?_
    rw [nextFrame, if_neg hlen, if_pos hlarge]
  by_cases hcut : buffer.length < 4 + bytesToInt buffer
  · refine .cut hlen hlarge hcut ?_
    rw [nextFrame, if_neg hlen, if_neg hlarge, if_pos hcut]
  · refine .whole hlen hlarge hcut ((buffer.drop 4).take (bytesToInt buffer))
      (buffer.drop (4 + bytesToInt buffer)) ?_ ?_ ?_
    · rw [← List.drop_drop, List.take_append_drop]
    · rw [List.length_take, List.length_drop]
      omega
    · rw [nextFrame, if_neg hlen, if_neg hlarge, if_neg hcut]

theorem recvAll_four {s : Socket} (h : ¬ s.incoming.length < 4) :
    s.recvAll 4 = (some (s.incoming.take 4), { s with incoming := s.incoming.drop 4 }) := by
  rw [Socket.recvAll, if_pos (not_lt.1 h)]

/-- A length that is not too large is not cut off by the sum with the four bytes in front. -/
theorem uint32_frame {length : ℕ} (h : ¬ length > maxPeerMessageSize) :
    Cxx.uint32 (4 + length) = 4 + length := by
  have hmax : maxPeerMessageSize = 4194304 := rfl
  have hlt : 4 + length < 2 ^ 32 := by omega
  exact_mod_cast Cxx.uint32_of_lt hlt

section

variable (fuel : ℕ) (s : PeerState × Bytes) {buffer : Bytes}

/-- The reader waits. -/
theorem poll_wait (h : nextFrame buffer = none) :
    (reader fuel).poll { state := s, isOpen := true, buffer } =
      some (none, { state := s, isOpen := true, buffer }) := by
  have hnext : (reader fuel).next buffer = none := h
  rw [Reader.poll, if_pos rfl, hnext]

/-- The reader refuses a frame. -/
theorem poll_oversized {rest : Bytes} (h : nextFrame buffer = some (.oversized, rest)) :
    (reader fuel).poll { state := s, isOpen := true, buffer } =
      some (none, { state := s, isOpen := false, buffer := [] }) := by
  have hnext : (reader fuel).next buffer = some (.oversized, rest) := h
  rw [Reader.poll, if_pos rfl, hnext]
  rfl

/-- The reader accepts a frame. -/
theorem poll_whole {body rest : Bytes} (h : nextFrame buffer = some (.whole body, rest)) :
    (reader fuel).poll { state := s, isOpen := true, buffer } =
      (acceptFrame fuel s (.whole body)).map fun out =>
        (out.1, { state := out.2, isOpen := true, buffer := rest }) := by
  have hnext : (reader fuel).next buffer = some (.whole body, rest) := h
  have hact : (reader fuel).act = acceptFrame fuel := rfl
  rw [Reader.poll, if_pos rfl, hnext, hact]
  dsimp only
  rcases acceptFrame_whole fuel s body with h | ⟨msg, s', h⟩ <;> rw [h] <;> rfl

end

/-- The non-blocking function waits as the reader does. -/
theorem pollNonBlocking_simulates (fuel : ℕ) (k : PeerConnection × PeerMessage) :
    (pollNonBlocking fuel k).map (Prod.map id view) = (reader fuel).poll (view k) := by
  obtain ⟨⟨state, socket⟩, msg⟩ := k
  rw [pollNonBlocking, map_poll]
  cases socket with
  | none => rfl
  | some s =>
    show (PeerConnection.receiveMessageNonBlocking _ fuel msg).map shown =
      (reader fuel).poll { state := (state, msg.payload), isOpen := true, buffer := s.incoming }
    rw [PeerConnection.receiveMessageNonBlocking]
    dsimp only
    rw [bytesToInt_take]
    rcases head s.incoming with ⟨hlen, hnext⟩ | ⟨hlen, hlarge, hnext⟩ |
      ⟨hlen, hlarge, hcut, hnext⟩ | ⟨hlen, hlarge, hcut, body, rest, hbytes, hbody, hnext⟩
    · rw [if_pos hlen, poll_wait fuel _ hnext]
      rfl
    · rw [if_neg hlen, if_pos hlarge, poll_oversized fuel _ hnext]
      rfl
    · rw [if_neg hlen, if_neg hlarge, uint32_frame hlarge, if_pos hcut, poll_wait fuel _ hnext]
      rfl
    · rw [if_neg hlen, if_neg hlarge, uint32_frame hlarge, if_neg hcut, recvAll_four hlen,
        poll_whole fuel _ hnext]
      exact receiveBody_whole fuel _ hbytes hbody

/-- What the two functions have in common of the state of the reader: the state of the peer. -/
abbrev peerState : PeerState × Bytes → PeerState := Prod.fst

/-- The blocking function does what the reader does until a frame is cut off by the end of the
stream. -/
theorem pollBlocking_follows (fuel : ℕ) :
    (reader fuel).Follows view peerState (pollBlocking fuel) := by
  constructor
  · rintro ⟨⟨state, socket⟩, msg⟩ hwhole
    rw [pollBlocking, map_poll]
    cases socket with
    | none => rfl
    | some s =>
      have hsome : ¬ nextFrame s.incoming = none := fun h => hwhole ⟨rfl, h⟩
      show (PeerConnection.receiveMessage _ fuel msg).map shown =
        (reader fuel).poll { state := (state, msg.payload), isOpen := true, buffer := s.incoming }
      rw [PeerConnection.receiveMessage]
      dsimp only
      rcases head s.incoming with ⟨-, hnext⟩ | ⟨hlen, hlarge, hnext⟩ | ⟨-, -, -, hnext⟩ |
        ⟨hlen, hlarge, -, body, rest, hbytes, hbody, hnext⟩
      · exact absurd hnext hsome
      · rw [recvAll_four hlen, poll_oversized fuel _ hnext]
        dsimp only
        rw [bytesToInt_take, if_pos hlarge]
        rfl
      · exact absurd hnext hsome
      · rw [recvAll_four hlen, poll_whole fuel _ hnext]
        dsimp only
        rw [bytesToInt_take, if_neg hlarge]
        exact receiveBody_whole fuel _ hbytes hbody
  · rintro ⟨⟨state, socket⟩, msg⟩ hopen hnone
    cases socket with
    | none => cases hopen
    | some s =>
      have hnone : nextFrame s.incoming = none := hnone
      show ∃ k', (PeerConnection.receiveMessage ⟨state, some s⟩ fuel msg).map _ =
        some (none, k') ∧ _
      rw [PeerConnection.receiveMessage]
      dsimp only
      rcases head s.incoming with ⟨hlen, -⟩ | ⟨-, -, hnext⟩ | ⟨hlen, hlarge, hcut, -⟩ |
        ⟨-, -, -, _, _, -, -, hnext⟩
      · rw [recvAll_short hlen]
        exact ⟨_, rfl, rfl, rfl⟩
      · cases hnone.symm.trans hnext
      · have hrest : (s.incoming.drop 4).length < bytesToInt s.incoming := by
          rw [List.length_drop]
          omega
        obtain ⟨msg', hmsg'⟩ := @receiveBody_cut fuel ⟨state, some s⟩
          { s with incoming := s.incoming.drop 4 } { msg with length := bytesToInt s.incoming } hrest
        rw [recvAll_four hlen]
        dsimp only
        rw [bytesToInt_take, if_neg hlarge, hmsg']
        exact ⟨_, rfl, rfl, rfl⟩
      · cases hnone.symm.trans hnext

/-- What is compared: the messages, the state of the peer, and whether it is connected. -/
def observed (out : List PeerMessage × (PeerConnection × PeerMessage)) :
    List PeerMessage × PeerState × Bool :=
  (out.1, out.2.1.toPeerState, out.2.1.isConnected)

/-- **The two receiving functions agree**: for every stream, in whatever pieces it arrives and
however often `receiveMessageNonBlocking` is polled after each of them, as long as it is polled at
the end until it returns false, the messages and the state of the connection are those of repeated
calls of `receiveMessage` on the whole stream. An oversized frame disconnects both behind the same
messages. -/
theorem receive_agrees (fuel : ℕ) (c : PeerConnection) (msg : PeerMessage)
    (schedule : List (Bytes × ℕ)) {n m : ℕ}
    (hn : c.waiting.length + (arrivals schedule).length < n)
    (hm : c.waiting.length + (arrivals schedule).length < m) :
    (serve (pollNonBlocking fuel) arrive (schedule ++ [([], n)]) (c, msg)).map observed =
      (polls (pollBlocking fuel) m (arrive (c, msg) (arrivals schedule))).map observed := by
  have hserve : (serve (pollNonBlocking fuel) arrive (schedule ++ [([], n)]) (c, msg)).map observed =
      (reader fuel).seenResult peerState (view (c, msg)) (arrivals schedule) :=
    Reader.serve_eq (pollNonBlocking_simulates fuel) view_arrive peerState schedule hn
  have hpolls : (polls (pollBlocking fuel) m (arrive (c, msg) (arrivals schedule))).map observed =
      (reader fuel).seenResult peerState (view (c, msg)) (arrivals schedule) :=
    (pollBlocking_follows fuel).polls_eq view_arrive (arrivals schedule) hm
  rw [hserve, hpolls]

/-- A connection that has just been made, with the state of a peer. -/
def PeerState.connected (c : PeerState) : PeerConnection := { c with socket := some {} }

/-- The peer of an empty torrent. -/
def localPeer : PeerState where
  ip := ascii "127.0.0.1"
  port := 6881
  torrent := {}
  peerId := []

/-- A have message and a bitfield; both are cut inside their payload. -/
def cutFrames : List (Bytes × ℕ) :=
  [([0, 0, 0, 5, 4, 0, 0], 1), ([0, 1, 0, 0, 0, 3, 5, 64], 2), ([128], 0)]

/-- The two messages are polled as their last bytes arrive, and read from the whole stream. -/
theorem receive_agrees_cutFrames :
    (serve (pollNonBlocking 0) arrive (cutFrames ++ [([], 17)]) (localPeer.connected, .createChoke)).map
        observed =
      (polls (pollBlocking 0) 17 (arrive (localPeer.connected, .createChoke) (arrivals cutFrames))).map
        observed ∧
    (polls (pollBlocking 0) 17 (arrive (localPeer.connected, .createChoke) (arrivals cutFrames))).map
        (fun out => out.1.map fun msg => msg.payload) = some [[0, 0, 0, 1], [64, 128]] :=
  ⟨receive_agrees 0 localPeer.connected .createChoke cutFrames (by decide) (by decide), by decide +kernel⟩

end Gush.Wire
