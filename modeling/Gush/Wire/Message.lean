import Gush.Downloader.Messages

/-!
# Peer messages on the wire

`PeerMessage` with its length, the messages that the client creates, and the bytes that
`sendMessage` puts on the wire: a big-endian length, and for a positive length the identifier and
the payload.
-/

namespace Gush

namespace MessageId

/-- `static_cast<MessageId>`. -/
def ofByte (b : UInt8) : MessageId :=
  match b.toNat with
  | 0 => .choke
  | 1 => .unchoke
  | 2 => .interested
  | 3 => .notInterested
  | 4 => .havePiece
  | 5 => .bitfield
  | 6 => .request
  | 7 => .block
  | 8 => .cancel
  | 9 => .port
  | 20 => .extended
  | 255 => .keepAlive
  | _ => .other b

/-- `static_cast<uint8_t>`. -/
def toByte : MessageId → UInt8
  | .choke => 0
  | .unchoke => 1
  | .interested => 2
  | .notInterested => 3
  | .havePiece => 4
  | .bitfield => 5
  | .request => 6
  | .block => 7
  | .cancel => 8
  | .port => 9
  | .extended => 20
  | .keepAlive => 255
  | .other b => b

theorem toByte_ofByte (b : UInt8) : (ofByte b).toByte = b := by
  unfold ofByte
  split
  all_goals first
    | rfl
    | (rename_i h; exact (UInt8.toNat_inj.1 h).symm)

end MessageId

namespace Wire

open Downloader (bytesToInt)

/-- `MAX_PEER_MESSAGE_SIZE`. -/
def maxPeerMessageSize : ℕ := 4 * 1024 * 1024

/-- `intToBytes`. -/
def intToBytes (value : ℕ) : Bytes := BigEndian.encode 4 value

/-- `PeerMessage`, with its length. -/
structure PeerMessage extends Gush.PeerMessage where
  length : ℕ

namespace PeerMessage

def createKeepAlive : PeerMessage where
  length := 0
  id := .keepAlive

def createChoke : PeerMessage where
  length := 1
  id := .choke

def createUnchoke : PeerMessage where
  length := 1
  id := .unchoke

def createInterested : PeerMessage where
  length := 1
  id := .interested

def createHave (pieceIndex : ℕ) : PeerMessage where
  length := 5
  id := .havePiece
  payload := intToBytes pieceIndex

/-- The payload of a request and of a cancel. -/
def blockPayload (piece offset length : ℕ) : Bytes :=
  intToBytes piece ++ intToBytes offset ++ intToBytes length

def createRequest (piece offset length : ℕ) : PeerMessage where
  length := 13
  id := .request
  payload := blockPayload piece offset length

def createCancel (piece offset length : ℕ) : PeerMessage where
  length := 13
  id := .cancel
  payload := blockPayload piece offset length

/-- What `sendMessage` writes. -/
def bytes (msg : PeerMessage) : Bytes :=
  intToBytes msg.length ++ if msg.length > 0 then msg.id.toByte :: msg.payload else []

end PeerMessage

@[simp] theorem length_intToBytes (value : ℕ) : (intToBytes value).length = 4 :=
  BigEndian.length_encode 4 value

/-- Four bytes are read back. -/
theorem bytesToInt_intToBytes {value : ℕ} (h : value < 2 ^ 32) (rest : Bytes) :
    bytesToInt (intToBytes value ++ rest) = value := by
  have htake : (intToBytes value ++ rest).take 4 = intToBytes value := by
    rw [← length_intToBytes value, List.take_left]
  rw [bytesToInt, htake]
  exact BigEndian.decode_encode_of_lt h

theorem bytesToInt_of_lt {value : ℕ} (h : value < 2 ^ 32) : bytesToInt (intToBytes value) = value := by
  have hint := bytesToInt_intToBytes h []
  rwa [List.append_nil] at hint

theorem intToBytes_bytesToInt {bytes : Bytes} (h : bytes.length = 4) :
    intToBytes (bytesToInt bytes) = bytes := by
  rw [bytesToInt, List.take_of_length_le h.le, intToBytes, ← h, BigEndian.encode_decode]

end Wire

end Gush
