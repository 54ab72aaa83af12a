import Gush.Magnet.FromMetadata
import Gush.Wire.Connection

/-!
# Downloading metadata from peers

`MetadataDownloader` with the sockets that it talks over. A contact is what happens on one socket:
whether the connection comes about, and for each send of the client whether it succeeds and what
arrives until the next one. A reception fails if not enough has arrived.

What the trackers and the DHT answer is an argument of `start`, as a list of contacts. Parsing
takes fuel: `none` means that a parse has not come to its end.
-/

namespace Gush

open Cxx Bencode Wire
open Downloader (bytesToInt)

/-- `MetadataDownloader`. -/
structure MetadataDownloader where
  magnet : MagnetLink
  metadata : Bytes := []
  complete : Bool := false
  metadataSize : ℤ := 0
  numPieces : ℤ := 0
  pieces : List Bytes := []

namespace Metadata

/-! ### Sockets -/

/-- A socket together with what will happen on it: for each send, the bytes that arrive behind it,
or `none` if it fails. -/
structure Link extends Socket where
  turns : List (Option Bytes) := []

/-- What happens when a peer is contacted. -/
structure Contact where
  /-- There is a connection: the address is valid and the peer answers. -/
  connects : Bool := true
  turns : List (Option Bytes) := []

namespace Link

/-- `sendFull`. -/
def sendFull (sock : Link) (data : Bytes) : Bool × Link :=
  match sock.turns with
  | some bytes :: turns =>
    (true, { incoming := sock.incoming ++ bytes, outgoing := sock.outgoing ++ data, turns })
  | none :: turns => (false, { sock with turns })
  | [] => (false, sock)

/-- `recvFull`. -/
def recvFull (sock : Link) (size : ℕ) : Option Bytes × Link :=
  match sock.toSocket.recvAll size with
  | (received, s) => (received, { sock with toSocket := s })

end Link

/-- `EXTENDED_MESSAGE_ID`. -/
def extendedMessageId : UInt8 := 20

/-- `EXTENDED_HANDSHAKE_ID`. -/
def extendedHandshakeId : UInt8 := 0

/-- `METADATA_PIECE_SIZE`. -/
def metadataPieceSize : ℕ := 16384

/-- The loop of `readExtendedMessage` with the rounds that are left. An extended message of length
one has no identifier of its own: the code takes one from the bytes behind it, and the size of its
payload wraps around. -/
def readLoop (expectedExtId : UInt8) : ℕ → Link → Option Bytes × Link
  | 0, sock => (none, sock)
  | rounds + 1, sock =>
    match sock.recvFull 4 with
    | (none, sock) => (none, sock)
    | (some lenBuf, sock) =>
      let len := bytesToInt lenBuf
      if len = 0 then readLoop expectedExtId rounds sock
      else if len > 4 * 1024 * 1024 then (none, sock)
      else
        match sock.recvFull 1 with
        | (none, sock) => (none, sock)
        | (some idBuf, sock) =>
          if idBuf.headD 0 ≠ extendedMessageId then
            match sock.recvFull (len - 1) with
            | (none, sock) => (none, sock)
            | (some _, sock) => readLoop expectedExtId rounds sock
          else
            match sock.recvFull 1 with
            | (none, sock) => (none, sock)
            | (some extBuf, sock) =>
              match sock.recvFull (uint32 (len - 2)) with
              | (none, sock) => (none, sock)
              | (some payload, sock) =>
                if extBuf.headD 0 = expectedExtId then (some payload, sock)
                else readLoop expectedExtId rounds sock

/-- `readExtendedMessage`. -/
def readExtendedMessage (sock : Link) (expectedExtId : UInt8) : Option Bytes × Link :=
  readLoop expectedExtId 4096 sock

/-- An extended message of the client: length, identifiers, and a dictionary. -/
def extendedFrame (extId : UInt8) (dict : Bytes) : Bytes :=
  intToBytes (1 + 1 + dict.length) ++ extendedMessageId :: extId :: dict

/-- The peer id of a metadata download. -/
def clientId : Bytes := ascii "-GT0001-" ++ List.replicate 12 'M'.toUInt8

end Metadata

namespace MetadataDownloader

open Metadata

variable (d : MetadataDownloader)

/-! ### One peer -/

/-- `performHandshake`. -/
def performHandshake (sock : Link) : Bool × Link :=
  match sock.sendFull (handshake d.magnet.infoHashRaw clientId) with
  | (false, sock) => (false, sock)
  | (true, sock) =>
    match sock.recvFull 68 with
    | (none, sock) => (false, sock)
    | (some received, sock) => (handshakeAccepted d.magnet.infoHashRaw received, sock)

/-- The rounding up of `exchangeExtensions`, on `int`. -/
def pieceCount (metadataSize : ℤ) : ℤ :=
  Int.tdiv (int32 (int32 (metadataSize + metadataPieceSize) - 1)) metadataPieceSize

/-- `pieces_.resize(numPieces_)`; `none` is the `std::length_error` for a negative number. -/
def resizePieces (pieces : List Bytes) (numPieces : ℤ) : Option (List Bytes) :=
  if numPieces < 0 then none
  else some ((pieces ++ List.replicate numPieces.toNat []).take numPieces.toNat)

/-- What the `metadata_size` of an extended handshake does. The Boolean says that there was no
exception. -/
def announceSize (dict : BencodeDict) : Bool × MetadataDownloader :=
  match dictGetInt dict (ascii "metadata_size") with
  | none => (true, d)
  | some size =>
    let metadataSize := int32 size
    let numPieces := pieceCount metadataSize
    match resizePieces d.pieces numPieces with
    | none => (false, { d with metadataSize, numPieces })
    | some pieces => (true, { d with metadataSize, numPieces, pieces })

/-- The `ut_metadata` identifier of an extended handshake, or the initial value. -/
def announcedId (dict : BencodeDict) : ℤ :=
  match dictGet dict (ascii "m") with
  | some (.dict m) =>
    match dictGetInt m (ascii "ut_metadata") with
    | some id => int32 id
    | none => -1
  | _ => -1

/-- What an extended handshake does, up to the identifier; `none` is an exception. -/
def readHandshake (r : Outcome) : Option ℤ × MetadataDownloader :=
  match r with
  | .error _ => (none, d)
  | .ok (.dict dict, _) =>
    match d.announceSize dict with
    | (false, d) => (none, d)
    | (true, d) => (some (announcedId dict), d)
  | .ok _ => (some (-1), d)

/-- `exchangeExtensions`; the identifier is `none` if it returns false. -/
def exchangeExtensions (fuel : ℕ) (sock : Link) : Option (Option ℤ × MetadataDownloader × Link) :=
  match sock.sendFull (extendedFrame extendedHandshakeId (ascii "d1:md2:ut_metadatai1ee")) with
  | (false, sock) => some (none, d, sock)
  | (true, sock) =>
    match readExtendedMessage sock extendedHandshakeId with
    | (none, sock) => some (none, d, sock)
    | (some extData, sock) =>
      (parseImpl fuel extData 0).map fun r =>
        match d.readHandshake r with
        | (none, d) => (none, d, sock)
        | (some metadataExtId, d) =>
          (if metadataExtId > 0 ∧ d.metadataSize > 0 then some metadataExtId else none, d, sock)

/-- The dictionary of a request. -/
def requestDict (i : ℕ) : Bytes :=
  ascii "d8:msg_typei0e5:piecei" ++ (Decimal.numeral i ++ ascii "ee")

/-- `msg_type` of a metadata message, or the initial value. -/
def msgType (dict : BencodeDict) : ℤ :=
  match dictGetInt dict (ascii "msg_type") with
  | some t => int32 t
  | none => -1

/-- What an answer does to the pieces; `none` if the request has failed. Without data behind the
dictionary, the piece stays as it is. -/
def acceptPiece (pieces : List Bytes) (i : ℕ) (payload : Bytes) (r : Outcome) :
    Option (List Bytes) :=
  match r with
  | .ok (.dict dict, pos) =>
    if msgType dict = 1 then
      some (if pos < payload.length then pieces.set i (payload.drop pos) else pieces)
    else none
  | _ => none

/-- The loop of `requestMetadata` over the pieces; the Boolean says that all of them were
answered. -/
def requestLoop (fuel : ℕ) (extId : UInt8) : List ℕ → List Bytes → Link →
    Option (Bool × List Bytes × Link)
  | [], pieces, sock => some (true, pieces, sock)
  | i :: rest, pieces, sock =>
    match sock.sendFull (extendedFrame extId (requestDict i)) with
    | (false, sock) => some (false, pieces, sock)
    | (true, sock) =>
      match readExtendedMessage sock extId with
      | (none, sock) => some (false, pieces, sock)
      | (some payload, sock) =>
        match parseImpl fuel payload 0 with
        | none => none
        | some r =>
          match acceptPiece pieces i payload r with
          | none => some (false, pieces, sock)
          | some pieces => requestLoop fuel extId rest pieces sock

/-- The end of `requestMetadata`: the pieces are joined and checked. -/
def verify (sha1 : Bytes → Bytes) : Bool × MetadataDownloader :=
  let metadata := d.pieces.flatten
  if int32 metadata.length ≠ d.metadataSize then (false, { d with metadata := [] })
  else if sha1 metadata ≠ d.magnet.infoHashRaw then (false, { d with metadata := [] })
  else (true, { d with metadata, complete := true })

/-- `requestMetadata`. -/
def requestMetadata (sha1 : Bytes → Bytes) (fuel : ℕ) (sock : Link) (metadataExtId : ℤ) :
    Option (Bool × MetadataDownloader × Link) :=
  match requestLoop fuel (UInt8.ofInt metadataExtId) (List.range d.numPieces.toNat) d.pieces sock with
  | none => none
  | some (false, pieces, sock) => some (false, { d with pieces }, sock)
  | some (true, pieces, sock) =>
    let out := { d with pieces }.verify sha1
    some (out.1, out.2, sock)

/-- `downloadFromPeer`. -/
def downloadFromPeer (sha1 : Bytes → Bytes) (fuel : ℕ) (peer : Contact) :
    Option (Bool × MetadataDownloader) :=
  if peer.connects then
    match d.performHandshake { turns := peer.turns } with
    | (false, _) => some (false, d)
    | (true, sock) =>
      match d.exchangeExtensions fuel sock with
      | none => none
      | some (none, d, _) => some (false, d)
      | some (some metadataExtId, d, sock) =>
        if metadataExtId < 0 then some (false, d)
        else (d.requestMetadata sha1 fuel sock metadataExtId).map fun out => (out.1, out.2.1)
  else some (false, d)

/-! ### The public calls -/

/-- The loop of `start` over the peers. -/
def tryPeers (sha1 : Bytes → Bytes) (fuel : ℕ) : List Contact → MetadataDownloader →
    Option MetadataDownloader
  | [], d => some d
  | peer :: peers, d =>
    match d.downloadFromPeer sha1 fuel peer with
    | none => none
    | some (success, d) => if success ∧ d.complete then some d else tryPeers sha1 fuel peers d

/-- `start`, with all peers that the trackers and the DHT have named. -/
def start (sha1 : Bytes → Bytes) (fuel : ℕ) (allPeers : List Contact) :
    Option (Bool × MetadataDownloader) :=
  if allPeers = [] then some (false, d)
  else (tryPeers sha1 fuel allPeers d).map fun d => (d.complete, d)

def stop : MetadataDownloader := { d with complete := false }

def addPeer (sha1 : Bytes → Bytes) (fuel : ℕ) (peer : Contact) : Option MetadataDownloader :=
  if d.complete then some d else (d.downloadFromPeer sha1 fuel peer).map Prod.snd

def isComplete : Bool := d.complete

def getTorrentData : Bytes := d.metadata

end MetadataDownloader

end Gush
