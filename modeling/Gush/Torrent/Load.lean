import Gush.Bencode.Parse
import Gush.Torrent.Info

/-!
# Loading a `.torrent` file

`loadTorrent` and the helpers it calls. SHA1 is a parameter, and so is the peer id, which the
code draws at random. The fuel is that of the parser: `none` means that one of the parses runs out
of it.
-/

namespace Gush

open Cxx Bencode

namespace Bencode.BencodeValue

def asInt? : BencodeValue → Option ℤ
  | .int i => some i
  | _ => none

def asString? : BencodeValue → Option Bytes
  | .str s => some s
  | _ => none

def asList? : BencodeValue → Option (List BencodeValue)
  | .list l => some l
  | _ => none

def asDict? : BencodeValue → Option BencodeDict
  | .dict d => some d
  | _ => none

end Bencode.BencodeValue

namespace Torrent

/-- `announce`, then every tracker of every tier of `announce-list`. -/
def announceUrls (dict : BencodeDict) : List Bytes :=
  ((dictGet dict (ascii "announce")).bind BencodeValue.asString?).toList ++
    (((dictGet dict (ascii "announce-list")).bind BencodeValue.asList?).getD []).flatMap fun tier =>
      (tier.asList?.getD []).filterMap BencodeValue.asString?

/-- The components of a file's path, joined by slashes. -/
def joinPath : List BencodeValue → Except Exn Bytes
  | [] => .ok []
  | v :: rest =>
    match v with
    | .str (c :: s) =>
      match rest with
      | [] => .ok (c :: s)
      | _ :: _ => (joinPath rest).map fun p => c :: s ++ '/'.toUInt8 :: p
    | _ => throwRuntime "Invalid torrent file: invalid file path component"

/-- One element of the `files` list. -/
def readFileEntry (v : BencodeValue) : Except Exn FileEntry :=
  match v.asDict? with
  | none => throwRuntime "Invalid torrent file: file entry is not a dictionary"
  | some fileDict =>
    match (dictGet fileDict (ascii "length")).bind BencodeValue.asInt? with
    | none => throwRuntime "Invalid torrent file: missing file length"
    | some length =>
      match (dictGet fileDict (ascii "path")).bind BencodeValue.asList? with
      | none => throwRuntime "Invalid torrent file: missing file path"
      | some [] => throwRuntime "Invalid torrent file: missing file path"
      | some (c :: components) =>
        (joinPath (c :: components)).map fun path => { path, length := Int64.ofInt length }

/-- The file list, or the length of the single file. -/
def readLayout (infoDict : BencodeDict) (torrent : TorrentInfo) : Except Exn TorrentInfo :=
  match (dictGet infoDict (ascii "files")).bind BencodeValue.asList? with
  | some [] => throwRuntime "Invalid torrent file: empty files list"
  | some (f :: files) =>
    ((f :: files).mapM readFileEntry).map fun entries => { torrent with files := entries }
  | none =>
    match (dictGet infoDict (ascii "length")).bind BencodeValue.asInt? with
    | none => throwRuntime "Invalid torrent file: missing length"
    | some length =>
      .ok { torrent with fileLength := Int64.ofInt length, fileName := torrent.name }

/-- Everything `loadTorrent` takes from the parsed file, with the value of the root key `info`. -/
def readRoot (peerId : Bytes) (root : BencodeValue) : Except Exn (TorrentInfo × BencodeValue) :=
  match root.asDict? with
  | none => throwRuntime "Invalid torrent file: root is not a dictionary"
  | some dict =>
    let torrent : TorrentInfo := {
      peerId
      announceList := announceUrls dict
      comment := ((dictGet dict (ascii "comment")).bind BencodeValue.asString?).getD []
      createdBy := ((dictGet dict (ascii "created by")).bind BencodeValue.asString?).getD [] }
    match dictGet dict (ascii "info") with
    | some (.dict infoDict) =>
      match (dictGet infoDict (ascii "piece length")).bind BencodeValue.asInt? with
      | none => throwRuntime "Invalid torrent file: missing piece length"
      | some pieceLength =>
        match (dictGet infoDict (ascii "pieces")).bind BencodeValue.asString? with
        | none => throwRuntime "Invalid torrent file: missing pieces"
        | some pieces =>
          match (dictGet infoDict (ascii "name")).bind BencodeValue.asString? with
          | none => throwRuntime "Invalid torrent file: missing name"
          | some name =>
            match readLayout infoDict
                { torrent with pieceLength := Int64.ofInt pieceLength, pieces, name } with
            | .error e => .error e
            | .ok torrent =>
              match validateTorrentInfo torrent with
              | .error e => .error e
              | .ok () => .ok (torrent, .dict infoDict)
    | _ => throwRuntime "Invalid torrent file: missing info dictionary"

/-! ### The bytes of the info dictionary -/

/-- `content.find(pattern, pos)` for a pattern that is not empty. -/
def findPattern (content pattern : Bytes) (pos : ℕ) : Option ℕ :=
  ((content.drop pos).tails.findIdx? fun s => pattern.isPrefixOf s).map (pos + ·)

/-- The byte in front of a key position: none at the start, else `d` or `e`. -/
def validStart (content : Bytes) (pos : ℕ) : Bool :=
  pos == 0 || content[pos - 1]? == some 'd'.toUInt8 || content[pos - 1]? == some 'e'.toUInt8

/-- The mandatory keys, by which the info dictionary is recognised. -/
def isInfoDict (v : BencodeValue) : Bool :=
  match v with
  | .dict d => (dictGet d (ascii "pieces")).isSome && (dictGet d (ascii "piece length")).isSome
  | _ => false

/-- The search loop of `extractInfoDictBytes`, from `pos` on. -/
def extractLoop : ℕ → Bytes → ℕ → BencodeValue → Option Bytes
  | 0, _, _, _ => none
  | fuel + 1, content, pos, parsedInfo =>
    match findPattern content (ascii "4:info") pos with
    | none => some (encode parsedInfo)
    | some k =>
      if validStart content k then
        match parseImpl fuel content (k + 6) with
        | none => none
        | some (.ok (v, endPos)) =>
          if isInfoDict v then some (substr content (k + 6) (sizeSub endPos (k + 6)))
          else extractLoop fuel content (k + 6) parsedInfo
        | some (.error _) => extractLoop fuel content (k + 6) parsedInfo
      else extractLoop fuel content (k + 6) parsedInfo

def extractInfoDictBytes (fuel : ℕ) (content : Bytes) (parsedInfo : BencodeValue) : Option Bytes :=
  extractLoop fuel content 0 parsedInfo

/-- `loadTorrent`; `file` is the content of the file, `none` if it cannot be opened. -/
def loadTorrent (sha1 : Bytes → Bytes) (peerId : Bytes) (fuel : ℕ) (filename : Bytes)
    (file : Option Bytes) : Option (Except Exn TorrentInfo) :=
  match file with
  | none => some (.error (.runtimeError (ascii "Cannot open torrent file: " ++ filename)))
  | some content =>
    match parseImpl fuel content 0 with
    | none => none
    | some (.error e) => some (.error e)
    | some (.ok (root, _)) =>
      match readRoot peerId root with
      | .error e => some (.error e)
      | .ok (torrent, info) =>
        (extractInfoDictBytes fuel content info).map fun infoEncoded =>
          .ok { torrent with infoHash := sha1 infoEncoded }

end Torrent

end Gush
