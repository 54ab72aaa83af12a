import Gush.Downloader.Completion
import Gush.Loop.Sound
import Gush.Magnet.Link
import Gush.Metadata.Search
import Gush.Program.Arguments
import Gush.Torrent.InfoBytes

/-!
# The program

`main`: the command line is read, a torrent comes from a file or, by way of the metadata, from a
magnet link, and the downloader works on it until it is complete or is stopped. `main_sound` says what
"Download completed successfully!" stands for.
-/

namespace Gush.Program

open Cxx Bencode Posix Downloader

def isMagnetLink (input : Bytes) : Bool := input.length ≥ 8 ∧ substr input 0 8 = ascii "magnet:?"

/-- `MagnetLink::isValid`. -/
def isValid (magnet : MagnetLink) : Bool := magnet.infoHashRaw ≠ []

/-- All that a run of the program meets: the peer identifier that is generated, the torrent files, what
happens in the search for metadata, the file system, what happens in `start`, and what happens in the
loop, which ends at the latest when it notices that `main` has stopped it. -/
structure Machine where
  sha1 : Bytes → Bytes
  fuel : ℕ
  peerId : Bytes
  file : Bytes → Option Bytes
  search : MetadataDownloader.Surroundings
  world : World
  faults : List Fault := []
  stopAfter : Option ℕ := none
  sorter : (α : Type) → Sorting.Sorter α
  opening : Opening
  unassigned : Wire.PeerMessage
  rounds : List Round

/-- The exit code, or the result that is printed before the program exits with 0: whether the download
is complete, and the downloader. -/
inductive Outcome
  | exit (code : ℕ)
  | finished (complete : Bool) (client : Client)

variable (m : Machine)

/-- The torrent of the input, unless the program gives up. -/
def obtain (input : Bytes) : Option (Option TorrentInfo) :=
  if isMagnetLink input then
    let magnet := Magnet.parseMagnetLink input
    if !isValid magnet then some none
    else
      match MetadataDownloader.downloadMetadata m.sha1 m.search magnet with
      | none => none
      | some metadata =>
        if metadata = [] then some none
        else (Magnet.createTorrentFromMetadata m.peerId m.fuel magnet metadata).map Except.toOption
  else (Torrent.loadTorrent m.sha1 m.peerId m.fuel input (m.file input)).map Except.toOption

/-- What `stop` leaves behind. -/
def stop (c : Client) : Client := { c with links := [] }

/-- The download, from the constructor to the last call of `isComplete`. -/
def download (opts : CliOptions) (torrent : TorrentInfo) : Option (Bool × Client) :=
  let world := (Utils.createDirectories m.world opts.savePath).2
  let downloader := Client.init torrent opts.savePath { overwrite := opts.overwrite }
    { maxPeers := opts.maxPeers, refreshTrackers := opts.refreshTrackers } world
  let finish := fun c : Client => (c.base.isComplete, stop c)
  match downloader.start m.sha1 m.faults m.stopAfter with
  | (false, c) => some (finish c)
  | (true, c) =>
    (c.downloadLoop m.sorter m.opening m.sha1 m.unassigned m.rounds).map fun out => finish out.2

/-- `main`; `none` if it does not return. -/
def main (args : List Bytes) : Option Outcome :=
  match parseArgs args with
  | .help => some (.exit 0)
  | .failed _ => some (.exit 1)
  | .ok opts =>
    match obtain m opts.input with
    | none => none
    | some none => some (.exit 1)
    | some (some torrent) =>
      (download m opts torrent).map fun out => .finished out.1 out.2

/-! ### The download -/

variable {m : Machine} {opts : CliOptions} {torrent : TorrentInfo} {client : Client}

theorem files_of_runs {sha1 : Bytes → Bytes} {plain : Prop} {d d' : Downloader}
    (h : Client.Runs sha1 plain d d') : d'.outputFiles = d.outputFiles := by
  obtain ⟨events, -, rfl⟩ := h
  exact (run_fields sha1 d events).2

/-- A complete download is on disk. -/
theorem onDisk_of_download (ht : Fitting torrent) (hpaths : (paths torrent opts.savePath).Nodup)
    (hpos : 0 < torrent.numPieces) (h : download m opts torrent = some (true, client)) :
    OnDisk m.sha1 torrent opts.savePath client.downloader := by
  rw [download] at h
  dsimp only at h
  generalize (Utils.createDirectories m.world opts.savePath).2 = world at h
  obtain ⟨options, hoptions, hmax⟩ : ∃ options : DownloadOptions,
      { overwrite := opts.overwrite } = options ∧ 0 ≤ options.maxRequestsPerPeer :=
    ⟨_, rfl, show (0 : ℤ) ≤ 5 by decide⟩
  rw [hoptions] at h
  rcases hstart : (Client.init torrent opts.savePath options
    { maxPeers := opts.maxPeers, refreshTrackers := opts.refreshTrackers } world).start m.sha1 m.faults
      m.stopAfter with ⟨_ | _, c⟩ <;> rw [hstart] at h
  · obtain ⟨hcomplete, rfl⟩ := Prod.mk.inj (Option.some.inj h)
    obtain ⟨-, rfl⟩ := Prod.mk.inj hstart
    exact (onDisk_of_start (startable_init ht.accepted ht.pieceLength_le _ _ _) ht hpaths rfl hpos
      hcomplete).congr rfl rfl rfl
  obtain ⟨⟨complete, c'⟩, hloop, hout⟩ := Option.map_eq_some_iff.1 h
  obtain ⟨hcomplete, rfl⟩ := Prod.mk.inj hout
  have hlaunched := Client.launched_start ht
    (show ((Client.init torrent opts.savePath options _ world).addKnown []).start _ _ _ = _ from hstart)
  obtain ⟨htrue, rfl⟩ := Prod.mk.inj hstart
  -- neither restoring nor the loop touches the list of files
  obtain ⟨w, w', files, hopen, hrestored⟩ :=
    start_launched (d := Downloader.init torrent opts.savePath options world) htrue
  have hfiles : ((Downloader.init torrent opts.savePath options world).start m.sha1 m.faults
      m.stopAfter).2.outputFiles.map OutputFile.path = paths torrent opts.savePath := by
    rw [hrestored]
    exact paths_of_restore (startable_init ht.accepted ht.pieceLength_le _ _ _) hopen
  obtain ⟨-, hruns⟩ := Client.runs_downloadLoop hlaunched.placed hloop
  have hend : Client.Guarantees m.sha1 torrent options true c' :=
    hlaunched.guarantees ht (hfiles.symm ▸ hpaths) hmax hruns fun _ => hcomplete
  refine ⟨?_, fun i hi => ((hend.complete rfl).1 i hi).congr rfl rfl rfl⟩
  exact (congrArg (List.map OutputFile.path) (files_of_runs hruns)).trans hfiles

/-! ### The torrent -/

/-- The torrent has what an info dictionary says. -/
def Describes (infoDict : BencodeDict) (torrent : TorrentInfo) : Prop :=
  dictGet infoDict (ascii "pieces") = some (.str torrent.pieces) ∧
    ∃ n, dictGet infoDict (ascii "piece length") = some (.int n) ∧
      torrent.pieceLength = Int64.ofInt n

/-- The torrent is the one of a magnet link: its info dictionary has the hash of the link. -/
def FromMagnet (m : Machine) (input : Bytes) (torrent : TorrentInfo) : Prop :=
  torrent.infoHash = (Magnet.parseMagnetLink input).infoHashRaw ∧
    ∃ metadata infoDict endPos, m.sha1 metadata = (Magnet.parseMagnetLink input).infoHashRaw ∧
      parseImpl m.fuel metadata 0 = some (.ok (.dict infoDict, endPos)) ∧
      Describes infoDict torrent

/-- The torrent is the one of a torrent file. -/
def FromFile (m : Machine) (input : Bytes) (torrent : TorrentInfo) : Prop :=
  ∃ content, m.file input = some content ∧
    Torrent.loadTorrent m.sha1 m.peerId m.fuel input (some content) = some (.ok torrent)

/-- The layout of the files leaves the other fields alone. -/
theorem readLayout_fields {infoDict : BencodeDict} {t t' : TorrentInfo}
    (h : Magnet.readLayout infoDict t = .ok t') :
    t'.infoHash = t.infoHash ∧ t'.pieces = t.pieces ∧ t'.pieceLength = t.pieceLength := by
  unfold Magnet.readLayout at h
  split at h
  · cases h
  · rename_i f files _
    cases hentries : (f :: files).mapM Magnet.readFileEntry with
    | error e =>
      rw [hentries] at h
      cases h
    | ok entries =>
      rw [hentries] at h
      cases h
      exact ⟨rfl, rfl, rfl⟩
  · split at h
    · cases h
    · cases h
      exact ⟨rfl, rfl, rfl⟩

theorem asDict?_eq_some {v : BencodeValue} {dict : BencodeDict} (h : v.asDict? = some dict) :
    v = .dict dict := by
  cases v <;> cases h
  rfl

theorem asInt?_eq_some {v : BencodeValue} {n : ℤ} (h : v.asInt? = some n) : v = .int n := by
  cases v <;> cases h
  rfl

theorem asString?_eq_some {v : BencodeValue} {s : Bytes} (h : v.asString? = some s) : v = .str s := by
  cases v <;> cases h
  rfl

/-- What is created from metadata. -/
theorem readInfo_ok {magnet : MagnetLink} {peerId : Bytes} {root : BencodeValue}
    (h : Magnet.readInfo magnet peerId root = .ok torrent) :
    torrent.Accepted ∧ torrent.infoHash = magnet.infoHashRaw ∧
      ∃ infoDict, root = .dict infoDict ∧ Describes infoDict torrent := by
  unfold Magnet.readInfo at h
  split at h
  · cases h
  rename_i infoDict hroot
  dsimp only at h
  split at h
  · cases h
  rename_i n hlength
  split at h
  · cases h
  rename_i pieces hpieces
  split at h
  · cases h
  rename_i name hname
  split at h
  · cases h
  rename_i t hlayout
  split at h
  · cases h
  rename_i hvalid
  obtain rfl := Except.ok.inj h
  obtain ⟨hhash, hpieces', hlength'⟩ := readLayout_fields hlayout
  obtain ⟨v, hv, hn⟩ := Option.bind_eq_some_iff.1 hlength
  obtain ⟨v', hv', hs⟩ := Option.bind_eq_some_iff.1 hpieces
  obtain rfl := asInt?_eq_some hn
  obtain rfl := asString?_eq_some hs
  -- the display name only replaces the name
  have hsame : (Magnet.withDisplayName magnet t).infoHash = t.infoHash ∧
      (Magnet.withDisplayName magnet t).pieces = t.pieces ∧
      (Magnet.withDisplayName magnet t).pieceLength = t.pieceLength := by
    unfold Magnet.withDisplayName
    split_ifs <;> exact ⟨rfl, rfl, rfl⟩
  obtain ⟨hhash₂, hpieces₂, hlength₂⟩ := hsame
  refine ⟨hvalid, hhash₂.trans hhash, infoDict, asDict?_eq_some hroot, ?_, n, hv, ?_⟩
  · rw [hpieces₂, hpieces']
    exact hv'
  · rw [hlength₂, hlength']

theorem toOption_eq_some {α : Type} {x : Except Exn α} {a : α} (h : x.toOption = some a) :
    x = .ok a := by
  cases x <;> cases h
  rfl

theorem createTorrent_ok {peerId : Bytes} {fuel : ℕ} {magnet : MagnetLink} {metadata : Bytes}
    (h : Magnet.createTorrentFromMetadata peerId fuel magnet metadata = some (.ok torrent)) :
    ∃ root endPos, parseImpl fuel metadata 0 = some (.ok (root, endPos)) ∧
      Magnet.readInfo magnet peerId root = .ok torrent := by
  unfold Magnet.createTorrentFromMetadata at h
  split at h
  · cases h
  · cases h
  · rename_i root endPos hparse
    exact ⟨root, endPos, hparse, Option.some.inj h⟩

theorem accepted_of_loadTorrent {sha1 : Bytes → Bytes} {peerId : Bytes} {fuel : ℕ}
    {filename content : Bytes}
    (h : Torrent.loadTorrent sha1 peerId fuel filename (some content) = some (.ok torrent)) :
    torrent.Accepted := by
  unfold Torrent.loadTorrent at h
  dsimp only at h
  split at h
  · cases h
  · cases h
  · split at h
    · cases h
    · rename_i t info hroot
      obtain ⟨infoEncoded, -, hout⟩ := Option.map_eq_some_iff.1 h
      obtain rfl := Except.ok.inj hout
      obtain ⟨-, -, -, haccepted⟩ := Torrent.readRoot_ok hroot
      exact haccepted

/-- Where the torrent comes from. -/
theorem obtain_spec {input : Bytes} (h : obtain m input = some (some torrent)) :
    torrent.Accepted ∧
      if isMagnetLink input then FromMagnet m input torrent else FromFile m input torrent := by
  rw [obtain] at h
  by_cases hmagnet : isMagnetLink input = true
  · rw [if_pos hmagnet] at h ⊢
    dsimp only at h
    by_cases hvalid : isValid (Magnet.parseMagnetLink input) = true
    · rw [hvalid, if_neg (by decide)] at h
      cases hmetadata : MetadataDownloader.downloadMetadata m.sha1 m.search
          (Magnet.parseMagnetLink input) with
      | none =>
        rw [hmetadata] at h
        cases h
      | some metadata =>
        rw [hmetadata] at h
        dsimp only at h
        split_ifs at h with hempty
        · cases h
        obtain ⟨result, hcreate, hok⟩ := Option.map_eq_some_iff.1 h
        obtain rfl := toOption_eq_some hok
        obtain ⟨root, endPos, hparse, hread⟩ := createTorrent_ok hcreate
        obtain ⟨haccepted, hhash, infoDict, rfl, hdescribes⟩ := readInfo_ok hread
        exact ⟨haccepted, hhash, metadata, infoDict, endPos,
          MetadataDownloader.downloadMetadata_sound hmetadata hempty, hparse, hdescribes⟩
    · rw [Bool.eq_false_of_not_eq_true hvalid, if_pos (by decide)] at h
      cases h
  · rw [if_neg hmagnet] at h ⊢
    obtain ⟨result, hload, hok⟩ := Option.map_eq_some_iff.1 h
    obtain rfl := toOption_eq_some hok
    cases hfile : m.file input with
    | none =>
      rw [hfile] at hload
      cases hload
    | some content =>
      rw [hfile] at hload
      exact ⟨accepted_of_loadTorrent hload, content, hfile, hload⟩

/-- **Main result.** If the program says that the download is complete, its command line was accepted,
and the torrent is the one that the input stands for: the info dictionary of a magnet link has the hash
of the link, whoever has sent it. If the torrent is within the limits and its files have different
paths, then these files, under the output directory, hold all its pieces. -/
theorem main_sound {args : List Bytes} (h : main m args = some (.finished true client)) :
    ∃ opts torrent, parseArgs args = .ok opts ∧ obtain m opts.input = some (some torrent) ∧
      torrent.Accepted ∧
      (if isMagnetLink opts.input then FromMagnet m opts.input torrent
        else FromFile m opts.input torrent) ∧
      (Fitting torrent → (paths torrent opts.savePath).Nodup → 0 < torrent.numPieces →
        OnDisk m.sha1 torrent opts.savePath client.downloader) := by
  rw [main] at h
  split at h
  · cases h
  · cases h
  rename_i opts hparse
  split at h
  · cases h
  · cases h
  rename_i torrent hobtain
  obtain ⟨⟨complete, c⟩, hdownload, hout⟩ := Option.map_eq_some_iff.1 h
  obtain ⟨rfl, rfl⟩ := Outcome.finished.inj hout
  obtain ⟨haccepted, horigin⟩ := obtain_spec hobtain
  exact ⟨opts, torrent, hparse, hobtain, haccepted, horigin, fun ht hpaths hpos =>
    onDisk_of_download ht hpaths hpos hdownload⟩

/-! ### A run with a magnet link -/

/-- The metadata of a torrent with one byte. -/
def oneByteMetadata : Bytes :=
  ascii "d6:lengthi1e4:name1:a12:piece lengthi1e6:pieces20:" ++ List.replicate 20 0 ++ ascii "e"

/-- A hash that the byte `7` of the torrent has, and another one that everything else has. -/
def twoHashes (data : Bytes) : Bytes :=
  if data = [7] then List.replicate 20 0 else List.replicate 20 'a'.toUInt8

/-- A peer that serves the metadata. -/
def servesOneByte : Metadata.Contact where
  turns := [some (Wire.handshake (List.replicate 20 'a'.toUInt8) Metadata.clientId),
    some (Metadata.extendedFrame 0 (encode (.dict [(ascii "m", .dict [(ascii "ut_metadata", .int 1)]),
      (ascii "metadata_size", .int oneByteMetadata.length)]))),
    some (Metadata.extendedFrame 1 (encode (.dict [(ascii "msg_type", .int 1)]) ++ oneByteMetadata))]

/-- A tracker knows the peer, which then sends the byte. -/
def oneByteMachine : Machine where
  sha1 := twoHashes
  fuel := 100
  peerId := []
  file _ := none
  search := { MetadataDownloader.sampleSurroundings with contact := fun _ _ => servesOneByte }
  world := { fs := oneDirectory }
  sorter := Sorting.mergeSorter
  opening := { Client.quietOpening with
    trackers := ⟨0, 0, fun _ => 0, fun _ => { peers := [⟨ascii "1.2.3.4", 6881, []⟩] }⟩ }
  unassigned := { id := .keepAlive, length := 0 }
  rounds := Client.oneSession.map fun round => { round with
    attempts := fun _ =>
      { now := 0, net := { incoming := Wire.handshake (List.replicate 20 'a'.toUInt8) [] }, done := 0 } }

def oneByteLink : Bytes :=
  ascii "magnet:?xt=urn:btih:6161616161616161616161616161616161616161&tr=http://t"

def oneByteArguments : List Bytes := [ascii "-o", ascii "d", ascii "--no-tracker-refresh", oneByteLink]

/-- The torrent of the metadata. -/
def oneByteTorrent : TorrentInfo :=
  { oneBlockTorrent with
    infoHash := List.replicate 20 'a'.toUInt8
    announceList := [ascii "http://t"] }

/-- The result, and what is on disk. -/
def Outcome.summary : Outcome → Bool × Bytes
  | .exit _ => (false, [])
  | .finished complete client => (complete, disk client.base.world.fs client.base.outputFiles)

theorem main_oneByte :
    (main oneByteMachine oneByteArguments).map Outcome.summary = some (true, [7]) := by
  decide +kernel

/-- The program gets the metadata and then the byte, and says that the download is complete. -/
theorem main_sound_oneByte : ∃ client,
    main oneByteMachine oneByteArguments = some (.finished true client) ∧
      twoHashes oneByteMetadata = (Magnet.parseMagnetLink oneByteLink).infoHashRaw ∧
      FromMagnet oneByteMachine oneByteLink oneByteTorrent ∧
      OnDisk twoHashes oneByteTorrent (ascii "d") client.downloader := by
  obtain ⟨out, hmain, hout⟩ := Option.map_eq_some_iff.1 main_oneByte
  cases out with
  | exit code => cases hout
  | finished complete client =>
    obtain ⟨rfl, -⟩ := Prod.mk.inj hout
    obtain ⟨opts, torrent, hparse, hobtain, -, horigin, hdisk⟩ := main_sound hmain
    have hopts : parseArgs oneByteArguments = .ok
        { input := oneByteLink, savePath := ascii "d", refreshTrackers := false } := by decide +kernel
    obtain rfl := Parsed.ok.inj (hparse.symm.trans hopts)
    have htorrent : obtain oneByteMachine oneByteLink = some (some oneByteTorrent) := by decide +kernel
    obtain rfl := Option.some.inj (Option.some.inj (hobtain.symm.trans htorrent))
    have hvalid : validateTorrentInfo oneByteTorrent = .ok () := by decide +kernel
    refine ⟨client, hmain, by decide +kernel, ?_, ?_⟩
    · rw [if_pos (by decide +kernel)] at horigin
      exact horigin
    · exact hdisk ⟨hvalid, by decide, by decide, by decide⟩ (by decide +kernel) (by decide)

end Gush.Program
