import Gush.Loop.Client
import Gush.Tracker.List

/-!
# The download loop

`downloadLoop`: the opening, in which the trackers and possibly the DHT are asked for peers, and the
iterations of the loop, in the order of the source. What happens outside during an iteration is its
`Round`. An execution ends when the download is complete, or when a stop has been requested: then
there is no further round. The announce that is sent at the end changes nothing here.
-/

namespace Gush

open Cxx Posix Sorting

namespace Downloader

/-- `ENDGAME_BLOCK_THRESHOLD`. -/
def endgameBlockThreshold : ℤ := 64

/-- The blocks that are missing from incomplete pieces, counted in an `int`. -/
def remainingBlocks (d : Downloader) : ℤ :=
  (List.range d.torrent.numPieces).foldl (fun remaining i =>
    if d.pieceCompleted i then remaining
    else int32 (remaining + ((d.pieceState i).totalBlocks - (d.pieceState i).receivedBlocks))) 0

end Downloader

namespace Client

variable (c : Client)

/-- The body of the loop in `fetchLatestTrackers`. -/
def addTracker (tracker : Bytes) : Client :=
  if c.announceList.contains tracker then c
  else { c with
    announceList := c.announceList ++ [tracker]
    trackerManager := c.trackerManager.add tracker }

def fetchLatestTrackers (env : Tracker.Environment) : Client :=
  (TrackerList.fetchTrackersFromMultipleSources env [.trackerslistAll, .ngosangAll]).foldl addTracker c

/-- The manager's part of `contact`, and its answer. -/
def contact (S : Sorter TrackerState) (trackers : TrackerManager.Round) : TrackerResponse × Client :=
  let contacted := c.trackerManager.contact S trackers 3
  (contacted.response, { c with trackerManager := contacted.manager })

/-- Adds the peers of an answer, if it is one. -/
def addAnswered (added : ℕ → ℤ) (resp : TrackerResponse) : Client :=
  if resp.ok then c.addPeers added resp.peers else c

def updateEndgame : Client :=
  c.change fun d =>
    { d with endgame := decide (d.remainingBlocks ≤ Downloader.endgameBlockThreshold) }

end Client

/-- What happens during an iteration: in the rounds of `connectToPeers`, at the receptions of each
connection and when their discoveries are added, at the sends to each connection, and at the later
clock readings; the peers that are evicted, the lists of trackers and the trackers themselves. -/
structure Round where
  attempts : ℕ → Client.Attempt
  receptions : ℕ → List Client.Reception
  discovered : ℕ → ℤ
  sends : ℕ → List Bool
  asked : ℕ → ℤ
  cleanup : ℤ
  pruneDue : ℤ
  prune : ℤ
  evicted : ℕ → ℤ
  now : ℤ
  lists : Tracker.Environment
  trackers : TrackerManager.Round
  added : ℕ → ℤ

/-- The client with the local variables of `downloadLoop`. -/
structure Loop where
  client : Client
  trackerResp : TrackerResponse
  lastTime : ℤ
  lastTrackerFetch : ℤ
  lastPrune : ℤ
  idleCounter : ℤ := 0
  loopSampleDownloaded : ℤ

namespace Loop

/-- `TRACKER_FETCH_INTERVAL`. -/
def trackerFetchInterval : ℤ := 300

/-- `PRUNE_INTERVAL`. -/
def pruneInterval : ℤ := 10

variable (sha1 : Bytes → Bytes) (S : (α : Type) → Sorter α) (msg : Wire.PeerMessage) (r : Round)
  (l : Loop)

/-- The first part of an iteration, up to the endgame flag. -/
def exchange : Option Client :=
  ((l.client.connectToPeers (S Link) r.attempts).processPeerMessages sha1 r.receptions msg
    r.discovered).map fun c =>
      ((c.requestPieces (S ℕ) r.sends r.asked).cleanupTimedOutRequests r.cleanup).updateEndgame

/-- "Periodically evict unhealthy peers". -/
def pruneIfDue : Loop :=
  if PeerSpeedStats.elapsedSeconds r.pruneDue l.lastPrune ≥ pruneInterval then
    { l with client := l.client.pruneBadPeers r.prune r.evicted, lastPrune := r.pruneDue }
  else l

/-- "Fetch new trackers periodically". -/
def fetchIfDue : Loop :=
  if l.client.loopOptions.refreshTrackers ∧
      PeerSpeedStats.elapsedSeconds r.now l.lastTrackerFetch ≥ trackerFetchInterval then
    { l with client := l.client.fetchLatestTrackers r.lists, lastTrackerFetch := r.now }
  else l

/-- Whether the trackers are contacted again. -/
def trackerDue : Bool :=
  let elapsed := PeerSpeedStats.elapsedSeconds r.now l.lastTime
  elapsed ≥ l.trackerResp.interval ∧ l.trackerResp.ok ∨
    l.client.connectedCount < 10 ∧ elapsed ≥ 30 ∨ l.idleCounter ≥ 10

def recontactIfDue : Loop :=
  if l.trackerDue r then
    let (trackerResp, client) := l.client.contact (S TrackerState) r.trackers
    { l with
      client := client.addAnswered r.added trackerResp
      trackerResp
      lastTime := r.now
      idleCounter := 0 }
  else l

/-- "Check for idle state (no progress)". -/
def countIdle : Loop :=
  { l with
    idleCounter :=
      if l.client.base.downloadedBytes = l.loopSampleDownloaded then l.idleCounter + 1 else 0
    loopSampleDownloaded := l.client.base.downloadedBytes }

/-- The end of an iteration: `true` if the download is complete. -/
def finish : Bool × Loop :=
  let l := l.pruneIfDue r
  if l.client.base.isComplete then (true, l)
  else (false, ((l.fetchIfDue r).recontactIfDue S r).countIdle)

/-- An iteration; `none` if it does not return. -/
def iterate : Option (Bool × Loop) :=
  (l.exchange sha1 S msg r).map fun client => { l with client }.finish S r

/-- The iterations: whether the download is complete at the end, and the loop as it is then. -/
def rounds : List Round → Loop → Option (Bool × Loop)
  | [], l => some (false, l)
  | r :: rest, l =>
    match l.iterate sha1 S msg r with
    | none => none
    | some (true, l) => some (true, l)
    | some (false, l) => rounds rest l

end Loop

/-- Where a stop that is requested during the opening is noticed. -/
inductive Stop
  | atStart
  | afterFetch
  | afterContact
  | afterDht
  deriving DecidableEq

/-- What happens before the first iteration. -/
structure Opening where
  stop : Option Stop := none
  now : ℤ
  lists : Tracker.Environment
  trackers : TrackerManager.Round
  added : ℕ → ℤ
  dhtFuel : ℕ
  dhtNetwork : Dht.Network
  dhtAdded : ℕ → ℤ

namespace Client

variable (S : (α : Type) → Sorter α) (o : Opening) (c : Client)

/-- The peers that the DHT finds. -/
def dhtPeers : Option (List Peer) :=
  (Dht.discoverDhtPeers o.dhtFuel o.dhtNetwork c.base.torrent.infoHash []
    { maxQueries := 16, maxPeers := (c.loopOptions.maxPeers * 2 % 2 ^ 64).toNat }).map Prod.fst

/-- What `downloadLoop` starts its iterations with. -/
def loop (trackerResp : TrackerResponse) : Loop where
  client := c
  trackerResp
  lastTime := o.now
  lastTrackerFetch := o.now
  lastPrune := o.now
  loopSampleDownloaded := c.base.downloadedBytes

/-- The opening: it returns early if a stop is requested. -/
def opening : Option (Client ⊕ Loop) :=
  if o.stop = some .atStart then some (.inl c)
  else
    let c := if c.loopOptions.refreshTrackers then c.fetchLatestTrackers o.lists else c
    if o.stop = some .afterFetch then some (.inl c)
    else
      let (trackerResp, c) := c.contact (S TrackerState) o.trackers
      if o.stop = some .afterContact then some (.inl c)
      else
        let c := c.addAnswered o.added trackerResp
        if c.links ≠ [] then some (.inr (c.loop o trackerResp))
        else
          (c.dhtPeers o).map fun found =>
            if o.stop = some .afterDht then .inl c
            else .inr ((c.addPeers o.dhtAdded found).loop o trackerResp)

/-- `downloadLoop`: whether it ends with a complete download, and the client at the end. -/
def downloadLoop (sha1 : Bytes → Bytes) (msg : Wire.PeerMessage) (rounds : List Round) :
    Option (Bool × Client) :=
  match c.opening S o with
  | none => none
  | some (.inl c) => some (false, c)
  | some (.inr l) => (l.rounds sha1 S msg rounds).map fun out => (out.1, out.2.client)

end Client

end Gush
