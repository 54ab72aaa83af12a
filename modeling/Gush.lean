import Gush.Lib.Decimal
import Gush.Lib.BigEndian
import Gush.Lib.Run
import Gush.Lib.InFlight
import Gush.Lib.Chunks
import Gush.Lib.Slice
import Gush.Lib.Framing
import Gush.Lib.Tolerance
import Gush.Lib.FirstBest
import Gush.Lib.Worklist
import Gush.Lib.FirstMatch
import Gush.Lib.Sorting
import Gush.Lib.Flags
import Gush.Lib.LastWrite
import Gush.Lib.Split
import Gush.Lib.Merge
import Gush.Lib.Bits
import Gush.Cxx
import Gush.Bencode.Value
import Gush.Bencode.Parse
import Gush.Bencode.RoundTrip
import Gush.Bencode.Advance
import Gush.Bencode.Grammar
import Gush.Torrent.Info
import Gush.Torrent.Load
import Gush.Torrent.InfoBytes
import Gush.Magnet.FromMetadata
import Gush.Utils.Sanitize
import Gush.Posix.FileSystem
import Gush.Tracker.Udp
import Gush.Utils.Encoding
import Gush.Utils.Paths
import Gush.Tracker.Manager
import Gush.Tracker.Backoff
import Gush.Tracker.Priority
import Gush.Tracker.Request
import Gush.Tracker.Rounds
import Gush.Tracker.Peers
import Gush.Tracker.UdpUrl
import Gush.Tracker.Http
import Gush.Tracker.List
import Gush.Magnet.Link
import Gush.Magnet.Segments
import Gush.Magnet.Percent
import Gush.Magnet.Base32
import Gush.Magnet.InfoHash
import Gush.Dht.Query
import Gush.Dht.Discover
import Gush.Downloader.OutputFiles
import Gush.Downloader.State
import Gush.Downloader.PieceSizes
import Gush.Downloader.Disk
import Gush.Downloader.Requests
import Gush.Downloader.Messages
import Gush.Downloader.Frames
import Gush.Downloader.InFlight
import Gush.Downloader.RequestRuns
import Gush.Downloader.Counters
import Gush.Downloader.Tiling
import Gush.Downloader.PeerOrder
import Gush.Downloader.OnDisk
import Gush.Downloader.Targets
import Gush.Downloader.Written
import Gush.Downloader.WriteFailure
import Gush.Downloader.Selection
import Gush.Downloader.Asking
import Gush.Downloader.Resume
import Gush.Downloader.Verified
import Gush.Downloader.Lifecycle
import Gush.Downloader.Restart
import Gush.Downloader.Reruns
import Gush.Wire.Message
import Gush.Downloader.Completion
import Gush.Wire.Connection
import Gush.Wire.Receive
import Gush.Wire.RoundTrip
import Gush.Wire.Sessions
import Gush.Wire.Pex
import Gush.Wire.Bitfield
import Gush.Metadata.Download
import Gush.Metadata.Integrity
import Gush.Metadata.Frames
import Gush.Metadata.Boundaries
import Gush.Metadata.Size
import Gush.Metadata.ClientMessages
import Gush.Metadata.Exchange
import Gush.Metadata.Identifiers
import Gush.Metadata.Search
import Gush.Downloader.Discovery
import Gush.Loop.Client
import Gush.Loop.Rounds
import Gush.Loop.Actions
import Gush.Loop.Refinement
import Gush.Loop.Sound
import Gush.Loop.Endgame
import Gush.Loop.Links
import Gush.Loop.Limits
import Gush.Loop.Sent
import Gush.Loop.Trackers
import Gush.Program.Arguments
import Gush.Program.Main
