import XferRust.Swarm.Useful
import XferRust.Swarm.Assembly
import XferRust.Swarm.Install
import XferRust.Swarm.Downloadable
import XferRust.Swarm.Announce
import XferRust.Utp.Extensions
import XferRust.Utp.WindowOverflow
import XferRust.Utp.ReceiveMemory
import XferRust.Split.Owners
import XferRust.Split.CrashSafety
import XferRust.Storage.Agreement
import XferRust.Storage.ControlFile
import XferRust.Storage.Paths
import XferRust.Storage.FileProgress
import XferRust.Bt.Playhead
import XferRust.Bt.Incoming
import XferRust.Bt.EncryptedStream
import XferRust.Bt.Scheduler
import XferRust.Dht.Identity
import XferRust.Dht.Lookup
import XferRust.Discovery.PexExchange
import XferRust.Discovery.NeighbourSafety
import XferRust.Playlist.LiveMaps
import XferRust.Playlist.UnorderedProgress
import XferRust.Playlist.Meaning
import XferRust.Playlist.TsRoundTrip
import XferRust.Playlist.SampleInverse
import XferRust.Playlist.TimelineSafety
import XferRust.Flv.Product
import XferRust.Flv.Timeline
import XferRust.Http.DownloadPrefix
import XferRust.Sftp.KnownHosts
import XferRust.Lan.Attack
import XferRust.Lan.Collisions
import XferRust.Lan.ReceiveNames
import XferRust.Lan.SwitchedOff
import XferRust.Rpc.Secrecy
import XferRust.Engine.Bans
import XferRust.Engine.Commands
import XferRust.Engine.ServerNames
import XferRust.Engine.HttpClient
import XferRust.Engine.Trackers
import XferRust.Engine.Seeding
import XferRust.Sftp.DownloadRuns
import XferRust.Storage.PieceMaps
import XferRust.Storage.Verification
import XferRust.Utp.Karn
import XferRust.Split.PieceTrack
import XferRust.Rate.SharedRuns
import XferRust.Dht.PeerStore
