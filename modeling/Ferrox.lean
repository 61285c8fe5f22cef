import Ferrox.Lib.Alphabet
import Ferrox.Lib.Arrivals
import Ferrox.Lib.Bytes
import Ferrox.Lib.Chain
import Ferrox.Lib.Circular
import Ferrox.Lib.Crc
import Ferrox.Lib.Decimal
import Ferrox.Lib.Format
import Ferrox.Lib.Framing
import Ferrox.Lib.HappensBefore
import Ferrox.Lib.OrdMap
import Ferrox.Lib.Ranked
import Ferrox.Order
import Ferrox.Arena
import Ferrox.ArenaProof
import Ferrox.Book
import Ferrox.Matching
import Ferrox.PriceTime
import Ferrox.PriceTimeProof
import Ferrox.BookProof
import Ferrox.BookSim
import Ferrox.MatchingProof
import Ferrox.Reachable
import Ferrox.ArenaLists
import Ferrox.Uncrossed
import Ferrox.Reference
import Ferrox.Snapshot
import Ferrox.SnapshotProof
import Ferrox.Bincode
import Ferrox.LatestSnapshot
import Ferrox.Views
import Ferrox.ReferenceProof
import Ferrox.Rejection
import Ferrox.Priority
import Ferrox.Slicing
import Ferrox.Ledger
import Ferrox.CancelEarlier
import Ferrox.Mirror
import Ferrox.Protocol
import Ferrox.ProtocolProof
import Ferrox.Wal
import Ferrox.Codec
import Ferrox.ReportCodec
import Ferrox.WalProof
import Ferrox.WalRun
import Ferrox.Recovery
import Ferrox.RecoveryProof
import Ferrox.Checked
import Ferrox.Overflow
import Ferrox.Fallback
import Ferrox.WalReachable
import Ferrox.TornAppend
import Ferrox.Corruption
import Ferrox.CrashRecovery
import Ferrox.RecoverTwice
import Ferrox.Overrun
import Ferrox.LargerArena
import Ferrox.Gateway
import Ferrox.GatewayProof
import Ferrox.Feed
import Ferrox.Subscriber
import Ferrox.WriteAhead
import Ferrox.Restarts
import Ferrox.DataDirectory
import Ferrox.RecoverAgain
import Ferrox.Durable
import Ferrox.Ring
import Ferrox.HandleClient
import Ferrox.RingProof
import Ferrox.RingFifo
import Ferrox.RingQueue
import Ferrox.RingRace
import Ferrox.Shutdown
import Ferrox.ShutdownProof
import Ferrox.RingProgress
import Ferrox.Progress
import Ferrox.Backlog
import Ferrox.DamagedSnapshot
import Ferrox.Pipeline
import Ferrox.Relay
import Ferrox.Indexed
import Ferrox.IndexedProof
import Ferrox.Correspondence
