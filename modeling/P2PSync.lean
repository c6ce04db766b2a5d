import P2PSync.Fips
import P2PSync.MerkleDiff
import P2PSync.Chunking
import P2PSync.MergeLoss
import P2PSync.MergeOrder
import P2PSync.Versions
import P2PSync.Ancestry
import P2PSync.Sessions
import P2PSync.ContentAddressed
import P2PSync.Exchange
import P2PSync.Fidelity
import P2PSync.Deliveries
import P2PSync.Framing
import P2PSync.FailedSession
import P2PSync.Transfer
import P2PSync.Interleaving
import P2PSync.Restart
import P2PSync.Commands
import P2PSync.Directory
import P2PSync.WellFormed
import P2PSync.ChunkData
import P2PSync.Confinement
import P2PSync.LocalWrites
import P2PSync.Deadlock
import P2PSync.Collisions
import P2PSync.ConflictPaths
import P2PSync.Segments
import P2PSync.Histories
import P2PSync.Lossless
import P2PSync.TornJournal
import P2PSync.Sockets
import P2PSync.DiffCost
import P2PSync.DeltaSync
import P2PSync.Transport
import P2PSync.Conduct
import P2PSync.WriteOnce
import P2PSync.Lineage
import P2PSync.Cli
