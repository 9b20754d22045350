import Iu9Db.Basic
import Iu9Db.Lib.PriorityQueue
import Iu9Db.Lib.Transition
import Iu9Db.Lib.Pending
import Iu9Db.Lib.Computation
import Iu9Db.Lib.BinaryHeap
import Iu9Db.SwappableMemoryStorage
import Iu9Db.Disk
import Iu9Db.PersistentStorageCollection
import Iu9Db.MetadataDrift
import Iu9Db.Compaction
import Iu9Db.MergeReads
import Iu9Db.StorageSystem
import Iu9Db.VersionCheck
import Iu9Db.CompactionCrash
import Iu9Db.WriterSwitch
import Iu9Db.CounterLifetimes
import Iu9Db.Lib.Delimited
import Iu9Db.Lib.Wire
import Iu9Db.Lib.LowerBound
import Iu9Db.TableBytes
import Iu9Db.DamagedTables
import Iu9Db.TableStreams
import Iu9Db.Lib.SharedFiles
import Iu9Db.SharedReads
import Iu9Db.WalFile
import Iu9Db.TornTail
import Iu9Db.Lib.OutStream
import Iu9Db.WalStream
import Iu9Db.LoggedOnce
import Iu9Db.MetadataBytes
import Iu9Db.Lib.Versioned
import Iu9Db.LastWriterWins
import Iu9Db.SwapJob
import Iu9Db.Layers
import Iu9Db.CollectRounds
import Iu9Db.MapRefinement
import Iu9Db.JobFiles
import Iu9Db.JobDurability
import Iu9Db.ConcurrentSwap
import Iu9Db.SettledKey
import Iu9Db.SwapDurability
import Iu9Db.VersionNumberGenerator
import Iu9Db.VersionThreads
import Iu9Db.Recovery
import Iu9Db.RecoveredVersions
import Iu9Db.RecoverySafety
import Iu9Db.RecoveryRuns
import Iu9Db.RecoveryCrash
import Iu9Db.Restarts
import Iu9Db.DirectoryBytes
import Iu9Db.EngineBytes
import Iu9Db.FilledTables
import Iu9Db.StoredEntries
import Iu9Db.ReportedVersion
import Iu9Db.WalReplay
import Iu9Db.Replication
import Iu9Db.Controller
import Iu9Db.ReplicationTask
import Iu9Db.AcknowledgedWrites
import Iu9Db.ReadRepair
import Iu9Db.Views
import Iu9Db.ClientWrites
import Iu9Db.ApiBytes
import Iu9Db.ReplicaCalls
import Iu9Db.Cluster
import Iu9Db.GetCascade
import Iu9Db.Zookeeper
import Iu9Db.Mastership
import Iu9Db.MasterWatch
import Iu9Db.Membership
import Iu9Db.NodeLists
