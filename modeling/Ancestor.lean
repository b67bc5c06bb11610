import Ancestor.Lib.OrdMap
import Ancestor.Lib.Steps
import Ancestor.Lib.Bytes
import Ancestor.Lib.Decimal
import Ancestor.Lib.Hoare
import Ancestor.Timestamp
import Ancestor.Encoding
import Ancestor.Key
import Ancestor.Data
import Ancestor.Engine
import Ancestor.Mvcc
import Ancestor.Replica
import Ancestor.Store
import Ancestor.Split
import Ancestor.Footprint
import Ancestor.RangeWrites
import Ancestor.Snapshot
import Ancestor.RaftLog
import Ancestor.LogKeys
import Ancestor.Install
import Ancestor.RefLog
import Ancestor.LogRefine
import Ancestor.Apply
import Ancestor.SnapshotCut
import Ancestor.Again
import Ancestor.Versioned
import Ancestor.Kept
import Ancestor.Reapply
import Ancestor.SystemRange
import Ancestor.Oracle
import Ancestor.OracleCalls
import Ancestor.OracleTerms
import Ancestor.Lib.Versions
import Ancestor.Cell
import Ancestor.Effect
import Ancestor.Layout
import Ancestor.NodeRequest
import Ancestor.Record
import Ancestor.CommitOutcome
import Ancestor.Protocol
import Ancestor.ProtocolInv
import Ancestor.Safety
import Ancestor.History
import Ancestor.BadgerIsolation
import Ancestor.Scan
import Ancestor.Badger
import Ancestor.Bootstrap
import Ancestor.IdAllocator
import Ancestor.PendingCmds
import Ancestor.RangeIndex
import Ancestor.RegionStore
import Ancestor.Routing
import Ancestor.Conflict
import Ancestor.Delivery
import Ancestor.Stats
import Ancestor.Session
import Ancestor.Alone
import Ancestor.Placement
import Ancestor.Flush
import Ancestor.OwnWrites
import Ancestor.Reads
import Ancestor.PointReads
import Ancestor.Rollback
import Ancestor.Registration
import Ancestor.Iterator
import Ancestor.IteratorCalls
import Ancestor.Iteration
import Ancestor.SplitIteration
import Ancestor.ReplicaRemoval
import Ancestor.RecordUpdate
import Ancestor.Expiry
import Ancestor.OracleReadings
import Ancestor.BatchSend
import Ancestor.SplitKey
import Ancestor.Handles
import Ancestor.Compaction
import Ancestor.LeaderSearch
import Ancestor.KeySpaces
import Ancestor.NodeTable
import Ancestor.NodeStats
import Ancestor.NodeReload
import Ancestor.BoundedCache
import Ancestor.CacheReference
import Ancestor.Heartbeat
import Ancestor.LeaderIndex
import Ancestor.CacheEntries
import Ancestor.BatchGet
import Ancestor.BatchReads
import Ancestor.Replication
import Ancestor.Member
import Ancestor.Service
import Ancestor.Serial
