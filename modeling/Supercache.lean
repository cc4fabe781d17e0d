import Supercache.LruAction
import Supercache.ScoredCollections
import Supercache.JsonText
import Supercache.JsonX
import Supercache.Sketches
import Supercache.Snapshots
import Supercache.Entry
import Supercache.Memory
import Supercache.KeyValue
import Supercache.CachedModes
import Supercache.SnapshotModes
import Supercache.JsonMode
import Supercache.Ops
import Supercache.Convergence
import Supercache.Tombstones
import Supercache.LruFront
import Supercache.ReadYourWrites
import Supercache.Engine
import Supercache.Schedule
import Supercache.PutNegative
import Supercache.LoadFill
import Supercache.DeletePush
import Supercache.Edits
import Supercache.ItemReplication
import Supercache.Announce
import Supercache.SnapshotReplication
import Supercache.SnapshotCalls
import Supercache.CounterReplication
import Supercache.Forwarding
import Supercache.StoredVersions
import Supercache.Coordinators
import Supercache.Minting
import Supercache.ConfigUpdate
import Supercache.Eviction
import Supercache.Footprint
import Supercache.Accounting
import Supercache.Carriers
import Supercache.Likeness
import Supercache.Ring
import Supercache.Placement
import Supercache.Guard
import Supercache.HalfOpen
import Supercache.GuardedLoad
import Supercache.BloomJoin
import Supercache.RejectedInstalls
import Supercache.LoadCalls
import Supercache.ForceLoad
import Supercache.Cluster
import Supercache.NegativeCaching
import Supercache.ReadThrough
import Supercache.Routing
import Supercache.Handoff
import Supercache.Decimal
import Supercache.JsonDecode
import Supercache.JsonDepth
import Supercache.JsonHeap
import Supercache.JsonPathText
import Supercache.Cursor
import Supercache.StreamLog
import Supercache.StreamPaging
import Supercache.Recreate
import Supercache.Refusals
import Supercache.Readable
import Supercache.Rebalance
import Supercache.BitmapBits
import Supercache.CmsCounts
import Supercache.CounterSums
import Supercache.HllRegisters
import Supercache.SpaceSaving
import Supercache.TopKChart
import Supercache.TopKLimits
import Supercache.Slices
import Supercache.SnapshotFormats
import Supercache.SortedEntries
import Supercache.StructureCodecs
import Supercache.ZSetQueries
import Supercache.Expiry
import Supercache.LazyEncoding
import Supercache.FilterReplay
import Supercache.HintDeletes
import Supercache.Fanout
import Supercache.MachineRanges
import Supercache.Payloads
import Supercache.RateLimit
import Supercache.Tokenize
