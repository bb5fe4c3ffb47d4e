import Rah.Lib.BitRank
import Rah.Lib.Run
import Rah.Lib.Naming
import Rah.Lib.Path
import Rah.Lib.Rows
import Rah.Lib.Lanes
import Rah.Lib.Forest
import Rah.Lib.Halves
import Rah.Lib.Cut
import Rah.Lib.Spaces
import Rah.Lib.Utf8
import Rah.Lib.Fuel
import Rah.Lib.SeqRing
import Rah.Lib.Overlay
import Rah.Lib.Group
import Rah.Lib.Fields
import Rah.Router.Model
import Rah.Router.Tree
import Rah.Router.TreeLookup
import Rah.Router.Masks
import Rah.Router.Bake
import Rah.Router.Routing
import Rah.Router.AnyBytes
import Rah.SubRouter.Model
import Rah.SubRouter.Templates
import Rah.SubRouter.Layout
import Rah.SubRouter.Register
import Rah.SubRouter.Resolve
import Rah.Pool.Model
import Rah.Pool.OneOwner
import Rah.Flow.Executor
import Rah.Flow.Foreach
import Rah.Flow.ForeachVisits
import Rah.Flow.Tx
import Rah.Flow.TxCommit
import Rah.Flow.TxRollback
import Rah.Flow.Parallel
import Rah.Flow.Breaker
import Rah.Flow.Probes
import Rah.Flow.Calls
import Rah.Flow.Named
import Rah.Registry.Model
import Rah.Registry.Keys
import Rah.Registry.Cells
import Rah.Registry.PropMap
import Rah.Registry.History
import Rah.Registry.Tenants
import Rah.Registry.TenantIds
import Rah.Registry.TenantRows
import Rah.Registry.Vacant
import Rah.Registry.Recycling
import Rah.Registry.Store
import Rah.Registry.Replicas
import Rah.Registry.Listing
import Rah.Registry.Deletion
import Rah.Registry.Restore
import Rah.Cache.Index
import Rah.Cache.Nodes
import Rah.Cache.NodePool
import Rah.Cache.Cells
import Rah.Cache.Collapse
import Rah.Cache.Compaction
import Rah.Cache.Walks
import Rah.Cache.IndexMap
import Rah.Cache.Pointer
import Rah.Cache.Region
import Rah.Cache.Manager
import Rah.Cache.Inherit
import Rah.Cache.Slots
import Rah.Cache.Isolation
import Rah.Cache.Alike
import Rah.Cache.Tenants
import Rah.Cache.TinyTags
import Rah.Cache.ReadYourWrites
import Rah.Limit.EpochCounter
import Rah.Limit.TokenBucket
import Rah.Limit.Egress
import Rah.Limit.QuotaGroups
import Rah.Limit.QuotaExact
import Rah.Limit.Windows
import Rah.Limit.CostQuota
import Rah.Limit.Latency
import Rah.Validate.Rules
import Rah.Validate.Flat
import Rah.Condition.Tokens
import Rah.Condition.Parser
import Rah.Condition.Meaning
import Rah.Condition.Readings
import Rah.Condition.Gate
import Rah.Timer.Service
import Rah.Timer.Wheel
import Rah.Timer.Coupling
import Rah.Timer.Fires
import Rah.Datastore.Scoped
import Rah.Datastore.Batcher
import Rah.Datastore.WriteBuffer
import Rah.Datastore.ReadBatcher
import Rah.DataCache.Rows
import Rah.DataCache.Content
import Rah.DataCache.Counters
import Rah.Datastore.RedisStore
import Rah.ApiKey.Indexes
import Rah.ApiKey.Revocation
import Rah.Steps.Context
import Rah.Steps.Dpop
import Rah.Steps.IpRestriction
import Rah.Steps.Turns
import Rah.Steps.Chunks
import Rah.Lib.Slices
import Rah.Registry.Shared
import Rah.Registry.Snapshots
import Rah.Ws.Broadcast
import Rah.Async.Manager
import Rah.Events.Dedup
import Rah.Events.Batching
import Rah.Avro.Decode
