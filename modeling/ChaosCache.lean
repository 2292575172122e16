import ChaosCache.ConstTypes
import ChaosCache.Hash
import ChaosCache.Hash.BigEndian
import ChaosCache.Reqrep
import ChaosCache.Reqrep.Encoding
import ChaosCache.Reqrep.Reply
import ChaosCache.Library.Links
import ChaosCache.Library.Blocks
import ChaosCache.Library.LossyMap
import ChaosCache.Library.BlockingQueue
import ChaosCache.Library.LazyLru
import ChaosCache.Library.Linearizability
import ChaosCache.Assoc
import ChaosCache.Assoc.Invariant
import ChaosCache.Assoc.Rehashing
import ChaosCache.Assoc.KeyMatching
import ChaosCache.Hash.Distribution
import ChaosCache.Slabs
import ChaosCache.Slabs.Partition
import ChaosCache.Slabs.Classes
import ChaosCache.Slabs.Operations
import ChaosCache.Slabs.Runs
import ChaosCache.Slabs.Limit
import ChaosCache.Slabs.Requested
import ChaosCache.Slabs.Arena
import ChaosCache.Lru
import ChaosCache.Lru.Lengths
import ChaosCache.Lru.Lists
import ChaosCache.Lru.Invariant
import ChaosCache.Lru.Operations
import ChaosCache.Lru.Requests
import ChaosCache.Lru.Reclaiming
import ChaosCache.Lru.Allocation
import ChaosCache.Lru.Sections
import ChaosCache.Lru.Clients
import ChaosCache.Lru.Skeleton
import ChaosCache.Lru.Closure
import ChaosCache.Lru.Accounting
import ChaosCache.Lru.NewItems
import ChaosCache.Lru.Recency
import ChaosCache.DataCache
import ChaosCache.Lru.ClassIds
import ChaosCache.Lru.Construction
import ChaosCache.DataCache.Initial
import ChaosCache.DataCache.Calls
import ChaosCache.DataCache.Refinement
import ChaosCache.DataCache.Outcomes
import ChaosCache.Lru.Eviction
import ChaosCache.Lru.Ledger
import ChaosCache.Lru.Victims
import ChaosCache.Threads
import ChaosCache.Threads.Invariant
import ChaosCache.Threads.Consistency
import ChaosCache.Threads.Recycling
import ChaosCache.Threads.Aging
import ChaosCache.Threads.Retention
import ChaosCache.Threads.ShortRuns
import ChaosCache.Threads.Leaks
import ChaosCache.Threads.Linearizability
import ChaosCache.Threads.Copies
import ChaosCache.Threads.Lifetime
import ChaosCache.Threads.Maintenance
import ChaosCache.ThreadPool
import ChaosCache.ThreadPool.Wakeups
import ChaosCache.ThreadPool.Slots
import ChaosCache.ThreadPool.Tasks
import ChaosCache.ThreadPool.Capacity
import ChaosCache.ThreadPool.Progress
import ChaosCache.LocalClients
import ChaosCache.LocalClients.Signals
import ChaosCache.Server
import ChaosCache.Server.Workers
import ChaosCache.Server.OwnReplies
import ChaosCache.Server.Progress
import ChaosCache.Server.Replies
import ChaosCache.Server.Buffers
import ChaosCache.Server.Keys
import ChaosCache.Server.Service
import ChaosCache.Server.Startup
import ChaosCache.Server.Starting
import ChaosCache.LocalClients.Standstill
