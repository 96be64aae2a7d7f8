import MiniRedis.Command.Dispatch
import MiniRedis.Command.Handlers
import MiniRedis.Persistence.AOF
import MiniRedis.Persistence.Appending
import MiniRedis.Persistence.Compaction
import MiniRedis.Persistence.Fsync
import MiniRedis.Persistence.Growth
import MiniRedis.Persistence.Metering
import MiniRedis.Persistence.Replay
import MiniRedis.Persistence.Rewrite
import MiniRedis.Persistence.Swapping
import MiniRedis.Protocol.Decode
import MiniRedis.Protocol.Grammar
import MiniRedis.Protocol.Lengths
import MiniRedis.Protocol.Prefixes
import MiniRedis.Protocol.RoundTrip
import MiniRedis.Protocol.Value
import MiniRedis.Reference.Cell
import MiniRedis.Reference.Counts
import MiniRedis.Reference.Deadlines
import MiniRedis.Reference.Dispatch
import MiniRedis.Reference.Drift
import MiniRedis.Reference.Escalation
import MiniRedis.Reference.Invariant
import MiniRedis.Reference.Lifecycle
import MiniRedis.Reference.Lists
import MiniRedis.Reference.Representation
import MiniRedis.Reference.Store
import MiniRedis.Reference.Timeless
import MiniRedis.Reference.Transparency
import MiniRedis.Reference.Updates
import MiniRedis.Reference.Variadic
import MiniRedis.Replication.Logged
import MiniRedis.Replication.Primary
import MiniRedis.Replication.Reconnect
import MiniRedis.Replication.Registration
import MiniRedis.Replication.Stream
import MiniRedis.Server.Acknowledged
import MiniRedis.Server.Apply
import MiniRedis.Server.Connection
import MiniRedis.Server.Delivery
import MiniRedis.Server.Expiring
import MiniRedis.Server.Feeds
import MiniRedis.Server.Hub
import MiniRedis.Server.Interleaving
import MiniRedis.Server.Load
import MiniRedis.Server.Locks
import MiniRedis.Server.Matching
import MiniRedis.Server.Messages
import MiniRedis.Server.OneWay
import MiniRedis.Server.Ownership
import MiniRedis.Server.PowerLoss
import MiniRedis.Server.Programs
import MiniRedis.Server.Provenance
import MiniRedis.Server.PubSub
import MiniRedis.Server.ReadOnly
import MiniRedis.Server.Recovery
import MiniRedis.Server.Reencode
import MiniRedis.Server.Serve
import MiniRedis.Server.Sessions
import MiniRedis.Server.Shutdown
import MiniRedis.Server.Wire
import MiniRedis.Server.WriteLock
import MiniRedis.Server.Writes
import MiniRedis.Store.Aliasing
import MiniRedis.Store.Broker
import MiniRedis.Store.Call
import MiniRedis.Store.DB
import MiniRedis.Store.Draining
import MiniRedis.Store.Entry
import MiniRedis.Store.Expiry
import MiniRedis.Store.Flat
import MiniRedis.Store.Layout
import MiniRedis.Store.Memory
import MiniRedis.Store.Raw
import MiniRedis.Store.Replies
import MiniRedis.Store.Shard
import MiniRedis.Store.Snapshot
import MiniRedis.Store.Values
import MiniRedis.Support.Along
import MiniRedis.Support.Buffered
import MiniRedis.Support.Contracts
import MiniRedis.Support.Decimal
import MiniRedis.Support.Deque
import MiniRedis.Support.Durable
import MiniRedis.Support.Files
import MiniRedis.Support.Footprint
import MiniRedis.Support.Frames
import MiniRedis.Support.Locks
import MiniRedis.Support.Machine
import MiniRedis.Support.Maps
import MiniRedis.Support.Queue
import MiniRedis.Support.Registry
import MiniRedis.Support.Slices
import MiniRedis.Support.Strings
