import KvStore.Common.Types
import KvStore.Lib.Machine
import KvStore.Lib.Program
import KvStore.Lib.Updates
import KvStore.Storage.KVStore
import KvStore.Persistence.Wal
import KvStore.Persistence.Log
import KvStore.Persistence.Snapshot
import KvStore.Persistence.Recovery
import KvStore.Server.Checkpoint
import KvStore.Server.Handler
import KvStore.Server.Incarnation
import KvStore.Lib.Slots
import KvStore.Server.Pool
import KvStore.Server.Shutdown
import KvStore.Cluster.ConsistentHash
import KvStore.Cluster.ClusterManager
import KvStore.Protocol.Protocol
import KvStore.Protocol.Decoding
import KvStore.Cluster.ReplicationManager
import KvStore.Lib.Chain
import KvStore.Cluster.Network
import KvStore.Cluster.Healthy
import KvStore.Cluster.Reads
import KvStore.Cluster.Writes
import KvStore.Cluster.Sharding
import KvStore.Cluster.Coordinator
import KvStore.Cluster.Durability
import KvStore.Cluster.Quorum
import KvStore.Cluster.System
import KvStore.Cluster.Agreement
import KvStore.Persistence.Replay
import KvStore.Lib.Crc
import KvStore.Persistence.Corruption
import KvStore.Cluster.Membership
import KvStore.Cluster.Routing
import KvStore.Cluster.HealthMonitor
import KvStore.Cluster.Failures
import KvStore.Cluster.SingleNode
import KvStore.Server.Exposure
import KvStore.Lib.Output
import KvStore.Server.LogFailure
import KvStore.Lib.Socket
import KvStore.Networking.Connection
import KvStore.Networking.Framing
import KvStore.Lib.Custody
import KvStore.Networking.ThreadPool
import KvStore.Networking.Wakeup
import KvStore.Networking.Ownership
import KvStore.Cluster.CharSign
import KvStore.Lib.Linearizable
import KvStore.Lib.RwLock
import KvStore.Storage.Concurrent
import KvStore.Persistence.Journal
import KvStore.Server.Linear
import KvStore.Cluster.Linear
import KvStore.Networking.Progress
import KvStore.Lib.Duplex
import KvStore.Server.Quiescence
import KvStore.Client.Cli
import KvStore.Cluster.Config
import KvStore.Server.Lifetime
import KvStore.Cluster.Relays
