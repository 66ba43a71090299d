/-
The replicated handlers (`src/cluster/replication_manager.cpp`) and the cluster-mode handler of
`src/server/server_main.cpp`, as programs over the operations of a node: its own store, the node
table that the health monitor changes, and requests forwarded to other nodes. The ring and the
node's own entry do not change after start-up, so they are plain data here.
-/
import KvStore.Cluster.ClusterManager
import KvStore.Server.Handler

namespace KvStore

open Bytes Program

/-! ## Operations -/

inductive ClusterCall
  | store (c : StoreCall)
  /-- `ClusterManager::getNode`, one read of the node table under its lock -/
  | getNode (id : NodeId)
  /-- `ClusterManager::forwardRequest` -/
  | forward (node : NodeInfo) (req : Request)

abbrev ClusterCall.Res : ClusterCall → Type
  | .store c => c.Res
  | .getNode _ => Option NodeInfo
  | .forward _ _ => Response

abbrev ClusterHandler := Prog ClusterCall ClusterCall.Res

def localPut (key : Key) (value : Value) : ClusterHandler Response := .call (ClusterCall.store (.put key value)) .ret
def localGet (key : Key) : ClusterHandler Response := .call (ClusterCall.store (.get key)) .ret
def localDel (key : Key) : ClusterHandler Response := .call (ClusterCall.store (.del key)) .ret
def lookupNode (id : NodeId) : ClusterHandler (Option NodeInfo) := .call (ClusterCall.getNode id) .ret

def forwardRequest (node : NodeInfo) (req : Request) : ClusterHandler Response :=
  .call (ClusterCall.forward node req) .ret

/-! ## The handlers -/

/-- `ReplicationManager`, with what it reads of its `ClusterManager` that never changes. -/
structure ReplicationManager where
  selfId : NodeId
  selfNode : NodeInfo
  ring : ConsistentHashRing
  replicationFactor : Nat
  writeQuorum : Nat

namespace ReplicationManager

/-- The constructor; the default write quorum is a majority. -/
def new (cluster : ClusterManager) (replicationFactor : Nat) : ReplicationManager :=
  ⟨cluster.selfId, cluster.selfNode, cluster.ring, replicationFactor, replicationFactor / 2 + 1⟩

/-- The loop of `getReplicaNodes`: the known nodes that are not DOWN. -/
def liveNodes : List NodeId → ClusterHandler (List NodeInfo)
  | [] => return []
  | id :: ids => do
    let node ← lookupNode id
    let rest ← liveNodes ids
    return (node.filter (·.status ≠ .down)).toList ++ rest

/-- `ClusterManager::getReplicaNodes`. -/
def getReplicaNodes (m : ReplicationManager) (key : Key) (count : Nat) : ClusterHandler (List NodeInfo) :=
  liveNodes (m.ring.getNodes key count)

/-- A remote answer that counts as an acknowledgement. -/
def acknowledges (resp : Response) : Bool := resp.status = .ok ∨ resp.status = .notFound

/-- `replicateToNodes`: the number of acknowledgements from the other nodes. -/
def replicateToNodes (m : ReplicationManager) (req : Request) : List NodeInfo → ClusterHandler Nat
  | [] => return 0
  | node :: nodes =>
    if node.id ≠ m.selfNode.id then do
      let resp ← forwardRequest node req
      let acks ← m.replicateToNodes req nodes
      return (if acknowledges resp then 1 else 0) + acks
    else m.replicateToNodes req nodes

/-- The local part of a mutation: one acknowledgement if this node is a replica and its store
accepts the operation. -/
def localAcks (m : ReplicationManager) (op : ClusterHandler Response) (accepted : Response → Bool)
    (replicas : List NodeInfo) : ClusterHandler Nat :=
  if replicas.any (·.id = m.selfNode.id) then do
    let resp ← op
    return if accepted resp then 1 else 0
  else return 0

/-- The common body of `handlePut` and `handleDelete`: the local operation if this node is a
replica, the other replicas, and the quorum. -/
def coordinate (m : ReplicationManager) (op : ClusterHandler Response) (accepted : Response → Bool) (req : Request) :
    ClusterHandler Response := do
  let replicas ← m.getReplicaNodes req.key m.replicationFactor
  let acks ← m.localAcks op accepted replicas
  let more ← m.replicateToNodes req replicas
  return if m.writeQuorum ≤ acks + more then ⟨.ok, []⟩ else ⟨.error, []⟩

/-- `handlePut`. The append to the log is commented out in the source. -/
def handlePut (m : ReplicationManager) (key : Key) (value : Value) : ClusterHandler Response :=
  m.coordinate (localPut key value) (fun resp => resp.status = .ok) ⟨.put, key, value⟩

/-- `handleDelete`. An absent key counts as deleted. -/
def handleDelete (m : ReplicationManager) (key : Key) : ClusterHandler Response :=
  m.coordinate (localDel key) acknowledges ⟨.delete, key, []⟩

/-- The body of the loop in `handleGet`: this node looks into its own store, another one is asked. -/
def askReplica (m : ReplicationManager) (key : Key) (node : NodeInfo) : ClusterHandler Response :=
  if node.id = m.selfNode.id then localGet key else forwardRequest node ⟨.get, key, []⟩

/-- The loop of `handleGet`: the first replica that answers OK. -/
def tryReplicas (m : ReplicationManager) (key : Key) : List NodeInfo → ClusterHandler Response
  | [] => return ⟨.notFound, []⟩
  | node :: nodes => do
    let resp ← m.askReplica key node
    if resp.status = .ok then return resp else m.tryReplicas key nodes

/-- `handleGet`. The primary answers from its own store only. -/
def handleGet (m : ReplicationManager) (key : Key) : ClusterHandler Response :=
  if m.ring.getNode key = m.selfId then localGet key
  else do
    let replicas ← m.getReplicaNodes key m.replicationFactor
    m.tryReplicas key replicas

/-- The cluster-mode request handler. -/
def clusterHandler (m : ReplicationManager) (req : Request) : ClusterHandler Response :=
  match req.command with
  | .put => m.handlePut req.key req.value
  | .get => m.handleGet req.key
  | .delete => m.handleDelete req.key
  | .ping => return ⟨.ok, pong⟩
  | .other _ _ => return ⟨.invalidRequest, []⟩

end ReplicationManager

end KvStore
