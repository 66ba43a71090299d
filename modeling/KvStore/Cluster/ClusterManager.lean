/-
Membership (`src/cluster/cluster_manager.cpp`): the node table loaded from the config file with its
index by id, the ring built from it, and the statuses that the health monitor sets. A config is the
list of the lines that parse; blank lines, comments and lines that do not parse contribute nothing.
-/
import KvStore.Cluster.ConsistentHash
import KvStore.Lib.Updates

namespace KvStore

open Bytes Updates

/-- A line `id host port` of the config file. -/
structure ConfigLine where
  id : NodeId
  host : Str
  port : UInt16
  deriving DecidableEq, Repr

/-- `ClusterManager`. The index gives the position of the node with that id. -/
structure ClusterManager where
  selfId : NodeId
  selfNode : NodeInfo
  nodes : List NodeInfo
  nodeIndex : Map NodeId Nat
  ring : ConsistentHashRing
  indexed : ∀ id i, nodeIndex.lookup id = some i → ∃ n, nodes[i]? = some n ∧ n.id = id

namespace ClusterManager

/-- The members before `loadConfig`: an empty table, and a ring of 150 virtual nodes per node. -/
def new (selfId : NodeId) : ClusterManager where
  selfId := selfId
  selfNode := ⟨[], [], 0, .up⟩
  nodes := []
  nodeIndex := ∅
  ring := .new 150
  indexed := by
    intro id i h
    cases h

/-- One turn of the loop in `loadConfig`. -/
def addLine (c : ClusterManager) (line : ConfigLine) : ClusterManager where
  selfId := c.selfId
  selfNode := if line.id = c.selfId then ⟨line.id, line.host, line.port, .up⟩ else c.selfNode
  nodes := c.nodes ++ [⟨line.id, line.host, line.port, .up⟩]
  nodeIndex := c.nodeIndex.insert line.id c.nodes.length
  ring := c.ring
  indexed := by
    intro id i h
    by_cases hid : id = line.id
    · subst hid
      rw [Finmap.lookup_insert, Option.some.injEq] at h
      subst h
      exact ⟨⟨line.id, line.host, line.port, .up⟩, by simp, rfl⟩
    · rw [Finmap.lookup_insert_of_ne _ hid] at h
      obtain ⟨n, hn, hnid⟩ := c.indexed id i h
      exact ⟨n, by rw [List.getElem?_append_left (List.getElem?_eq_some_iff.1 hn).1, hn], hnid⟩

/-- The constructor: `loadConfig`. -/
def loadConfig (selfId : NodeId) (config : List ConfigLine) : ClusterManager := config.foldl addLine (new selfId)

/-- `initialize`: put every node on the ring. -/
def initializeRing (c : ClusterManager) : ClusterManager :=
  { c with ring := c.nodes.foldl (fun r n => r.addNode n.id) c.ring }

def getNode (c : ClusterManager) (id : NodeId) : Option NodeInfo := (c.nodeIndex.lookup id).bind fun i => c.nodes[i]?

def isLocalKey (c : ClusterManager) (key : Key) : Bool := c.ring.getNode key = c.selfId

/-- The table with the statuses replaced; ids and positions stay. -/
def setStatuses (c : ClusterManager) (f : Nat → NodeInfo → NodeStatus) : ClusterManager :=
  { c with
    nodes := c.nodes.mapIdx fun i n => { n with status := f i n }
    indexed := by
      intro id i h
      obtain ⟨n, hn, hnid⟩ := c.indexed id i h
      exact ⟨{ n with status := f i n }, by simp [hn], hnid⟩ }

/-- `setNodeStatus`. -/
def setNodeStatus (c : ClusterManager) (id : NodeId) (status : NodeStatus) : ClusterManager :=
  match c.nodeIndex.lookup id with
  | some i => c.setStatuses fun j n => if j = i then status else n.status
  | none => c

/-- The table with the status `view id` for every node: what any number of `setNodeStatus` calls
may have made of it. -/
def withView (c : ClusterManager) (view : NodeId → NodeStatus) : ClusterManager := c.setStatuses fun _ n => view n.id

/-- `getReplicaNodes`, on a table that stays as it is during the call. -/
def getReplicaNodes (c : ClusterManager) (key : Key) (replicaCount : Nat) : List NodeInfo :=
  (c.ring.getNodes key replicaCount).filterMap fun id => (c.getNode id).filter (·.status ≠ .down)

/-! ## The table -/

theorem getNode_id {c : ClusterManager} {id : NodeId} {n : NodeInfo} (h : c.getNode id = some n) : n.id = id := by
  obtain ⟨i, hi, hn⟩ := Option.bind_eq_some_iff.1 h
  obtain ⟨m, hm, hmid⟩ := c.indexed id i hi
  rw [hn] at hm
  cases hm
  exact hmid

theorem getNode_withView (c : ClusterManager) (view : NodeId → NodeStatus) (id : NodeId) :
    (c.withView view).getNode id = (c.getNode id).map fun n => { n with status := view id } := by
  cases h : c.getNode id with
  | none =>
    unfold getNode at h ⊢
    cases hi : c.nodeIndex.lookup id with
    | none => simp [withView, setStatuses, hi]
    | some i =>
      rw [hi, Option.bind_some] at h
      simp [withView, setStatuses, hi, h]
  | some n =>
    have hid := getNode_id h
    obtain ⟨i, hi, hn⟩ := Option.bind_eq_some_iff.1 h
    unfold getNode
    simp [withView, setStatuses, hi, hn, hid]

/-- Setting a status changes the entry of that id and no other one. -/
theorem getNode_setNodeStatus (c : ClusterManager) (id other : NodeId) (status : NodeStatus) :
    (c.setNodeStatus id status).getNode other =
      if other = id then (c.getNode id).map fun n => { n with status := status } else c.getNode other := by
  cases hi : c.nodeIndex.lookup id with
  | none =>
    have hset : c.setNodeStatus id status = c := by simp only [setNodeStatus, hi]
    rw [hset]
    by_cases heq : other = id
    · subst heq
      simp [getNode, hi]
    · rw [if_neg heq]
  | some i =>
    have hset : c.setNodeStatus id status = c.setStatuses fun j n => if j = i then status else n.status := by
      simp only [setNodeStatus, hi]
    obtain ⟨n, hn, hid⟩ := c.indexed id i hi
    rw [hset]
    by_cases heq : other = id
    · subst heq
      simp [getNode, setStatuses, hi, hn]
    · rw [if_neg heq]
      unfold getNode
      cases hj : c.nodeIndex.lookup other with
      | none => simp [setStatuses, hj]
      | some j =>
        -- the entries of two ids are at two positions
        have hij : j ≠ i := by
          rintro rfl
          obtain ⟨n', hn', hid'⟩ := c.indexed other j hj
          rw [hn] at hn'
          cases hn'
          exact heq (hid'.symm.trans hid)
        simp only [setStatuses, hj, Option.bind_some, List.getElem?_mapIdx, if_neg hij]
        cases c.nodes[j]? <;> rfl

end ClusterManager

/-! ## One config, many nodes -/

/-- The ring every node builds from the config. -/
def ringOf (config : List ConfigLine) : ConsistentHashRing :=
  config.foldl (fun r line => r.addNode line.id) (.new 150)

theorem mem_ringOf_nodes {config : List ConfigLine} {id : NodeId} (h : id ∈ (ringOf config).nodes) :
    id ∈ config.map (·.id) := by
  have hall : ∀ (config : List ConfigLine) (r : ConsistentHashRing),
      id ∈ (config.foldl (fun r line => r.addNode line.id) r).nodes → id ∈ r.nodes ∨ id ∈ config.map (·.id) := by
    intro config
    induction config with
    | nil => exact fun r h => Or.inl h
    | cons line config ih =>
      intro r h
      rcases ih (r.addNode line.id) h with h | h
      · rcases Ring.mem_push.1 h with h | rfl
        · exact Or.inl h
        · exact Or.inr List.mem_cons_self
      · exact Or.inr (List.mem_cons_of_mem _ h)
  rcases hall config _ h with h | h
  · cases h
  · exact h

theorem ringOf_ne_nil {config : List ConfigLine} (h : config ≠ []) : (ringOf config).ring.entries ≠ [] := by
  rcases List.eq_nil_or_concat config with rfl | ⟨init, last, rfl⟩
  · exact absurd rfl h
  · have hvn : ∀ (config : List ConfigLine) (r : ConsistentHashRing),
        (config.foldl (fun r line => r.addNode line.id) r).virtualNodes = r.virtualNodes := by
      intro config
      induction config with
      | nil => exact fun _ => rfl
      | cons line config ih => exact fun r => ih (r.addNode line.id)
    unfold ringOf
    rw [List.concat_eq_append, List.foldl_append]
    apply ConsistentHashRing.addVnodes_ne_nil
    rw [hvn]
    exact Nat.succ_pos 149

namespace ClusterManager

theorem loadConfig_concat (selfId : NodeId) (config : List ConfigLine) (line : ConfigLine) :
    loadConfig selfId (config ++ [line]) = (loadConfig selfId config).addLine line := by
  unfold loadConfig
  rw [List.foldl_append]
  rfl

theorem loadConfig_ids (selfId : NodeId) (config : List ConfigLine) :
    (loadConfig selfId config).selfId = selfId ∧ (loadConfig selfId config).ring = .new 150 ∧
      (loadConfig selfId config).nodes.map (·.id) = config.map (·.id) := by
  induction config using List.reverseRecOn with
  | nil => exact ⟨rfl, rfl, rfl⟩
  | append_singleton config line ih =>
    obtain ⟨h1, h2, h3⟩ := ih
    rw [loadConfig_concat]
    refine ⟨h1, h2, ?_⟩
    simp only [addLine, List.map_append, List.map_cons, List.map_nil, h3]

/-- Only listed ids are found. -/
theorem mem_ids_of_getNode {selfId id : NodeId} {config : List ConfigLine} {n : NodeInfo}
    (h : (loadConfig selfId config).getNode id = some n) : id ∈ config.map (·.id) := by
  obtain ⟨i, -, hi⟩ := Option.bind_eq_some_iff.1 h
  rw [← (loadConfig_ids selfId config).2.2, ← getNode_id h]
  exact List.mem_map_of_mem (List.mem_of_getElem? hi)

/-- Every listed id is found, whoever asks. -/
theorem loadConfig_getNode (selfId : NodeId) {id : NodeId} {config : List ConfigLine} (h : id ∈ config.map (·.id)) :
    ∃ n, (loadConfig selfId config).getNode id = some n := by
  have hindex : ∃ i, (loadConfig selfId config).nodeIndex.lookup id = some i := by
    induction config using List.reverseRecOn with
    | nil => cases h
    | append_singleton config line ih =>
      rw [loadConfig_concat]
      by_cases hid : id = line.id
      · subst hid
        exact ⟨_, Finmap.lookup_insert _⟩
      · rw [List.map_append, List.mem_append] at h
        have hmem : id ∈ config.map (·.id) := by
          rcases h with h | h
          · exact h
          · exact absurd (List.mem_singleton.1 h) hid
        obtain ⟨i, hi⟩ := ih hmem
        exact ⟨i, by rw [← hi]; exact Finmap.lookup_insert_of_ne _ hid⟩
  obtain ⟨i, hi⟩ := hindex
  obtain ⟨n, hn, -⟩ := (loadConfig selfId config).indexed id i hi
  exact ⟨n, by rw [getNode, hi]; exact hn⟩

theorem loadConfig_selfNode {selfId : NodeId} {config : List ConfigLine} (h : selfId ∈ config.map (·.id)) :
    (loadConfig selfId config).selfNode.id = selfId := by
  induction config using List.reverseRecOn with
  | nil => cases h
  | append_singleton config line ih =>
    rw [loadConfig_concat]
    show (if line.id = (loadConfig selfId config).selfId then _ else _ : NodeInfo).id = selfId
    rw [(loadConfig_ids selfId config).1]
    split
    · rename_i heq
      exact heq
    · rename_i hne
      apply ih
      rw [List.map_append, List.mem_append] at h
      rcases h with h | h
      · exact h
      · exact absurd (List.mem_singleton.1 h).symm hne

theorem initializeRing_ring (selfId : NodeId) (config : List ConfigLine) :
    (loadConfig selfId config).initializeRing.ring = ringOf config := by
  obtain ⟨-, hring, hids⟩ := loadConfig_ids selfId config
  unfold initializeRing ringOf
  simp only [hring]
  rw [← List.foldl_map (f := fun n : NodeInfo => n.id) (g := fun r id => ConsistentHashRing.addNode r id), hids,
    List.foldl_map]

end ClusterManager

end KvStore
