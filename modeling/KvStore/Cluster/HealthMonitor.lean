/-
The health monitor (`src/cluster/health_monitor.cpp`): a thread that goes through the node table over
and over, pings every other node and moves its status between UP, SUSPECT and DOWN. A step of the
machine is one turn of its loop, with the ping and the update of the table; the statuses are then a
function of the pings made so far, and so are the replicas a request goes to.
-/
import KvStore.Cluster.Coordinator
import KvStore.Lib.Machine
import KvStore.Protocol.Protocol

namespace KvStore

open Bytes Machine Program

/-! ## The loop -/

/-- `pingNode`, by the frame that came back; there is none if connecting, writing or reading fails. -/
def pingNode (reply : Option Str) : Bool :=
  match reply.bind Protocol.deserializeResponse with
  | some resp => resp.status = .ok
  | none => false

/-- What the loop does after a ping. -/
def ClusterManager.recordPing (c : ClusterManager) (id : NodeId) (success : Bool) : ClusterManager :=
  match c.getNode id with
  | none => c
  | some current =>
    if success then
      if current.status = .down ∨ current.status = .suspect then c.setNodeStatus id .up else c
    else if current.status = .up then c.setNodeStatus id .suspect
    else if current.status = .suspect then c.setNodeStatus id .down
    else c

/-- The monitor: the table, its position in the sweep, and the pings made so far, the latest first. -/
structure HealthMonitor where
  cluster : ClusterManager
  position : Nat
  pings : List (NodeId × Bool)

inductive MonitorEvent
  /-- the node's own entry -/
  | skip
  | ping (reply : Option Str)
  /-- the end of a sweep -/
  | sleep
  deriving DecidableEq, Repr

namespace HealthMonitor

/-- `monitorLoop`, one turn at a time. -/
def step (s : HealthMonitor) : MonitorEvent → Option HealthMonitor
  | .skip => s.cluster.nodes[s.position]?.bind fun node =>
    if node.id = s.cluster.selfNode.id then some { s with position := s.position + 1 } else none
  | .ping reply => s.cluster.nodes[s.position]?.bind fun node =>
    if node.id = s.cluster.selfNode.id then none
    else some ⟨s.cluster.recordPing node.id (pingNode reply), s.position + 1, (node.id, pingNode reply) :: s.pings⟩
  | .sleep => if s.position = s.cluster.nodes.length then some { s with position := 0 } else none

/-- A node that has read its config and built its ring, before the first sweep. -/
def start (selfId : NodeId) (config : List ConfigLine) : HealthMonitor :=
  ⟨(ClusterManager.loadConfig selfId config).initializeRing, 0, []⟩

/-- The outcomes of the pings made for an id, the latest first. -/
def outcomes (s : HealthMonitor) (id : NodeId) : List Bool := (s.pings.filter (·.1 = id)).map (·.2)

end HealthMonitor

/-! ## Statuses -/

/-- The status after one more ping. -/
def NodeStatus.next : NodeStatus → Bool → NodeStatus
  | _, true => .up
  | .up, false => .suspect
  | .suspect, false => .down
  | .down, false => .down

/-- The status after pings with these outcomes, the latest first. -/
def statusAfter (outcomes : List Bool) : NodeStatus := outcomes.foldr (fun success status => status.next success) .up

@[simp] theorem statusAfter_nil : statusAfter [] = .up := rfl

@[simp] theorem statusAfter_true (rest : List Bool) : statusAfter (true :: rest) = .up := by
  simp [statusAfter, NodeStatus.next]

theorem statusAfter_false (rest : List Bool) : statusAfter (false :: rest) = (statusAfter rest).next false := rfl

/-- Two failures in a row bring any status to DOWN. -/
@[simp] theorem statusAfter_false_false (rest : List Bool) : statusAfter (false :: false :: rest) = .down := by
  rw [statusAfter_false, statusAfter_false]
  cases statusAfter rest <;> rfl

@[simp] theorem statusAfter_false_nil : statusAfter [false] = .suspect := rfl

@[simp] theorem statusAfter_false_true (rest : List Bool) : statusAfter (false :: true :: rest) = .suspect := by
  rw [statusAfter_false, statusAfter_true]
  rfl

theorem statusAfter_eq_down_iff (outcomes : List Bool) :
    statusAfter outcomes = .down ↔ outcomes.take 2 = [false, false] := by
  rcases outcomes with _ | ⟨_ | _, _ | ⟨_ | _, rest⟩⟩ <;> simp

theorem statusAfter_eq_suspect_iff (outcomes : List Bool) :
    statusAfter outcomes = .suspect ↔ outcomes.take 2 = [false] ∨ outcomes.take 2 = [false, true] := by
  rcases outcomes with _ | ⟨_ | _, _ | ⟨_ | _, rest⟩⟩ <;> simp

theorem statusAfter_eq_up_iff (outcomes : List Bool) :
    statusAfter outcomes = .up ↔ outcomes.head? ≠ some false := by
  rcases outcomes with _ | ⟨_ | _, rest⟩
  · simp
  · rw [statusAfter_false]
    cases statusAfter rest <;> simp [NodeStatus.next]
  · simp

namespace ClusterManager

/-- A ping moves the status of its own id along and leaves the rest of the table. -/
theorem getNode_recordPing (c : ClusterManager) (id other : NodeId) (success : Bool) :
    (c.recordPing id success).getNode other =
      if other = id then (c.getNode id).map fun n => { n with status := n.status.next success }
      else c.getNode other := by
  rcases hn : c.getNode id with _ | n
  · have hsame : c.recordPing id success = c := by simp only [recordPing, hn]
    rw [hsame]
    by_cases heq : other = id
    · subst heq
      simp [hn]
    · rw [if_neg heq]
  · -- where the loop sets no status, the ping leaves the one there is
    have hset : (c.recordPing id success).getNode other =
        (c.setNodeStatus id (n.status.next success)).getNode other := by
      have hkeep : n.status.next success = n.status →
          (c.setNodeStatus id (n.status.next success)).getNode other = c.getNode other := by
        intro hstatus
        rw [ClusterManager.getNode_setNodeStatus, hstatus]
        by_cases heq : other = id
        · subst heq
          simp [hn]
        · rw [if_neg heq]
      simp only [recordPing, hn]
      rcases n with ⟨_, _, _, _ | _ | _⟩ <;> cases success <;> simp_all [NodeStatus.next]
    rw [hset, getNode_setNodeStatus, hn]
    rfl

theorem recordPing_frame (c : ClusterManager) (id : NodeId) (success : Bool) :
    (c.recordPing id success).selfNode = c.selfNode ∧ (c.recordPing id success).ring = c.ring := by
  have hset : ∀ status, (c.setNodeStatus id status).selfNode = c.selfNode ∧
      (c.setNodeStatus id status).ring = c.ring := by
    intro status
    unfold setNodeStatus
    cases c.nodeIndex.lookup id <;> exact ⟨rfl, rfl⟩
  unfold recordPing
  cases c.getNode id with
  | none => exact ⟨rfl, rfl⟩
  | some n => rcases n with ⟨_, _, _, _ | _ | _⟩ <;> cases success <;> simp [hset]

theorem loadConfig_up (selfId : NodeId) (config : List ConfigLine) :
    ∀ n ∈ (loadConfig selfId config).nodes, n.status = .up := by
  induction config using List.reverseRecOn with
  | nil =>
    intro n hn
    cases hn
  | append_singleton config line ih =>
    rw [loadConfig_concat]
    intro n hn
    rcases List.mem_append.1 hn with hn | hn
    · exact ih n hn
    · rw [List.mem_singleton.1 hn]

theorem initializeRing_getNode (c : ClusterManager) (id : NodeId) : c.initializeRing.getNode id = c.getNode id := rfl

/-- A handler that reads a table that stays as it is gets `getReplicaNodes`. -/
theorem exec_getReplicaNodes (c : ClusterManager) (factor : Nat) {w : Surroundings}
    (htable : ∀ t, w.table t = c.getNode) (key : Key) (count t : Nat) (p : Process) :
    (((ReplicationManager.new c factor).getReplicaNodes key count).exec w.env (t, p)).1 =
      c.getReplicaNodes key count := by
  have hlive : ∀ (ids : List NodeId) (t : Nat),
      w.live t ids = ids.filterMap fun id => (c.getNode id).filter (·.status ≠ .down) := by
    intro ids
    induction ids with
    | nil => exact fun _ => rfl
    | cons id ids ih =>
      intro t
      rw [Surroundings.live, ih, htable, List.filterMap_cons]
      cases (c.getNode id).filter (·.status ≠ .down) <;> rfl
  unfold ReplicationManager.getReplicaNodes
  rw [ReplicationManager.exec_liveNodes]
  exact hlive _ t

/-- On ids that are all known, `getReplicaNodes` only leaves out those that are DOWN. -/
theorem ids_of_known {c : ClusterManager} (down : NodeId → Bool) : ∀ {ids : List NodeId},
    (∀ id ∈ ids, ∃ n, c.getNode id = some n ∧ (n.status = .down ↔ down id)) →
      (ids.filterMap fun id => (c.getNode id).filter (·.status ≠ .down)).map (·.id) = ids.filter (fun id => !down id)
  | [], _ => rfl
  | id :: ids, h => by
    obtain ⟨n, hn, hdown⟩ := h id List.mem_cons_self
    have ih := ids_of_known down fun i hi => h i (List.mem_cons_of_mem _ hi)
    have hid := getNode_id hn
    by_cases hd : n.status = .down
    · have hdrop : (c.getNode id).filter (·.status ≠ .down) = none := by simp [hn, hd]
      simp only [List.filterMap_cons, hdrop]
      rw [List.filter_cons_of_neg (by simp [hdown.1 hd]), ih]
    · have hkeep : (c.getNode id).filter (·.status ≠ .down) = some n := by simp [hn, hd, Option.filter_some]
      simp only [List.filterMap_cons, hkeep]
      rw [List.filter_cons_of_pos (by simpa using mt hdown.2 hd), List.map_cons, ih, hid]

end ClusterManager

/-! ## Runs -/

namespace HealthMonitor

/-- What a turn can do: pass over the node's own entry, record a ping of another one, or begin the
next sweep. -/
theorem step_cases {s s' : HealthMonitor} {e : MonitorEvent} (h : s.step e = some s') :
    (s'.cluster = s.cluster ∧ s'.pings = s.pings) ∨
      ∃ id success, id ≠ s.cluster.selfNode.id ∧ s'.cluster = s.cluster.recordPing id success ∧
        s'.pings = (id, success) :: s.pings := by
  cases e with
  | skip =>
    obtain ⟨node, -, h⟩ := Option.bind_eq_some_iff.1 h
    obtain ⟨-, h⟩ := Option.ite_none_right_eq_some.1 h
    cases h
    exact Or.inl ⟨rfl, rfl⟩
  | ping reply =>
    obtain ⟨node, -, h⟩ := Option.bind_eq_some_iff.1 h
    obtain ⟨hself, h⟩ := Option.ite_none_left_eq_some.1 h
    cases h
    exact Or.inr ⟨node.id, pingNode reply, hself, rfl, rfl⟩
  | sleep =>
    obtain ⟨-, h⟩ := Option.ite_none_right_eq_some.1 h
    cases h
    exact Or.inl ⟨rfl, rfl⟩

/-- The table is the one the node was started with, under the statuses the pings call for; the node
itself was not pinged. -/
structure Agrees (first : ClusterManager) (s : HealthMonitor) : Prop where
  selfNode : s.cluster.selfNode = first.selfNode
  ring : s.cluster.ring = first.ring
  unpinged : s.outcomes first.selfNode.id = []
  table : ∀ id, s.cluster.getNode id =
    (first.getNode id).map fun n => { n with status := statusAfter (s.outcomes id) }

theorem Agrees.init {first : ClusterManager} (hup : ∀ n ∈ first.nodes, n.status = .up) :
    Agrees first ⟨first, 0, []⟩ where
  selfNode := rfl
  ring := rfl
  unpinged := rfl
  table id := by
    rcases hn : first.getNode id with _ | n
    · rfl
    · obtain ⟨i, -, hi⟩ := Option.bind_eq_some_iff.1 hn
      have hstatus : n.status = statusAfter [] := hup n (List.mem_of_getElem? hi)
      show some n = some { n with status := statusAfter [] }
      rw [← hstatus]

theorem Agrees.step {first : ClusterManager} {s s' : HealthMonitor} {e : MonitorEvent} (h : Agrees first s)
    (hs : s.step e = some s') : Agrees first s' := by
  rcases step_cases hs with ⟨hcluster, hpings⟩ | ⟨id, success, hself, hcluster, hpings⟩
  · have hout : s'.outcomes = s.outcomes := by
      funext id
      unfold outcomes
      rw [hpings]
    constructor
    · rw [hcluster, h.selfNode]
    · rw [hcluster, h.ring]
    · rw [hout, h.unpinged]
    · rw [hcluster, hout]
      exact h.table
  · obtain ⟨hselfNode, hring⟩ := s.cluster.recordPing_frame id success
    have hout : ∀ other, s'.outcomes other = if other = id then success :: s.outcomes id else s.outcomes other := by
      intro other
      unfold outcomes
      rw [hpings]
      by_cases heq : other = id
      · simp [heq]
      · simp [heq, Ne.symm heq]
    constructor
    · rw [hcluster, hselfNode, h.selfNode]
    · rw [hcluster, hring, h.ring]
    · rw [h.selfNode] at hself
      rw [hout, if_neg (Ne.symm hself), h.unpinged]
    · intro other
      rw [hcluster, ClusterManager.getNode_recordPing, hout]
      by_cases heq : other = id
      · subst heq
        rw [if_pos rfl, if_pos rfl, h.table, Option.map_map]
        rfl
      · rw [if_neg heq, if_neg heq, h.table]

/-- Every state the monitor reaches. -/
theorem agrees_of_runs {selfId : NodeId} {config : List ConfigLine} {es : List MonitorEvent} {s : HealthMonitor}
    (h : Runs step (fun _ _ => True) (start selfId config) es s) :
    Agrees (ClusterManager.loadConfig selfId config).initializeRing s := by
  refine h.invariant (I := Agrees _) ?_ (.init (ClusterManager.loadConfig_up selfId config))
  intro s e s' hs _ hstep
  exact hs.step hstep

end HealthMonitor

/-- The statuses agree with the pings. In every state the monitor reaches, another node of the config
is DOWN if its last two pings failed, SUSPECT if the last one failed and the one before, if any, did
not, and UP otherwise; the node itself is UP; and the replicas of a key are those of the ring, in
order, without the ones that are DOWN. -/
theorem statuses_agree_with_pings {selfId : NodeId} {config : List ConfigLine} {es : List MonitorEvent}
    {s : HealthMonitor}
    (h : Runs HealthMonitor.step (fun _ _ => True) (HealthMonitor.start selfId config) es s) :
    (∀ id ∈ config.map (·.id), id ≠ selfId → ∃ n, s.cluster.getNode id = some n ∧
      (n.status = .down ↔ (s.outcomes id).take 2 = [false, false]) ∧
      (n.status = .suspect ↔ (s.outcomes id).take 2 = [false] ∨ (s.outcomes id).take 2 = [false, true]) ∧
      (n.status = .up ↔ (s.outcomes id).head? ≠ some false)) ∧
    (selfId ∈ config.map (·.id) → ∃ n, s.cluster.getNode selfId = some n ∧ n.status = .up) ∧
    ∀ key count,
      (s.cluster.getReplicaNodes key count).map (·.id) =
        ((ringOf config).getNodes key count).filter (fun id => (s.outcomes id).take 2 ≠ [false, false]) ∧
      ∀ n ∈ s.cluster.getReplicaNodes key count, s.cluster.getNode n.id = some n := by
  have hs := HealthMonitor.agrees_of_runs h
  have hknown : ∀ id ∈ config.map (·.id), ∃ n, s.cluster.getNode id = some n ∧
      n.status = statusAfter (s.outcomes id) := by
    intro id hid
    obtain ⟨n, hn⟩ := ClusterManager.loadConfig_getNode selfId hid
    refine ⟨{ n with status := statusAfter (s.outcomes id) }, ?_, rfl⟩
    rw [hs.table, ClusterManager.initializeRing_getNode, hn]
    rfl
  refine ⟨?_, ?_, ?_⟩
  · intro id hid _
    obtain ⟨n, hn, hstatus⟩ := hknown id hid
    refine ⟨n, hn, ?_, ?_, ?_⟩
    · rw [hstatus, statusAfter_eq_down_iff]
    · rw [hstatus, statusAfter_eq_suspect_iff]
    · rw [hstatus, statusAfter_eq_up_iff]
  · intro hself
    obtain ⟨n, hn, hstatus⟩ := hknown selfId hself
    have hnone : s.outcomes selfId = [] := by
      have hid : (ClusterManager.loadConfig selfId config).initializeRing.selfNode.id = selfId :=
        ClusterManager.loadConfig_selfNode hself
      rw [← hs.unpinged, hid]
    exact ⟨n, hn, by rw [hstatus, hnone]; rfl⟩
  · intro key count
    have hring : s.cluster.ring = ringOf config := hs.ring.trans (ClusterManager.initializeRing_ring selfId config)
    unfold ClusterManager.getReplicaNodes
    rw [hring]
    constructor
    · rw [ClusterManager.ids_of_known fun id => decide ((s.outcomes id).take 2 = [false, false])]
      · simp
      · intro id hid
        obtain ⟨n, hn, hstatus⟩ := hknown id (mem_ringOf_nodes ((ringOf config).mem_getNodes key hid))
        refine ⟨n, hn, ?_⟩
        rw [hstatus, statusAfter_eq_down_iff, decide_eq_true_iff]
    · intro n hn
      obtain ⟨id, -, hid⟩ := List.mem_filterMap.1 hn
      obtain ⟨hid, -⟩ := Option.filter_eq_some_iff.1 hid
      rw [ClusterManager.getNode_id hid, hid]

/-- Node `"b"`, listed twice, fails the two pings of the first sweep. -/
theorem statuses_agree_with_pings_twoFailures :
    ∃ s, Runs HealthMonitor.step (fun _ _ => True)
        (HealthMonitor.start [97] [⟨[97], [], 1⟩, ⟨[98], [], 2⟩, ⟨[98], [], 3⟩]) [.skip, .ping none, .ping none] s ∧
      ∃ n, s.cluster.getNode [98] = some n ∧ n.status = .down := by
  have hrun : Runs HealthMonitor.step (fun _ _ => True)
      (HealthMonitor.start [97] [⟨[97], [], 1⟩, ⟨[98], [], 2⟩, ⟨[98], [], 3⟩]) [.skip, .ping none, .ping none] _ :=
    runs_of_runEvents rfl
  obtain ⟨n, hn, hdown, -⟩ := (statuses_agree_with_pings hrun).1 [98] (by decide) (by decide)
  exact ⟨_, hrun, n, hn, hdown.2 rfl⟩

end KvStore
