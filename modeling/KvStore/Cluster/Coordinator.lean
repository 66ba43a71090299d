/-
One node of a cluster on its own. While it handles a request its node table may change from one
look to the next, and its peers may answer anything: the table and the answers are a function of
the number of calls the handler has made. What a write does to the node's process then depends only
on whether the node finds itself among the live replicas of the key.
-/
import KvStore.Cluster.Healthy

namespace KvStore

open Bytes Program

/-- What surrounds a node while it handles a request. -/
structure Surroundings where
  /-- the entry of a node in the table -/
  table : Nat → NodeId → Option NodeInfo
  named : ∀ {t id n}, table t id = some n → n.id = id
  /-- what `forwardRequest` returns -/
  answer : Nat → NodeInfo → Request → Response

namespace Surroundings

/-- The table of a `ClusterManager` whose statuses a health monitor changes. -/
def ofViews (cluster : ClusterManager) (view : Nat → NodeId → NodeStatus)
    (answer : Nat → NodeInfo → Request → Response) : Surroundings where
  table t id := (cluster.withView (view t)).getNode id
  named h := ClusterManager.getNode_id h
  answer := answer

/-- How the calls of a handler are answered. -/
def env (w : Surroundings) : (c : ClusterCall) → Nat × Process → c.Res × (Nat × Process)
  | .store c, (t, p) => ((c.exec p).1, t + 1, (c.exec p).2)
  | .getNode id, (t, p) => (w.table t id, t + 1, p)
  | .forward node req, (t, p) => (w.answer t node req, t + 1, p)

/-- The entries of some nodes, looked up one after another, without those that are DOWN. -/
def live (w : Surroundings) : Nat → List NodeId → List NodeInfo
  | _, [] => []
  | t, id :: ids => ((w.table t id).filter (·.status ≠ .down)).toList ++ w.live (t + 1) ids

theorem live_sublist (w : Surroundings) : ∀ (t : Nat) (ids : List NodeId), ((w.live t ids).map (·.id)).Sublist ids
  | _, [] => .slnil
  | t, id :: ids => by
    unfold live
    rw [List.map_append]
    have ih := w.live_sublist (t + 1) ids
    cases hn : (w.table t id).filter (·.status ≠ .down) with
    | none => exact ih.cons id
    | some n =>
      have hid : n.id = id := w.named (Option.filter_eq_some_iff.1 hn).1
      rw [← hid]
      exact ih.cons_cons n.id

/-- All nodes are looked up if none is missing or DOWN. -/
theorem live_of_up {w : Surroundings} : ∀ {ids : List NodeId},
    (∀ id ∈ ids, ∀ t, ∃ n, w.table t id = some n ∧ n.status ≠ .down) → ∀ t, (w.live t ids).map (·.id) = ids
  | [], _, _ => rfl
  | id :: ids, h, t => by
    obtain ⟨n, hn, hup⟩ := h id List.mem_cons_self t
    have ih := live_of_up (fun i hi => h i (List.mem_cons_of_mem _ hi)) (t + 1)
    simp [live, hn, Option.filter_some, hup, w.named hn, ih]

end Surroundings

namespace ReplicationManager

variable (m : ReplicationManager) (w : Surroundings)

/-! ## The parts of a write -/

theorem exec_liveNodes : ∀ (ids : List NodeId) (t : Nat) (p : Process),
    (liveNodes ids).exec w.env (t, p) = (w.live t ids, t + ids.length, p)
  | [], t, p => rfl
  | id :: ids, t, p => by
    show (liveNodes ids >>= _).exec w.env (t + 1, p) = _
    rw [Prog.exec_bind, exec_liveNodes ids (t + 1) p]
    refine Prod.ext rfl (Prod.ext ?_ rfl)
    show t + 1 + ids.length = t + (ids.length + 1)
    omega

/-- The process is not touched while the other replicas are asked. -/
theorem exec_replicateToNodes (req : Request) : ∀ (nodes : List NodeInfo) (s : Nat × Process),
    ((m.replicateToNodes req nodes).exec w.env s).2.2 = s.2
  | [], s => rfl
  | node :: nodes, (t, p) => by
    unfold replicateToNodes
    split
    · show ((m.replicateToNodes req nodes >>= _).exec w.env (t + 1, p)).2.2 = p
      rw [Prog.exec_bind]
      exact exec_replicateToNodes req nodes (t + 1, p)
    · exact exec_replicateToNodes req nodes (t, p)

/-- The node itself is one of the replicas a write at it sees. -/
def LiveReplica (key : Key) : Prop :=
  m.selfNode.id ∈ (w.live 0 (m.ring.getNodes key m.replicationFactor)).map (·.id)

instance (key : Key) : Decidable (m.LiveReplica w key) := inferInstanceAs (Decidable (_ ∈ _))

/-- What a write does to the process: the store operation if the node is a live replica. -/
theorem exec_coordinate (op : ClusterHandler Response) (f : Process → Process)
    (hop : ∀ t p, (op.exec w.env (t, p)).2.2 = f p) (accepted : Response → Bool) (req : Request) (p : Process) :
    ((m.coordinate op accepted req).exec w.env (0, p)).2.2 = if m.LiveReplica w req.key then f p else p := by
  unfold coordinate getReplicaNodes
  rw [Prog.exec_bind, exec_liveNodes, Prog.exec_bind, Prog.exec_bind]
  simp only [Prog.pure_eq, Prog.exec_ret, m.exec_replicateToNodes]
  have hany : (w.live 0 (m.ring.getNodes req.key m.replicationFactor)).any (·.id = m.selfNode.id) = true ↔
      m.LiveReplica w req.key := by
    simp [LiveReplica]
  unfold localAcks
  by_cases hlive : m.LiveReplica w req.key
  · rw [if_pos (hany.2 hlive), if_pos hlive, Prog.exec_bind]
    exact hop _ p
  · rw [if_neg (mt hany.1 hlive), if_neg hlive]
    rfl

end ReplicationManager

/-- A replica of a key that sees no node DOWN sees itself. -/
theorem Cluster.liveReplica {c : Cluster} {self : NodeId} {key : Key} (hrep : self ∈ c.replicas key)
    {view : Nat → NodeId → NodeStatus} (hup : ∀ t id, view t id ≠ .down)
    (answer : Nat → NodeInfo → Request → Response) :
    (c.replication self).LiveReplica (.ofViews (c.manager self) view answer) key := by
  unfold ReplicationManager.LiveReplica
  rw [Cluster.replication_ring, Cluster.replication_selfNode (Cluster.mem_ids_of_replicas hrep),
    Surroundings.live_of_up]
  · exact hrep
  · intro id hid t
    obtain ⟨n, hn⟩ := Cluster.manager_getNode self (Cluster.mem_ids_of_replicas hid)
    refine ⟨{ n with status := view t id }, ?_, hup t id⟩
    show ((c.manager self).withView (view t)).getNode id = _
    rw [ClusterManager.getNode_withView, hn]
    rfl

end KvStore
