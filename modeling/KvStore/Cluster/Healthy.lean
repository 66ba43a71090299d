/-
What the handlers do in a healthy cluster, where every node is reachable and none is marked DOWN:
all nodes route a key to the same replicas, the primary answers a GET from its own store, and the
loops over the replicas go through the whole list.
-/
import KvStore.Cluster.Network

namespace KvStore

open Bytes Program Protocol

namespace Cluster

variable (c : Cluster)

@[simp] theorem replication_selfId (self : NodeId) : (c.replication self).selfId = self :=
  (ClusterManager.loadConfig_ids self c.config).1

@[simp] theorem replication_ring (self : NodeId) : (c.replication self).ring = ringOf c.config :=
  ClusterManager.initializeRing_ring self c.config

theorem replication_selfNode {c : Cluster} {self : NodeId} (h : self ∈ c.ids) :
    (c.replication self).selfNode.id = self :=
  ClusterManager.loadConfig_selfNode h

theorem manager_getNode {c : Cluster} (self : NodeId) {id : NodeId} (h : id ∈ c.ids) :
    ∃ n, (c.manager self).getNode id = some n :=
  ClusterManager.loadConfig_getNode self h

theorem mem_ids_of_replicas {c : Cluster} {key : Key} {id : NodeId} (h : id ∈ c.replicas key) : id ∈ c.ids :=
  mem_ringOf_nodes ((ringOf c.config).mem_getNodes key h)

theorem nodup_replicas (key : Key) : (c.replicas key).Nodup := (ringOf c.config).nodup_getNodes key _

theorem length_replicas_le (key : Key) : (c.replicas key).length ≤ c.replicationFactor :=
  (ringOf c.config).length_getNodes_le key _

/-- With a positive replication factor the primary is the first replica. -/
theorem replicas_eq_cons {c : Cluster} (h : 0 < c.replicationFactor) (key : Key) :
    ∃ others, c.replicas key = c.primary key :: others := by
  have hhead := (ringOf c.config).head?_getNodes key (ringOf_ne_nil c.nonempty) h
  change (c.replicas key).head? = some (c.primary key) at hhead
  cases hr : c.replicas key with
  | nil =>
    rw [hr] at hhead
    cases hhead
  | cons p others =>
    rw [hr, List.head?_cons, Option.some.injEq] at hhead
    exact ⟨others, by rw [hhead]⟩

/-- With replication factor 1 the primary is the only replica. -/
theorem replicas_of_one {c : Cluster} (hrf : c.replicationFactor = 1) (key : Key) :
    c.replicas key = [c.primary key] := by
  obtain ⟨others, hreps⟩ := replicas_eq_cons (hrf ▸ Nat.one_pos) key
  have hlen := c.length_replicas_le key
  rw [hreps, hrf, List.length_cons] at hlen
  rw [hreps, List.length_eq_zero_iff.1 (show others.length = 0 by omega)]

end Cluster

namespace Network

open ReplicationManager

variable {net : Network} {self : NodeId} {s : NetState}

/-- The node table finds every member, with some status that is not DOWN. -/
theorem finishes_lookupNode (hh : net.Healthy) {id : NodeId} (hid : id ∈ net.cluster.ids) :
    Finishes (net.chain self) (lookupNode id) s
      fun node s' => (∃ n : NodeInfo, node = some n ∧ n.id = id ∧ n.status ≠ .down) ∧ s'.nodes = s.nodes := by
  obtain ⟨n, hn⟩ := Cluster.manager_getNode self hid
  have hnode := ClusterManager.getNode_withView (net.cluster.manager self) (net.view s.time self) id
  rw [hn, Option.map_some] at hnode
  have hid := ClusterManager.getNode_id hn
  exact ⟨0, _, _, rfl, ⟨_, hnode, hid, hh s.time self id⟩, rfl⟩

theorem finishes_liveNodes (hh : net.Healthy) : ∀ {ids : List NodeId}, (∀ id ∈ ids, id ∈ net.cluster.ids) →
    ∀ s, Finishes (net.chain self) (liveNodes ids) s
      fun nodes s' => nodes.map (·.id) = ids ∧ s'.nodes = s.nodes
  | [], _, s => .ret ⟨rfl, rfl⟩
  | id :: ids, h, s => by
    refine (finishes_lookupNode hh (h id List.mem_cons_self)).bind ?_
    rintro node s₁ ⟨⟨n, rfl, hid, hup⟩, hs₁⟩
    refine (finishes_liveNodes hh (fun i hi => h i (List.mem_cons_of_mem _ hi)) s₁).bind ?_
    rintro rest s₂ ⟨hrest, hs₂⟩
    refine .ret ⟨?_, hs₂.trans hs₁⟩
    simp [Option.filter_some, hup, hid, hrest]

theorem finishes_getReplicaNodes (hh : net.Healthy) (key : Key) :
    Finishes (net.chain self)
      ((net.cluster.replication self).getReplicaNodes key (net.cluster.replication self).replicationFactor) s
      fun nodes s' => nodes.map (·.id) = net.cluster.replicas key ∧ s'.nodes = s.nodes := by
  unfold getReplicaNodes
  rw [Cluster.replication_ring]
  exact finishes_liveNodes hh (fun id hid => Cluster.mem_ids_of_replicas hid) s

/-! ## Reads -/

theorem clusterHandler_get {m : ReplicationManager} {req : Request} (h : req.command = .get) :
    m.clusterHandler req = m.handleGet req.key := by
  unfold clusterHandler
  rw [h]

/-- The primary answers a GET from its own store. -/
theorem answers_get_primary (req : Request) (hreq : req.command = .get) (s : NetState) :
    net.Answers (net.cluster.primary req.key) req s
      fun resp s' => resp = (s.nodes (net.cluster.primary req.key)).store.get req.key ∧ s'.nodes = s.nodes := by
  unfold Answers
  rw [clusterHandler_get hreq, handleGet, Cluster.replication_selfId, Cluster.replication_ring,
    if_pos (show (ringOf net.cluster.config).getNode req.key = net.cluster.primary req.key from rfl)]
  exact finishes_localGet _ ⟨rfl, rfl⟩

/-- Every other node goes through the replicas. -/
theorem handleGet_other {key : Key} (h : self ≠ net.cluster.primary key) :
    (net.cluster.replication self).handleGet key =
      (net.cluster.replication self).getReplicaNodes key (net.cluster.replication self).replicationFactor >>=
        (net.cluster.replication self).tryReplicas key := by
  unfold handleGet
  rw [Cluster.replication_selfId, Cluster.replication_ring, if_neg (fun e => h e.symm)]

end Network

/-! ## Three nodes -/

/-- Three nodes `"a"`, `"b"` and `"c"` that keep every key three times. -/
def threeNodes : Cluster where
  config := [⟨[97], [104], 1⟩, ⟨[98], [104], 2⟩, ⟨[99], [104], 3⟩]
  nonempty := by simp
  distinct := by decide
  replicationFactor := 3

/-- The replicas of `"k"`, clockwise: `"c"`, `"a"`, `"b"`. -/
theorem threeNodes_replicas : threeNodes.replicas [107] = [[99], [97], [98]] := by decide +kernel

theorem threeNodes_primary : threeNodes.primary [107] = [99] := by
  obtain ⟨others, h⟩ := Cluster.replicas_eq_cons (c := threeNodes) (by decide) [107]
  rw [threeNodes_replicas, List.cons.injEq] at h
  exact h.1.symm

end KvStore
