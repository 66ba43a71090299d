/-
Cluster mode on one node. A cluster of one node with one copy of each key is a detour to the same
store: the node is the only replica of every key, nothing is forwarded, and the quorum is one. The
store then goes through the same states as in standalone mode. The answers differ in two places: the
cluster-mode handler folds every refused PUT into ERROR, and every DELETE into OK.
-/
import KvStore.Cluster.Failures
import KvStore.Cluster.HealthMonitor
import KvStore.Cluster.Membership
import KvStore.Server.Incarnation

namespace KvStore

open Bytes Program

/-! ## The cluster -/

/-- The cluster whose config lists one node. -/
def oneNode (self : NodeId) (host : Str) (port : UInt16) : Cluster where
  config := [⟨self, host, port⟩]
  nonempty := by simp
  distinct := List.nodup_singleton _
  replicationFactor := 1

/-- The surroundings of the only node. The health monitor passes over the node's own entry, which
stays UP; a forwarded request could be answered in any way. -/
def alone (self : NodeId) (host : Str) (port : UInt16) (answer : Nat → NodeInfo → Request → Response) :
    Surroundings :=
  .ofViews ((oneNode self host port).manager self) (fun _ _ => .up) answer

/-- In a cluster without other nodes, the table stays as it was whatever the health monitor has done. -/
theorem table_of_no_peers {c : Cluster} {self : NodeId} (hself : self ∈ c.ids) (halone : ∀ id ∈ c.ids, id = self)
    {es : List MonitorEvent} {s : HealthMonitor}
    (h : Machine.Runs HealthMonitor.step (fun _ _ => True) (.start self c.config) es s)
    (answer : Nat → NodeInfo → Request → Response) (t : Nat) :
    (Surroundings.ofViews (c.manager self) (fun _ _ => .up) answer).table t = s.cluster.getNode := by
  have hs := HealthMonitor.agrees_of_runs h
  have hid : (ClusterManager.loadConfig self c.config).initializeRing.selfNode.id = self :=
    ClusterManager.loadConfig_selfNode hself
  funext id
  show ((c.manager self).withView fun _ => .up).getNode id = _
  rw [ClusterManager.getNode_withView, hs.table]
  show ((ClusterManager.loadConfig self c.config).getNode id).map _ =
    ((ClusterManager.loadConfig self c.config).getNode id).map _
  rcases hn : (ClusterManager.loadConfig self c.config).getNode id with _ | n
  · rfl
  · -- the entry is the node's own, which is not pinged
    have hown : id = self := halone id (ClusterManager.mem_ids_of_getNode hn)
    have hnone : s.outcomes id = [] := by rw [← hs.unpinged, hid, hown]
    rw [hnone]
    rfl

/-- Handle requests one after the other in cluster mode; the requests with their responses, and the
process. -/
def ReplicationManager.respondAll (m : ReplicationManager) (w : Surroundings) :
    List Request → Process → List (Request × Response) × Process
  | [], p => ([], p)
  | req :: reqs, p =>
    let (acks, p') := m.respondAll w reqs (m.handle p (req, w))
    ((req, m.respond p (req, w)) :: acks, p')

/-- The node keeps every key, is alone in doing so, and needs no other acknowledgement. -/
structure ReplicationManager.ServesAlone (m : ReplicationManager) (w : Surroundings) : Prop where
  quorum : m.writeQuorum = 1
  owner : ∀ key, m.ring.getNode key = m.selfId
  live : ∀ key, m.LiveReplica w key
  acks : ∀ req, m.remoteAcks w req = 0

theorem oneNode_primary (self : NodeId) (host : Str) (port : UInt16) (key : Key) :
    (oneNode self host port).primary key = self := by
  have hmem := ConsistentHashRing.getNode_mem (ringOf_ne_nil (oneNode self host port).nonempty) key
  exact List.mem_singleton.1 (mem_ringOf_nodes hmem)

theorem oneNode_replicas (self : NodeId) (host : Str) (port : UInt16) (key : Key) :
    (oneNode self host port).replicas key = [self] := by
  rw [Cluster.replicas_of_one rfl, oneNode_primary]

theorem oneNode_servesAlone (self : NodeId) (host : Str) (port : UInt16)
    (answer : Nat → NodeInfo → Request → Response) :
    ((oneNode self host port).replication self).ServesAlone (alone self host port answer) where
  quorum := show 1 / 2 + 1 = 1 from rfl
  owner key := by
    rw [Cluster.replication_ring, Cluster.replication_selfId]
    exact oneNode_primary self host port key
  live key := by
    refine Cluster.liveReplica ?_ (fun _ _ h => by cases h) answer
    rw [oneNode_replicas]
    exact List.mem_singleton_self self
  acks req := by
    have hself : ((oneNode self host port).replication self).selfNode.id = self :=
      Cluster.replication_selfNode (List.mem_singleton_self self)
    unfold ReplicationManager.remoteAcks
    apply Surroundings.acks_of_self
    intro node hnode
    have hsub := ((alone self host port answer).live_sublist 0 _).subset (List.mem_map_of_mem hnode)
    rw [Cluster.replication_ring] at hsub
    change node.id ∈ (oneNode self host port).replicas req.key at hsub
    rw [oneNode_replicas] at hsub
    rw [hself]
    exact List.mem_singleton.1 hsub

/-! ## One request -/

/-- The request is answered alike in both modes: it is not a PUT beyond the limits, nor a DELETE of a
key that is not there. -/
def AnsweredAlike (store : KVStore) (req : Request) : Prop :=
  (req.command = .put → KVStore.Accepts req.key req.value) ∧
    (req.command = .delete → store.data.lookup req.key ≠ none)

theorem ReplicationManager.respondAll_cons (m : ReplicationManager) (w : Surroundings) (req : Request)
    (reqs : List Request) (p : Process) : m.respondAll w (req :: reqs) p =
      ((req, m.respond p (req, w)) :: (m.respondAll w reqs (m.handle p (req, w))).1,
        (m.respondAll w reqs (m.handle p (req, w))).2) := rfl

namespace ReplicationManager.ServesAlone

variable {m : ReplicationManager} {w : Surroundings} (h : m.ServesAlone w)

include h

theorem put (p : Process) (key : Key) (value : Value) :
    m.respond p (⟨.put, key, value⟩, w) = (if KVStore.Accepts key value then ⟨.ok, []⟩ else ⟨.error, []⟩) ∧
      (m.handle p (⟨.put, key, value⟩, w)).store = (p.store.put key value).2 := by
  constructor
  · rw [m.respond_put w, h.acks, h.quorum]
    by_cases haccept : KVStore.Accepts key value <;> simp [h.live key, haccept]
  · rw [m.handle_put w, if_pos (h.live key)]

theorem delete (p : Process) (key : Key) (value : Value) :
    m.respond p (⟨.delete, key, value⟩, w) = ⟨.ok, []⟩ ∧
      (m.handle p (⟨.delete, key, value⟩, w)).store = (p.store.del key).2 := by
  constructor
  · rw [m.respond_delete w, h.acks, h.quorum]
    simp [h.live key]
  · rw [m.handle_delete w, if_pos (h.live key)]

theorem get (p : Process) (key : Key) (value : Value) :
    m.respond p (⟨.get, key, value⟩, w) = p.store.get key ∧ (m.handle p (⟨.get, key, value⟩, w)).store = p.store := by
  constructor
  · exact m.handleGet_local w (h.owner key) p
  · exact congrArg Process.store (m.exec_handleGet w key p)

/-- On processes with the same store, a request leaves the same store in both modes, and is answered
alike as far as `AnsweredAlike` says. -/
theorem step {p q : Process} (hpq : p.store = q.store) (req : Request) :
    (m.handle p (req, w)).store = (serve req q).2.store ∧
      (m.respond p (req, w) = (serve req q).1 ↔ AnsweredAlike q.store req) := by
  obtain ⟨command, key, value⟩ := req
  unfold AnsweredAlike
  cases command with
  | put =>
    obtain ⟨hresp, hstore⟩ := h.put p key value
    obtain ⟨hserve, hserved⟩ := serve_put key value q
    rw [hresp, hstore, hserve, hserved, hpq]
    refine ⟨rfl, ?_⟩
    by_cases haccept : KVStore.Accepts key value
    · simp [haccept, KVStore.put_ok haccept]
    · simp [haccept, (KVStore.put_ne_error q.store key value).symm]
  | delete =>
    obtain ⟨hresp, hstore⟩ := h.delete p key value
    obtain ⟨hserve, hserved⟩ := serve_delete key value q
    rw [hresp, hstore, hserve, hserved, hpq]
    refine ⟨rfl, ?_⟩
    rcases hkey : q.store.data.lookup key with _ | v
    · simp [KVStore.del_absent hkey]
    · simp [KVStore.del_present hkey]
  | get =>
    obtain ⟨hresp, hstore⟩ := h.get p key value
    rw [hresp, hstore, hpq]
    exact ⟨rfl, iff_of_true rfl ⟨nofun, nofun⟩⟩
  | ping => exact ⟨hpq, iff_of_true rfl ⟨nofun, nofun⟩⟩
  | other b hb => exact ⟨hpq, iff_of_true rfl ⟨nofun, nofun⟩⟩

/-- The same for any number of requests; each is judged by the store that those before it leave. -/
theorem run : ∀ (reqs : List Request) {p q : Process}, p.store = q.store →
    (m.respondAll w reqs p).2.store = (serveAll reqs q).2.store ∧
      ((m.respondAll w reqs p).1 = (serveAll reqs q).1 ↔
        ∀ before req after, reqs = before ++ req :: after → AnsweredAlike (serveAll before q).2.store req)
  | [], p, q, hpq => ⟨hpq, iff_of_true rfl fun before req after hsplit => by simp at hsplit⟩
  | req :: reqs, p, q, hpq => by
    obtain ⟨hstore, hresp⟩ := h.step hpq req
    obtain ⟨ihstore, ihresp⟩ := run reqs hstore
    rw [respondAll_cons, serveAll_cons]
    refine ⟨ihstore, ?_⟩
    rw [List.cons.injEq, Prod.mk.injEq, ihresp, hresp]
    constructor
    · rintro ⟨⟨-, hfirst⟩, hrest⟩ before r after hsplit
      cases before with
      | nil =>
        obtain ⟨rfl, -⟩ := List.cons.inj hsplit
        exact hfirst
      | cons b before =>
        obtain ⟨rfl, htail⟩ := List.cons.inj hsplit
        exact hrest before r after htail
    · intro hall
      refine ⟨⟨rfl, hall [] req reqs rfl⟩, ?_⟩
      intro before r after hsplit
      exact hall (req :: before) r after (by rw [hsplit]; rfl)

end ReplicationManager.ServesAlone

/-- On one node with one copy of each key, cluster mode and standalone mode leave the same store; and
they give the same responses exactly if no PUT is beyond the limits and no DELETE finds its key
missing. The node table they read is the one in every state of the health monitor. -/
theorem oneNode_modes_agree_iff (self : NodeId) (host : Str) (port : UInt16)
    (answer : Nat → NodeInfo → Request → Response) (p : Process) (reqs : List Request) :
    let cluster := ((oneNode self host port).replication self).respondAll (alone self host port answer) reqs p
    let standalone := serveAll reqs p
    cluster.2.store = standalone.2.store ∧
      (cluster.1 = standalone.1 ↔
        ∀ before req after, reqs = before ++ req :: after → AnsweredAlike (serveAll before p).2.store req) ∧
      ∀ es s, Machine.Runs HealthMonitor.step (fun _ _ => True) (.start self (oneNode self host port).config) es s →
        ∀ t, (alone self host port answer).table t = s.cluster.getNode := by
  intro cluster standalone
  obtain ⟨hstore, hresp⟩ := (oneNode_servesAlone self host port answer).run reqs (rfl : p.store = p.store)
  refine ⟨hstore, hresp, ?_⟩
  intro es s h t
  have halone : ∀ id ∈ (oneNode self host port).ids, id = self := fun id hid => List.mem_singleton.1 hid
  exact table_of_no_peers (List.mem_singleton_self self) halone h answer t

/-- A DELETE of a key that is not there is answered OK in one mode and NOT_FOUND in the other. -/
theorem deleteAbsent_answers_differ :
    (((oneNode [97] [104] 1).replication [97]).respondAll
      (alone [97] [104] 1 fun _ _ _ => ⟨.nodeUnavailable, []⟩) [⟨.delete, [107], []⟩] freshProcess).1 =
        [(⟨.delete, [107], []⟩, ⟨.ok, []⟩)] ∧
    (serveAll [⟨.delete, [107], []⟩] freshProcess).1 = [(⟨.delete, [107], []⟩, ⟨.notFound, []⟩)] := by
  have halone := oneNode_servesAlone [97] [104] 1 fun _ _ _ => ⟨.nodeUnavailable, []⟩
  constructor
  · rw [ReplicationManager.respondAll_cons, (halone.delete freshProcess [107] []).1]
    rfl
  · rw [serveAll_cons, (serve_delete [107] [] freshProcess).1, KVStore.del_absent rfl]
    rfl

end KvStore
