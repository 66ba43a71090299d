/-
What a client is told when replicas fail. A write is answered by counting acknowledgements, after the
node has changed its own store; a read goes through the live replicas and ends with NOT_FOUND when
none of them has answered OK, whether they lack the key or could not be asked. Both are read off the
surroundings of the node: its node table and the answers of its peers.
-/
import KvStore.Cluster.Durability

namespace KvStore

open Bytes Program

/-- The acknowledgements of the nodes other than `self`, asked one after another from time `t` on. -/
def Surroundings.acks (w : Surroundings) (self : NodeId) (req : Request) : Nat → List NodeInfo → Nat
  | _, [] => 0
  | t, node :: nodes =>
    if node.id ≠ self then
      (if ReplicationManager.acknowledges (w.answer t node req) then 1 else 0) + w.acks self req (t + 1) nodes
    else w.acks self req t nodes

/-- Peers that acknowledge nothing. -/
theorem Surroundings.acks_eq_zero {w : Surroundings} {self : NodeId} {req : Request}
    (h : ∀ t node, ReplicationManager.acknowledges (w.answer t node req) = false) :
    ∀ (nodes : List NodeInfo) (t : Nat), w.acks self req t nodes = 0
  | [], _ => rfl
  | node :: nodes, t => by
    unfold acks
    split
    · rw [acks_eq_zero h nodes (t + 1), h]
      rfl
    · exact acks_eq_zero h nodes t

/-- The node itself is not asked. -/
theorem Surroundings.acks_of_self (w : Surroundings) {self : NodeId} {req : Request} :
    ∀ {nodes : List NodeInfo}, (∀ node ∈ nodes, node.id = self) → ∀ t, w.acks self req t nodes = 0
  | [], _, _ => rfl
  | node :: nodes, h, t => by
    rw [acks, if_neg (not_not.2 (h node List.mem_cons_self))]
    exact w.acks_of_self (fun n hn => h n (List.mem_cons_of_mem _ hn)) t

namespace ReplicationManager

variable (m : ReplicationManager) (w : Surroundings)

/-! ## Writes -/

/-- The response to a request that is handled in some surroundings. -/
def respond (p : Process) (e : Request × Surroundings) : Response := ((m.clusterHandler e.1).exec e.2.env (0, p)).1

/-- The acknowledgements a write gets from the other replicas. They are asked after the lookups in
the table and the write to the local store, if there is one. -/
def remoteAcks (req : Request) : Nat :=
  let ids := m.ring.getNodes req.key m.replicationFactor
  w.acks m.selfNode.id req (if m.LiveReplica w req.key then ids.length + 1 else ids.length) (w.live 0 ids)

theorem exec_replicateToNodes_acks (req : Request) : ∀ (nodes : List NodeInfo) (t : Nat) (p : Process),
    ((m.replicateToNodes req nodes).exec w.env (t, p)).1 = w.acks m.selfNode.id req t nodes
  | [], _, _ => rfl
  | node :: nodes, t, p => by
    unfold replicateToNodes Surroundings.acks
    split
    · show ((m.replicateToNodes req nodes >>= _).exec w.env (t + 1, p)).1 = _
      rw [Prog.exec_bind, ← exec_replicateToNodes_acks req nodes (t + 1) p]
      rfl
    · exact exec_replicateToNodes_acks req nodes t p

/-- The response to a write: OK if the acknowledgements, the local one among them, reach the quorum. -/
theorem coordinate_response (op : ClusterHandler Response) {answer : Process → Response} {f : Process → Process}
    (hop : ∀ t p, op.exec w.env (t, p) = (answer p, t + 1, f p)) (accepted : Response → Bool) (req : Request)
    (p : Process) :
    ((m.coordinate op accepted req).exec w.env (0, p)).1 =
      if m.writeQuorum ≤ (if m.LiveReplica w req.key ∧ accepted (answer p) then 1 else 0) + m.remoteAcks w req
      then ⟨.ok, []⟩ else ⟨.error, []⟩ := by
  unfold coordinate getReplicaNodes
  rw [Prog.exec_bind, exec_liveNodes, Prog.exec_bind, Prog.exec_bind]
  have hany : (w.live 0 (m.ring.getNodes req.key m.replicationFactor)).any (·.id = m.selfNode.id) = true ↔
      m.LiveReplica w req.key := by
    simp [LiveReplica]
  unfold localAcks remoteAcks
  by_cases hlive : m.LiveReplica w req.key
  · rw [if_pos (hany.2 hlive), Prog.exec_bind, hop]
    simp only [Prog.pure_eq, Prog.exec_ret, exec_replicateToNodes_acks, hlive, true_and, if_true, Nat.zero_add]
  · rw [if_neg (mt hany.1 hlive)]
    simp only [Prog.pure_eq, Prog.exec_ret, exec_replicateToNodes_acks, hlive, false_and, if_false, Nat.zero_add]

/-- The response to a PUT. -/
theorem respond_put (p : Process) (key : Key) (value : Value) : m.respond p (⟨.put, key, value⟩, w) =
    if m.writeQuorum ≤ (if m.LiveReplica w key ∧ KVStore.Accepts key value then 1 else 0) +
      m.remoteAcks w ⟨.put, key, value⟩ then ⟨.ok, []⟩ else ⟨.error, []⟩ := by
  have haccept : ((p.store.put key value).1.status = .ok) ↔ KVStore.Accepts key value := by
    constructor
    · intro hok
      by_contra hn
      exact (KVStore.put_refused hn p.store).1 hok
    · intro ha
      rw [KVStore.put_ok ha]
  have hresp := m.coordinate_response w (localPut key value) (fun _ _ => rfl)
    (fun resp => resp.status = .ok) ⟨.put, key, value⟩ p
  simp only [decide_eq_true_eq, haccept] at hresp
  exact hresp

/-- The response to a DELETE; the local store always acknowledges it. -/
theorem respond_delete (p : Process) (key : Key) (value : Value) : m.respond p (⟨.delete, key, value⟩, w) =
    if m.writeQuorum ≤ (if m.LiveReplica w key then 1 else 0) + m.remoteAcks w ⟨.delete, key, []⟩
    then ⟨.ok, []⟩ else ⟨.error, []⟩ := by
  have haccept : acknowledges (p.store.del key).1 = true := by
    simpa [acknowledges] using KVStore.del_status p.store key
  have hresp := m.coordinate_response w (localDel key) (fun _ _ => rfl) acknowledges ⟨.delete, key, []⟩ p
  simp only [haccept, and_true] at hresp
  exact hresp

theorem exec_handlePut (p : Process) (key : Key) (value : Value) :
    ((m.handlePut key value).exec w.env (0, p)).1 = m.respond p (⟨.put, key, value⟩, w) ∧
      ((m.handlePut key value).exec w.env (0, p)).2.2 = m.handle p (⟨.put, key, value⟩, w) :=
  ⟨rfl, rfl⟩

theorem exec_handleDelete (p : Process) (key : Key) :
    ((m.handleDelete key).exec w.env (0, p)).1 = m.respond p (⟨.delete, key, []⟩, w) ∧
      ((m.handleDelete key).exec w.env (0, p)).2.2 = m.handle p (⟨.delete, key, []⟩, w) :=
  ⟨rfl, rfl⟩

/-- A write whose response is decided by the quorum, with one acknowledgement from the local store
wherever it changes the store. -/
theorem keeps_store_iff {p : Process} {e : Request × Surroundings} {accepts : Prop} [Decidable accepts] {acks : Nat}
    (hresp : m.respond p e =
      if m.writeQuorum ≤ (if accepts then 1 else 0) + acks then ⟨.ok, []⟩ else ⟨.error, []⟩)
    (haccepts : m.ChangesStore p e → accepts) :
    ((m.respond p e).status ≠ .ok → (m.handle p e).store = p.store) ↔
      ¬ (m.ChangesStore p e ∧ 1 + acks < m.writeQuorum) := by
  rw [(m.handle_spec p e).2]
  constructor
  · rintro hkeep ⟨hchange, hmiss⟩
    have hfail : (m.respond p e).status ≠ .ok := by
      rw [hresp, if_pos (haccepts hchange), if_neg (by omega)]
      exact nofun
    exact hkeep hfail hchange
  · intro hcond hfail hchange
    refine hcond ⟨hchange, ?_⟩
    by_contra hmet
    apply hfail
    rw [hresp, if_pos (haccepts hchange), if_pos (by omega)]

/-- A PUT that changes the store of a live replica and misses the quorum. -/
theorem put_missing_quorum {p : Process} {key : Key} {value : Value} (hlive : m.LiveReplica w key)
    (haccept : KVStore.Accepts key value) (hne : p.store.data.lookup key ≠ some value)
    (hmiss : 1 + m.remoteAcks w ⟨.put, key, value⟩ < m.writeQuorum) :
    ((m.handlePut key value).exec w.env (0, p)).1.status = .error ∧
      ((m.handlePut key value).exec w.env (0, p)).2.2.store ≠ p.store := by
  obtain ⟨hresp, hhandle⟩ := m.exec_handlePut w p key value
  rw [hresp, hhandle]
  constructor
  · have hlocal : m.LiveReplica w key ∧ KVStore.Accepts key value := ⟨hlive, haccept⟩
    rw [respond_put, if_pos hlocal, if_neg (by omega)]
  · rw [Ne, (m.handle_spec _ _).2, not_not]
    exact ⟨hlive, Or.inl ⟨rfl, haccept, hne⟩⟩

/-! ## Reads -/

/-- The live replicas of a key as a GET sees them, each with the time it is asked at. -/
def asked (key : Key) : List (NodeInfo × Nat) :=
  let ids := m.ring.getNodes key m.replicationFactor
  (w.live 0 ids).zipIdx ids.length

/-- What a replica answers: the node looks into its own store, the others are sent the GET. -/
def answerOf (p : Process) (key : Key) (a : NodeInfo × Nat) : Response :=
  if a.1.id = m.selfNode.id then p.store.get key else w.answer a.2 a.1 ⟨.get, key, []⟩

/-- Why a GET may be answered NOT_FOUND: a replica of the key was consulted and does not have it. -/
inductive Evidence (p : Process) (key : Key) : Prop
  /-- the node is the primary, which looks into its own store only -/
  | primary (hlocal : m.ring.getNode key = m.selfId) (hreplica : m.selfId ∈ m.ring.getNodes key m.replicationFactor)
      (hnone : p.store.data.lookup key = none)
  | replica {a : NodeInfo × Nat} (hother : m.ring.getNode key ≠ m.selfId) (hasked : a ∈ m.asked w key)
      (hnone : (m.answerOf w p key a).status = .notFound)

/-- The loop of `handleGet` ends with NOT_FOUND if no replica answers OK. -/
theorem tryReplicas_notFound_iff (key : Key) (p : Process) : ∀ (nodes : List NodeInfo) (t : Nat),
    ((m.tryReplicas key nodes).exec w.env (t, p)).1.status = .notFound ↔
      ∀ a ∈ nodes.zipIdx t, (m.answerOf w p key a).status ≠ .ok
  | [], _ => by simp [tryReplicas]
  | node :: nodes, t => by
    have hask : (m.askReplica key node).exec w.env (t, p) = (m.answerOf w p key (node, t), t + 1, p) := by
      unfold askReplica answerOf
      split <;> rfl
    rw [tryReplicas, Prog.exec_bind, hask, List.zipIdx_cons, List.forall_mem_cons]
    by_cases hok : (m.answerOf w p key (node, t)).status = .ok
    · simp [hok]
    · rw [← tryReplicas_notFound_iff key p nodes (t + 1)]
      simp [hok]

theorem handleGet_local {key : Key} (h : m.ring.getNode key = m.selfId) (p : Process) :
    ((m.handleGet key).exec w.env (0, p)).1 = p.store.get key := by
  unfold handleGet
  rw [if_pos h]
  rfl

/-- A node that is not the primary answers NOT_FOUND if none of the replicas it asks answers OK. -/
theorem handleGet_notFound_iff {key : Key} (h : m.ring.getNode key ≠ m.selfId) (p : Process) :
    ((m.handleGet key).exec w.env (0, p)).1.status = .notFound ↔
      ∀ a ∈ m.asked w key, (m.answerOf w p key a).status ≠ .ok := by
  unfold handleGet getReplicaNodes
  rw [if_neg h, Prog.exec_bind, exec_liveNodes, tryReplicas_notFound_iff, Nat.zero_add]
  rfl

/-- A replica that can be consulted: the node itself, or one that answers OK or NOT_FOUND. -/
def CanConsult (key : Key) (a : NodeInfo × Nat) : Prop :=
  a.1.id = m.selfNode.id ∨ acknowledges (w.answer a.2 a.1 ⟨.get, key, []⟩)

theorem canConsult_iff (p : Process) (key : Key) (a : NodeInfo × Nat) :
    m.CanConsult w key a ↔ (m.answerOf w p key a).status = .ok ∨ (m.answerOf w p key a).status = .notFound := by
  unfold CanConsult answerOf
  by_cases hself : a.1.id = m.selfNode.id
  · rcases h : p.store.data.lookup key with _ | v
    · simp [hself, KVStore.get_none h]
    · simp [hself, KVStore.get_some h]
  · simp [hself, acknowledges]

theorem primary_mem_getNodes {key : Key} (hrf : 1 ≤ m.replicationFactor) (hne : m.ring.ring.entries ≠ [])
    (h : m.ring.getNode key = m.selfId) : m.selfId ∈ m.ring.getNodes key m.replicationFactor := by
  rw [← h]
  exact List.mem_of_head? (m.ring.head?_getNodes key hne hrf)

end ReplicationManager

/-! ## Failed writes -/

/-- A write that is not answered OK leaves the local store as it was, except where the node is a live
replica, the operation changes its store, and with that the quorum is still missed. -/
theorem failed_write_keeps_store_iff (m : ReplicationManager) (w : Surroundings) (p : Process) (key : Key)
    (value : Value) :
    let put := (m.handlePut key value).exec w.env (0, p)
    let del := (m.handleDelete key).exec w.env (0, p)
    ((put.1.status ≠ .ok → put.2.2.store = p.store) ↔
      ¬ (m.LiveReplica w key ∧ KVStore.Accepts key value ∧ p.store.data.lookup key ≠ some value ∧
        1 + m.remoteAcks w ⟨.put, key, value⟩ < m.writeQuorum)) ∧
    ((del.1.status ≠ .ok → del.2.2.store = p.store) ↔
      ¬ (m.LiveReplica w key ∧ p.store.data.lookup key ≠ none ∧
        1 + m.remoteAcks w ⟨.delete, key, []⟩ < m.writeQuorum)) := by
  intro put del
  constructor
  · obtain ⟨hresp, hhandle⟩ := m.exec_handlePut w p key value
    show ((m.handlePut key value).exec w.env (0, p)).1.status ≠ .ok →
      ((m.handlePut key value).exec w.env (0, p)).2.2.store = p.store ↔ _
    rw [hresp, hhandle, m.keeps_store_iff (m.respond_put w p key value)]
    · simp [ReplicationManager.ChangesStore, and_assoc]
    · rintro ⟨hlive, ⟨-, haccept, -⟩ | ⟨hcommand, -⟩⟩
      · exact ⟨hlive, haccept⟩
      · cases hcommand
  · obtain ⟨hresp, hhandle⟩ := m.exec_handleDelete w p key
    show ((m.handleDelete key).exec w.env (0, p)).1.status ≠ .ok →
      ((m.handleDelete key).exec w.env (0, p)).2.2.store = p.store ↔ _
    rw [hresp, hhandle, m.keeps_store_iff (m.respond_delete w p key [])]
    · simp [ReplicationManager.ChangesStore, and_assoc]
    · rintro ⟨hlive, -⟩
      exact hlive

/-- Peers that cannot be reached, at a node that sees all nodes UP. -/
def unreachablePeers (cluster : ClusterManager) : Surroundings :=
  .ofViews cluster (fun _ _ => .up) fun _ _ _ => ⟨.nodeUnavailable, []⟩

/-- The primary of `"k"` cannot reach its peers: the PUT is answered ERROR and stays in its store. -/
theorem failed_put_stays :
    (((threeNodes.replication [99]).handlePut [107] [118]).exec
      (unreachablePeers (threeNodes.manager [99])).env (0, freshProcess)).1.status = .error ∧
    (((threeNodes.replication [99]).handlePut [107] [118]).exec
      (unreachablePeers (threeNodes.manager [99])).env (0, freshProcess)).2.2.store ≠ freshProcess.store := by
  have hlive : (threeNodes.replication [99]).LiveReplica (unreachablePeers (threeNodes.manager [99])) [107] :=
    Cluster.liveReplica (by rw [threeNodes_replicas]; decide) (fun _ _ h => by cases h) _
  have hacks : (threeNodes.replication [99]).remoteAcks (unreachablePeers (threeNodes.manager [99]))
      ⟨.put, [107], [118]⟩ = 0 :=
    Surroundings.acks_eq_zero (fun _ _ => rfl) _ _
  have hquorum : (threeNodes.replication [99]).writeQuorum = 2 := rfl
  refine ReplicationManager.put_missing_quorum _ _ hlive (by decide) ?_ ?_
  · intro h
    cases h
  · rw [hacks, hquorum]
    decide

/-! ## Answers without evidence -/

/-- NOT_FOUND is answered on evidence exactly if a replica could be consulted: the node is the primary
(and then a replica, unless the ring is empty), or one of the live replicas it asks is the node itself
or answers OK or NOT_FOUND. -/
theorem notFound_on_evidence_iff (m : ReplicationManager) (w : Surroundings) (p : Process) (key : Key) :
    ((((m.handleGet key).exec w.env (0, p)).1.status = .notFound → m.Evidence w p key) ↔
      (m.ring.getNode key = m.selfId ∧
        (m.selfId ∈ m.ring.getNodes key m.replicationFactor ∨ p.store.data.lookup key ≠ none)) ∨
      (m.ring.getNode key ≠ m.selfId ∧ ∃ a ∈ m.asked w key, m.CanConsult w key a)) ∧
    (1 ≤ m.replicationFactor → m.ring.ring.entries ≠ [] → m.ring.getNode key = m.selfId →
      m.selfId ∈ m.ring.getNodes key m.replicationFactor) := by
  refine ⟨?_, fun hrf hne hlocal => m.primary_mem_getNodes hrf hne hlocal⟩
  by_cases hlocal : m.ring.getNode key = m.selfId
  · rw [m.handleGet_local w hlocal, KVStore.get_notFound_iff]
    constructor
    · intro hev
      refine Or.inl ⟨hlocal, ?_⟩
      by_cases hnone : p.store.data.lookup key = none
      · rcases hev hnone with ⟨-, hreplica, -⟩ | ⟨hother, -, -⟩
        · exact Or.inl hreplica
        · exact absurd hlocal hother
      · exact Or.inr hnone
    · rintro (⟨-, hreplica | hsome⟩ | ⟨hother, -⟩) hnone
      · exact .primary hlocal hreplica hnone
      · exact absurd hnone hsome
      · exact absurd hlocal hother
  · rw [m.handleGet_notFound_iff w hlocal]
    constructor
    · intro hev
      refine Or.inr ⟨hlocal, ?_⟩
      by_contra hcon
      push Not at hcon
      -- nobody could be consulted, so the loop runs through
      have hnobody : ∀ a ∈ m.asked w key, (m.answerOf w p key a).status ≠ .ok :=
        fun a ha hok => hcon a ha ((m.canConsult_iff w p key a).2 (Or.inl hok))
      rcases hev hnobody with ⟨h, -, -⟩ | @⟨a, -, hasked, hnone⟩
      · exact hlocal h
      · exact hcon a hasked ((m.canConsult_iff w p key a).2 (Or.inr hnone))
    · rintro (⟨h, -⟩ | ⟨-, a, hasked, hcan⟩) hfail
      · exact absurd h hlocal
      · rcases (m.canConsult_iff w p key a).1 hcan with hok | hnone
        · exact absurd hok (hfail a hasked)
        · exact .replica hlocal hasked hnone

/-- The three nodes with one copy of each key. -/
def singleCopies : Cluster := { threeNodes with replicationFactor := 1 }

/-- Node `"a"` cannot reach `"c"`, which keeps the only copy of `"k"`, and answers NOT_FOUND. -/
theorem notFound_without_evidence :
    let m := singleCopies.replication [97]
    let w := unreachablePeers (singleCopies.manager [97])
    m.replicationFactor = 1 ∧ ((m.handleGet [107]).exec w.env (0, freshProcess)).1.status = .notFound ∧
      ¬ m.Evidence w freshProcess [107] := by
  intro m w
  have hprimary : singleCopies.primary [107] = [99] := threeNodes_primary
  have howner : m.ring.getNode [107] = [99] := by
    rw [← hprimary, Cluster.replication_ring]
    rfl
  have hself : m.selfNode.id = [97] := Cluster.replication_selfNode (by decide)
  have hother : m.ring.getNode [107] ≠ m.selfId := by
    rw [howner, Cluster.replication_selfId]
    decide
  have hids : m.ring.getNodes [107] m.replicationFactor = [[99]] := by
    have hreps : singleCopies.replicas [107] = [[99]] := by
      rw [Cluster.replicas_of_one rfl, hprimary]
    rw [← hreps, Cluster.replication_ring]
    rfl
  -- the only replica that is asked is `"c"`
  have hunavailable : ∀ a ∈ m.asked w [107], (m.answerOf w freshProcess [107] a).status = .nodeUnavailable := by
    rintro ⟨node, t⟩ ha
    have hmem : node ∈ w.live 0 (m.ring.getNodes [107] m.replicationFactor) := List.fst_mem_of_mem_zipIdx ha
    have hid : node.id = [99] := by
      have hsub := (w.live_sublist 0 (m.ring.getNodes [107] m.replicationFactor)).subset (List.mem_map_of_mem hmem)
      rw [hids] at hsub
      exact List.mem_singleton.1 hsub
    unfold ReplicationManager.answerOf
    rw [if_neg (by rw [hid, hself]; decide)]
    rfl
  refine ⟨rfl, ?_, ?_⟩
  · rw [m.handleGet_notFound_iff w hother]
    intro a ha hok
    rw [hunavailable a ha] at hok
    cases hok
  · rintro (⟨hlocal, -, -⟩ | @⟨a, -, hasked, hnone⟩)
    · exact hother hlocal
    · rw [hunavailable a hasked] at hnone
      cases hnone

end KvStore
