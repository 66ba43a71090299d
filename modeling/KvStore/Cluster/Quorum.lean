/-
Quorums. Whatever the views of the coordinators and the answers of their peers, a write that is
answered OK was acknowledged by a majority of the first nodes of the key's preference list: the
counter of the handler counts each node at most once. So any two such writes of a key have a node
in common.
-/
import KvStore.Cluster.Coordinator

namespace KvStore

open Bytes Program

namespace ReplicationManager

variable (m : ReplicationManager) (w : Surroundings)

/-! ## Acknowledgements -/

/-- The node that acknowledges a write with the answer to a call: this node if its own store
accepts the operation, a peer if its answer is OK or NOT_FOUND. -/
def ackOf : Sigma ClusterCall.Res → Option NodeId
  | ⟨.store (.put _ _), resp⟩ => if resp.status = .ok then some m.selfNode.id else none
  | ⟨.store (.del _), resp⟩ => if acknowledges resp then some m.selfNode.id else none
  | ⟨.forward node _, resp⟩ => if acknowledges resp then some node.id else none
  | _ => none

/-- The nodes that acknowledge during the execution of a program. -/
def acks {α : Type} (p : ClusterHandler α) (s : Nat × Process) : List NodeId := (p.trace w.env s).filterMap m.ackOf

theorem acks_bind {α β : Type} (p : ClusterHandler α) (f : α → ClusterHandler β) (s : Nat × Process) :
    m.acks w (p >>= f) s = m.acks w p s ++ m.acks w (f (p.exec w.env s).1) (p.exec w.env s).2 := by
  unfold acks
  rw [Prog.trace_bind, List.filterMap_append]

theorem acks_liveNodes : ∀ (ids : List NodeId) (s : Nat × Process), m.acks w (liveNodes ids) s = []
  | [], _ => rfl
  | id :: ids, (t, p) => by
    unfold liveNodes
    rw [acks_bind, acks_bind, acks_liveNodes ids]
    rfl

theorem acks_forward (node : NodeInfo) (req : Request) (t : Nat) (p : Process) :
    m.acks w (forwardRequest node req) (t, p) = if acknowledges (w.answer t node req) then [node.id] else [] := by
  unfold acks forwardRequest
  simp only [Prog.trace_call, Prog.trace_ret, Surroundings.env, List.filterMap_cons, ackOf, List.filterMap_nil]
  split <;> simp_all

/-- The loop over the other replicas counts its acknowledgements, one for each node at most. -/
theorem acks_replicateToNodes (req : Request) : ∀ (nodes : List NodeInfo) (s : Nat × Process),
    ((m.replicateToNodes req nodes).exec w.env s).1 = (m.acks w (m.replicateToNodes req nodes) s).length ∧
      (m.acks w (m.replicateToNodes req nodes) s).Sublist (nodes.map (·.id)) ∧
      m.selfNode.id ∉ m.acks w (m.replicateToNodes req nodes) s
  | [], _ => ⟨rfl, .slnil, List.not_mem_nil⟩
  | node :: nodes, (t, p) => by
    unfold replicateToNodes
    split
    · -- another node is asked; its answer decides whether it joins the acknowledgements of the rest
      rename_i hne
      obtain ⟨hlen, hsub, hself⟩ := acks_replicateToNodes req nodes (t + 1, p)
      have hacks : m.acks w (forwardRequest node req >>= fun resp => m.replicateToNodes req nodes >>= fun acks =>
          pure ((if acknowledges resp then 1 else 0) + acks)) (t, p) =
          (if acknowledges (w.answer t node req) then [node.id] else []) ++
            m.acks w (m.replicateToNodes req nodes) (t + 1, p) := by
        rw [acks_bind, acks_bind, acks_forward]
        exact congrArg _ (List.append_nil _)
      rw [hacks, Prog.exec_bind, Prog.exec_bind]
      show (if acknowledges (w.answer t node req) then 1 else 0) +
        ((m.replicateToNodes req nodes).exec w.env (t + 1, p)).1 = _ ∧ _
      rw [hlen]
      split
      · refine ⟨by simp [Nat.add_comm], hsub.cons_cons _, ?_⟩
        simp [hself, Ne.symm hne]
      · exact ⟨by simp, hsub.cons _, hself⟩
    · -- the node itself is skipped
      obtain ⟨hlen, hsub, hself⟩ := acks_replicateToNodes req nodes (t, p)
      exact ⟨hlen, hsub.cons _, hself⟩

/-- The local operation is counted if the store accepts it, and the node is then a live replica. -/
theorem acks_localAcks {op : ClusterHandler Response} {accepted : Response → Bool}
    (hop : ∀ s, m.acks w op s = if accepted (op.exec w.env s).1 then [m.selfNode.id] else []) (nodes : List NodeInfo)
    (s : Nat × Process) :
    ((m.localAcks op accepted nodes).exec w.env s).1 = (m.acks w (m.localAcks op accepted nodes) s).length ∧
      (m.acks w (m.localAcks op accepted nodes) s = [] ∨
        m.acks w (m.localAcks op accepted nodes) s = [m.selfNode.id] ∧ m.selfNode.id ∈ nodes.map (·.id)) := by
  unfold localAcks
  split
  · rename_i hany
    have hmem : m.selfNode.id ∈ nodes.map (·.id) := by simpa using hany
    have hacks : m.acks w (op >>= fun resp => pure (if accepted resp then 1 else 0)) s =
        if accepted (op.exec w.env s).1 then [m.selfNode.id] else [] := by
      rw [acks_bind, hop]
      exact List.append_nil _
    rw [hacks, Prog.exec_bind]
    show (if accepted (op.exec w.env s).1 then 1 else 0) = _ ∧ _
    split
    · exact ⟨rfl, Or.inr ⟨rfl, hmem⟩⟩
    · exact ⟨rfl, Or.inl rfl⟩
  · exact ⟨rfl, Or.inl rfl⟩

/-- A coordinated write is answered OK if a quorum of distinct replicas acknowledges it. -/
theorem acks_coordinate {op : ClusterHandler Response} {accepted : Response → Bool}
    (hop : ∀ s, m.acks w op s = if accepted (op.exec w.env s).1 then [m.selfNode.id] else []) (req : Request)
    (p : Process) :
    (m.acks w (m.coordinate op accepted req) (0, p)).Nodup ∧
      (∀ id ∈ m.acks w (m.coordinate op accepted req) (0, p), id ∈ m.ring.getNodes req.key m.replicationFactor) ∧
      (((m.coordinate op accepted req).exec w.env (0, p)).1.status = .ok ↔
        m.writeQuorum ≤ (m.acks w (m.coordinate op accepted req) (0, p)).length) := by
  have hlive := w.live_sublist 0 (m.ring.getNodes req.key m.replicationFactor)
  have hnodup := (m.ring.nodup_getNodes req.key m.replicationFactor).sublist hlive
  generalize hnodes : w.live 0 (m.ring.getNodes req.key m.replicationFactor) = nodes at hlive hnodup
  generalize ht : (m.ring.getNodes req.key m.replicationFactor).length = t
  obtain ⟨hlen₁, hlocal⟩ := m.acks_localAcks w hop nodes (t, p)
  generalize hs : ((m.localAcks op accepted nodes).exec w.env (t, p)).2 = s
  obtain ⟨hlen₂, hsub, hself⟩ := m.acks_replicateToNodes w req nodes s
  have hacks : m.acks w (m.coordinate op accepted req) (0, p) =
      m.acks w (m.localAcks op accepted nodes) (t, p) ++ m.acks w (m.replicateToNodes req nodes) s := by
    unfold coordinate getReplicaNodes
    rw [acks_bind, acks_liveNodes, exec_liveNodes, acks_bind, acks_bind, hnodes, Nat.zero_add, ht, hs,
      List.nil_append]
    exact congrArg (m.acks w (m.localAcks op accepted nodes) (t, p) ++ ·) (List.append_nil _)
  have hresp : ((m.coordinate op accepted req).exec w.env (0, p)).1 =
      if m.writeQuorum ≤ ((m.localAcks op accepted nodes).exec w.env (t, p)).1 +
        ((m.replicateToNodes req nodes).exec w.env s).1 then ⟨.ok, []⟩ else ⟨.error, []⟩ := by
    unfold coordinate getReplicaNodes
    rw [Prog.exec_bind, exec_liveNodes, Prog.exec_bind, Prog.exec_bind, hnodes, Nat.zero_add, ht, hs]
    rfl
  rw [hacks, hresp, hlen₁, hlen₂, List.length_append]
  refine ⟨?_, ?_, ?_⟩
  · -- the node itself is counted once, since the loop skips it
    rcases hlocal with hnil | ⟨hone, -⟩
    · rw [hnil]
      exact hnodup.sublist hsub
    · rw [hone]
      exact List.nodup_cons.2 ⟨hself, hnodup.sublist hsub⟩
  · intro id hid
    apply hlive.subset
    rcases List.mem_append.1 hid with h | h
    · rcases hlocal with hnil | ⟨hone, hmem⟩
      · rw [hnil] at h
        cases h
      · rw [hone, List.mem_singleton] at h
        rw [h]
        exact hmem
    · exact hsub.subset h
  · split <;> simp_all

/-- An OK answer means a quorum among the first nodes of the preference list. -/
theorem quorum_of_ok {op : ClusterHandler Response} {accepted : Response → Bool}
    (hop : ∀ s, m.acks w op s = if accepted (op.exec w.env s).1 then [m.selfNode.id] else []) {req : Request}
    {p : Process} (hok : ((m.coordinate op accepted req).exec w.env (0, p)).1.status = .ok) :
    m.writeQuorum ≤ (m.acks w (m.coordinate op accepted req) (0, p)).toFinset.card ∧
      (m.acks w (m.coordinate op accepted req) (0, p)).toFinset ⊆
        ((m.ring.preferenceList req.key).take m.replicationFactor).toFinset := by
  obtain ⟨hnodup, hmem, hquorum⟩ := m.acks_coordinate w hop req p
  rw [List.toFinset_card_of_nodup hnodup]
  refine ⟨hquorum.1 hok, ?_⟩
  intro id hid
  rw [List.mem_toFinset] at hid ⊢
  rw [← ConsistentHashRing.getNodes_eq]
  exact hmem id hid

theorem acks_localPut (key : Key) (value : Value) (s : Nat × Process) : m.acks w (localPut key value) s =
    if decide (((localPut key value).exec w.env s).1.status = .ok) then [m.selfNode.id] else [] := by
  unfold acks localPut
  simp only [Prog.trace_call, Prog.trace_ret, Prog.exec_call, Prog.exec_ret, List.filterMap_cons, ackOf,
    List.filterMap_nil]
  split <;> simp_all

theorem acks_localDel (key : Key) (s : Nat × Process) : m.acks w (localDel key) s =
    if acknowledges ((localDel key).exec w.env s).1 then [m.selfNode.id] else [] := by
  unfold acks localDel
  simp only [Prog.trace_call, Prog.trace_ret, Prog.exec_call, Prog.exec_ret, List.filterMap_cons, ackOf,
    List.filterMap_nil]
  split <;> simp_all

end ReplicationManager

/-! ## Two operations -/

/-- A request that a node handles: its manager, what surrounds it, its process. -/
structure Operation where
  cluster : ClusterManager
  surroundings : Surroundings
  process : Process
  req : Request

namespace Operation

/-- The node's `ReplicationManager`, with the default write quorum. -/
def manager (o : Operation) (replicationFactor : Nat) : ReplicationManager := .new o.cluster replicationFactor

def response (o : Operation) (replicationFactor : Nat) : Response :=
  (((o.manager replicationFactor).clusterHandler o.req).exec o.surroundings.env (0, o.process)).1

/-- The nodes that acknowledged the operation. -/
def ackers (o : Operation) (replicationFactor : Nat) : Finset NodeId :=
  ((o.manager replicationFactor).acks o.surroundings ((o.manager replicationFactor).clusterHandler o.req)
    (0, o.process)).toFinset

/-- A PUT or DELETE answered OK was acknowledged by a majority of the first nodes of the preference
list. -/
theorem majority {o : Operation} {rf : Nat} (hwrite : o.req.command = .put ∨ o.req.command = .delete)
    (hok : (o.response rf).status = .ok) :
    rf / 2 + 1 ≤ (o.ackers rf).card ∧
      o.ackers rf ⊆ ((o.cluster.ring.preferenceList o.req.key).take rf).toFinset := by
  obtain ⟨cluster, w, p, ⟨command, key, value⟩⟩ := o
  rcases hwrite with h | h
  · simp only at h
    subst h
    exact ReplicationManager.quorum_of_ok _ w (fun s => ReplicationManager.acks_localPut _ w key value s) hok
  · simp only at h
    subst h
    exact ReplicationManager.quorum_of_ok _ w (fun s => ReplicationManager.acks_localDel _ w key s) hok

end Operation

/-- Any two writes of one key that were answered OK, at coordinators with the same ring and the
same replication factor, were each acknowledged by a majority of the first nodes of the key's
preference list, and some node acknowledged both. -/
theorem quorums_intersect (rf : Nat) {a b : Operation} (hring : a.cluster.ring = b.cluster.ring)
    (hkey : a.req.key = b.req.key) (ha : a.req.command = .put ∨ a.req.command = .delete)
    (hb : b.req.command = .put ∨ b.req.command = .delete) (hoka : (a.response rf).status = .ok)
    (hokb : (b.response rf).status = .ok) :
    (∀ o ∈ [a, b], rf / 2 + 1 ≤ (o.ackers rf).card ∧
      o.ackers rf ⊆ ((a.cluster.ring.preferenceList a.req.key).take rf).toFinset) ∧
      ∃ id, id ∈ a.ackers rf ∧ id ∈ b.ackers rf := by
  obtain ⟨hcarda, hsuba⟩ := Operation.majority ha hoka
  obtain ⟨hcardb, hsubb⟩ := Operation.majority hb hokb
  rw [← hring, ← hkey] at hsubb
  constructor
  · intro o ho
    rcases List.mem_pair.1 ho with rfl | rfl
    · exact ⟨hcarda, hsuba⟩
    · exact ⟨hcardb, hsubb⟩
  · -- two majorities of at most `rf` nodes overlap
    have hcard : ((a.cluster.ring.preferenceList a.req.key).take rf).toFinset.card <
        (a.ackers rf).card + (b.ackers rf).card := by
      have hle := List.toFinset_card_le ((a.cluster.ring.preferenceList a.req.key).take rf)
      rw [List.length_take] at hle
      omega
    obtain ⟨id, hid⟩ := Finset.inter_nonempty_of_card_lt_card_add_card hsuba hsubb hcard
    exact ⟨id, Finset.mem_inter.1 hid⟩

/-- Node `self` of the three nodes `"a"`, `"b"`, `"c"`, with one virtual node each. -/
def smallManager (self : NodeId) : ClusterManager :=
  ClusterManager.initializeRing
    { ClusterManager.loadConfig self [⟨[97], [104], 1⟩, ⟨[98], [104], 2⟩, ⟨[99], [104], 3⟩] with ring := .new 1 }

/-- A PUT at `"a"`, which sees `"c"` DOWN. -/
def putAtA : Operation where
  cluster := smallManager [97]
  surroundings := .ofViews (smallManager [97]) (fun _ id => if id = [99] then .down else .up) fun _ _ _ => ⟨.ok, []⟩
  process := ⟨KVStore.empty, Disk.empty⟩
  req := ⟨.put, [107], [118]⟩

/-- A DELETE at `"b"`, where `"a"` does not answer. -/
def deleteAtB : Operation where
  cluster := smallManager [98]
  surroundings := .ofViews (smallManager [98]) (fun _ _ => .up) fun _ node _ =>
    if node.id = [97] then ⟨.nodeUnavailable, []⟩ else ⟨.notFound, []⟩
  process := ⟨KVStore.empty, Disk.empty⟩
  req := ⟨.delete, [107], []⟩

theorem quorums_intersect_putDelete : ∃ id, id ∈ putAtA.ackers 3 ∧ id ∈ deleteAtB.ackers 3 :=
  (quorums_intersect 3 (show putAtA.cluster.ring = deleteAtB.cluster.ring from rfl) rfl (Or.inl rfl) (Or.inr rfl)
    (by decide +kernel) (by decide +kernel)).2

end KvStore
