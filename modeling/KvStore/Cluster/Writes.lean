/-
Writes in a healthy cluster. The handler that coordinates a write also receives its forwarded
copies, and coordinates each of them again: with two replicas or more every write is forwarded
forever. With one replica the owner runs the operation on its own store and every other node relays
its verdict. `write_iff`: writes finish exactly with replication factor 1.
-/
import KvStore.Cluster.Healthy

namespace KvStore

open Bytes Program Protocol Updates

/-- The processes after the operation `f` on the store of one node. -/
def NetState.applyAt (s : NetState) (id : NodeId) (f : KVStore → Response × KVStore) : NodeId → Process :=
  Function.update s.nodes id { s.nodes id with store := (f (s.nodes id).store).2 }

/-- The handler coordinates `req` by running `op` at the replicas, which does `f` to a store. -/
structure Coordinated (req : Request) (op : ClusterHandler Response) (accepted : Response → Bool)
    (f : KVStore → Response × KVStore) : Prop where
  handler : ∀ m : ReplicationManager, m.clusterHandler req = m.coordinate op accepted req
  effect : ∀ (net : Network) (self : NodeId) (s : NetState), Finishes (net.chain self) op s fun resp s' =>
    resp = (f (s.nodes self).store).1 ∧ s'.nodes = s.applyAt self f

theorem coordinated_put (key : Key) (value : Value) :
    Coordinated ⟨.put, key, value⟩ (localPut key value) (fun resp => resp.status = .ok) (·.put key value) where
  handler _ := rfl
  effect _ _ _ := Network.finishes_store (.put key value) ⟨rfl, rfl⟩

theorem coordinated_delete (key : Key) :
    Coordinated ⟨.delete, key, []⟩ (localDel key) ReplicationManager.acknowledges (·.del key) where
  handler _ := rfl
  effect _ _ _ := Network.finishes_store (.del key) ⟨rfl, rfl⟩

namespace Network

open ReplicationManager

section Coordinated

variable {net : Network} {self : NodeId} {s : NetState} {req : Request} {op : ClusterHandler Response}
  {accepted : Response → Bool} {f : KVStore → Response × KVStore}

/-! ## The local part -/

theorem finishes_localAcks_replica (hw : Coordinated req op accepted f) (hself : self ∈ net.cluster.ids)
    {nodes : List NodeInfo} (h : self ∈ nodes.map (·.id)) :
    Finishes (net.chain self) ((net.cluster.replication self).localAcks op accepted nodes) s fun acks s' =>
      acks = (if accepted (f (s.nodes self).store).1 then 1 else 0) ∧ s'.nodes = s.applyAt self f := by
  have hany : nodes.any (·.id = (net.cluster.replication self).selfNode.id) = true := by
    rw [Cluster.replication_selfNode hself]
    simpa using h
  unfold localAcks
  rw [if_pos hany]
  refine (hw.effect net self s).bind ?_
  rintro resp s' ⟨rfl, hs'⟩
  exact .ret ⟨rfl, hs'⟩

theorem finishes_localAcks_other (hself : self ∈ net.cluster.ids) {nodes : List NodeInfo}
    (h : self ∉ nodes.map (·.id)) :
    Finishes (net.chain self) ((net.cluster.replication self).localAcks op accepted nodes) s fun acks s' =>
      acks = 0 ∧ s'.nodes = s.nodes := by
  have hany : ¬ nodes.any (·.id = (net.cluster.replication self).selfNode.id) = true := by
    rw [Cluster.replication_selfNode hself]
    simpa using h
  unfold localAcks
  rw [if_neg hany]
  exact .ret ⟨rfl, rfl⟩

/-! ## Two replicas or more -/

/-- The loop over the replicas hangs at the first one that is another node. -/
theorem stuckAt_replicateToNodes (hself : self ∈ net.cluster.ids) (hfit : req.FitsFrame) {fuel : Nat} {s : NetState} :
    ∀ {nodes : List NodeInfo}, (∃ node ∈ nodes, node.id ≠ self) →
      (∀ node ∈ nodes, net.serve fuel node.id req s = none) →
      StuckAt (net.chain self) fuel ((net.cluster.replication self).replicateToNodes req nodes) s
  | [], h, _ => by
    obtain ⟨node, hnode, -⟩ := h
    cases hnode
  | node :: nodes, h, hserve => by
    unfold replicateToNodes
    rw [Cluster.replication_selfNode hself]
    split
    · exact StuckAt.bind_left (stuckAt_forward hfit (hserve node List.mem_cons_self))
    · rename_i hid
      refine stuckAt_replicateToNodes hself hfit ?_ fun n hn => hserve n (List.mem_cons_of_mem _ hn)
      obtain ⟨n, hn, hne⟩ := h
      rcases List.mem_cons.1 hn with rfl | hn
      · exact absurd hne hid
      · exact ⟨n, hn, hne⟩

/-- With two replicas or more, every node has another one to forward the write to, and the tree of
forwarded writes never ends. -/
theorem diverges_write (hh : net.Healthy) (hw : Coordinated req op accepted f) (hfit : req.FitsFrame)
    (hlen : 2 ≤ (net.cluster.replicas req.key).length) :
    ∀ (fuel : Nat) {self : NodeId}, self ∈ net.cluster.ids → ∀ s, net.serve fuel self req s = none
  | 0, _, _, _ => rfl
  | fuel + 1, self, hself, s => by
    show StuckAt (net.chain self) fuel ((net.cluster.replication self).clusterHandler req) s
    rw [hw.handler]
    refine StuckAt.bind (finishes_getReplicaNodes hh req.key) ?_
    rintro nodes s₁ ⟨hids, -⟩
    have hlocal : Finishes (net.chain self) ((net.cluster.replication self).localAcks op accepted nodes) s₁
        fun _ _ => True := by
      by_cases hin : self ∈ nodes.map (·.id)
      · exact (finishes_localAcks_replica hw hself hin).conseq fun _ _ _ => trivial
      · exact (finishes_localAcks_other hself hin).conseq fun _ _ _ => trivial
    refine StuckAt.bind hlocal ?_
    intro acks s₂ _
    refine StuckAt.bind_left (stuckAt_replicateToNodes hself hfit ?_ ?_)
    · -- the replicas are distinct, so they are not all this node
      by_contra hall
      push Not at hall
      have hnd := net.cluster.nodup_replicas req.key
      rw [← hids] at hnd hlen
      have hone : nodes.map (·.id) = List.replicate nodes.length self := by
        refine List.eq_replicate_iff.2 ⟨by simp, fun id hid => ?_⟩
        obtain ⟨node, hnode, rfl⟩ := List.mem_map.1 hid
        exact hall node hnode
      rw [hone, List.nodup_replicate] at hnd
      rw [List.length_map] at hlen
      omega
    · -- the node asked is in the same position with less fuel
      intro node hnode
      refine diverges_write hh hw hfit hlen fuel ?_ s₂
      have hrep : node.id ∈ net.cluster.replicas req.key := hids ▸ List.mem_map.2 ⟨node, hnode, rfl⟩
      exact Cluster.mem_ids_of_replicas hrep

/-! ## One replica -/

/-- The answer of a write with one replica: OK if the store accepted it and one node is a quorum. -/
def verdict (net : Network) (accepted : Bool) : Response :=
  if net.cluster.replicationFactor / 2 + 1 ≤ (if accepted then 1 else 0) then ⟨.ok, []⟩ else ⟨.error, []⟩

/-- The owner runs the operation. -/
theorem answers_write_owner (hh : net.Healthy) (hw : Coordinated req op accepted f) {owner : NodeId}
    (howner : net.cluster.replicas req.key = [owner]) (s : NetState) :
    net.Answers owner req s fun resp s' =>
      resp = net.verdict (accepted (f (s.nodes owner).store).1) ∧ s'.nodes = s.applyAt owner f := by
  have hmem : owner ∈ net.cluster.replicas req.key := by simp [howner]
  have hself := Cluster.mem_ids_of_replicas hmem
  unfold Answers
  rw [hw.handler]
  refine (finishes_getReplicaNodes hh req.key).bind ?_
  rintro nodes s₁ ⟨hids, hs₁⟩
  rw [howner] at hids
  obtain ⟨node, rfl, hid⟩ := List.map_eq_singleton_iff.1 hids
  refine (finishes_localAcks_replica hw hself (by simp [hid])).bind ?_
  rintro acks s₂ ⟨rfl, hs₂⟩
  -- nobody else is in the list
  unfold replicateToNodes
  rw [Cluster.replication_selfNode hself, if_neg (not_not.2 hid)]
  refine .ret ⟨?_, ?_⟩
  · rw [hs₁]
    rfl
  · rw [hs₂, NetState.applyAt, hs₁]
    rfl

theorem verdict_ok_iff (hrf : 0 < net.cluster.replicationFactor) (b : Bool) :
    (net.verdict b).status = .ok ↔ b = true ∧ net.cluster.replicationFactor = 1 := by
  unfold verdict
  cases b with
  | false => simp
  | true =>
    by_cases hone : net.cluster.replicationFactor = 1
    · simp [hone]
    · have hq : ¬ net.cluster.replicationFactor / 2 + 1 ≤ 1 := by omega
      simp [hq, hone]

theorem length_verdict (b : Bool) : 5 + (net.verdict b).value.length < 2 ^ 32 := by
  unfold verdict
  split_ifs <;> norm_num

/-- To relay an acknowledged write is to acknowledge it. -/
theorem verdict_relay (b : Bool) : net.verdict (acknowledges (net.verdict b)) = net.verdict b := by
  unfold verdict
  cases b with
  | false => simp [acknowledges]
  | true =>
    by_cases hq : net.cluster.replicationFactor / 2 + 1 ≤ 1
    · simp [hq, acknowledges]
    · simp [hq, acknowledges]

/-- Any other node forwards to the owner. -/
theorem finishes_replicate_owner (hh : net.Healthy) (hw : Coordinated req op accepted f) (hfit : req.FitsFrame)
    {node : NodeInfo} (howner : net.cluster.replicas req.key = [node.id]) (hself : self ∈ net.cluster.ids)
    (hne : node.id ≠ self) : Finishes (net.chain self) ((net.cluster.replication self).replicateToNodes req [node]) s
      fun acks s' => acks = (if acknowledges (net.verdict (accepted (f (s.nodes node.id).store).1)) then 1 else 0) ∧
        s'.nodes = s.applyAt node.id f := by
  unfold replicateToNodes
  rw [Cluster.replication_selfNode hself, if_pos hne]
  have hforward : Finishes (net.chain self) (forwardRequest node req) s fun resp s' =>
      resp = net.verdict (accepted (f (s.nodes node.id).store).1) ∧ s'.nodes = s.applyAt node.id f := by
    refine finishes_forward hfit ((answers_write_owner hh hw howner s).conseq ?_)
    rintro resp s' ⟨rfl, hs'⟩
    exact ⟨length_verdict _, rfl, hs'⟩
  refine hforward.bind ?_
  rintro resp s' ⟨rfl, hs'⟩
  exact .ret ⟨rfl, hs'⟩

/-- A write with one replica, at any node: the owner's operation, and its verdict. -/
theorem answers_write_single (hh : net.Healthy) (hw : Coordinated req op accepted f) (hfit : req.FitsFrame)
    {owner : NodeId} (howner : net.cluster.replicas req.key = [owner]) (hself : self ∈ net.cluster.ids)
    (s : NetState) :
    net.Answers self req s fun resp s' =>
      resp = net.verdict (accepted (f (s.nodes owner).store).1) ∧ s'.nodes = s.applyAt owner f := by
  by_cases hown : owner = self
  · rw [← hown]
    exact answers_write_owner hh hw howner s
  · unfold Answers
    rw [hw.handler]
    refine (finishes_getReplicaNodes hh req.key).bind ?_
    rintro nodes s₁ ⟨hids, hs₁⟩
    rw [howner] at hids
    obtain ⟨node, rfl, rfl⟩ := List.map_eq_singleton_iff.1 hids
    refine (finishes_localAcks_other hself (by simpa using fun e => hown e.symm)).bind ?_
    rintro acks s₂ ⟨rfl, hs₂⟩
    refine (finishes_replicate_owner hh hw hfit howner hself hown).bind ?_
    rintro acks s₃ ⟨rfl, hs₃⟩
    have hs₂ := hs₂.trans hs₁
    refine .ret ⟨?_, ?_⟩
    · rw [Nat.zero_add, hs₂]
      exact verdict_relay _
    · rw [hs₃, NetState.applyAt, hs₂]
      rfl

end Coordinated

end Network

/-! ## When writes finish -/

/-- A write at `self` finishes, is answered OK, and leaves every replica of the key with the new
value, or without the key if it is a DELETE. -/
def WriteFinishes (net : Network) (self : NodeId) (req : Request) (s : NetState) : Prop :=
  net.Answers self req s fun resp s' => resp.status = .ok ∧
    ∀ id ∈ net.cluster.replicas req.key, (s'.nodes id).store.data.lookup req.key =
      if req.command = .put then some req.value else none

section Finish

variable {net : Network} {self : NodeId} {s : NetState} {req : Request} {op : ClusterHandler Response}
  {accepted : Response → Bool} {f : KVStore → Response × KVStore}

/-- A write that every store accepts finishes with replication factor 1 and with no other. -/
theorem write_iff_of_coordinated (hh : net.Healthy) (hrf : 0 < net.cluster.replicationFactor)
    (hself : self ∈ net.cluster.ids) (hw : Coordinated req op accepted f) (hfit : req.FitsFrame)
    (hacc : ∀ store, accepted (f store).1 = true)
    (hdone : ∀ store, (f store).2.data.lookup req.key = if req.command = .put then some req.value else none) :
    WriteFinishes net self req s ↔ net.cluster.replicationFactor = 1 := by
  obtain ⟨others, hreps⟩ := Cluster.replicas_eq_cons hrf req.key
  constructor
  · intro hfin
    cases others with
    | nil =>
      -- one replica only: its acknowledgement is all there is, so the quorum is one node
      obtain ⟨resp, s', ⟨rfl, -⟩, hok, -⟩ := (Network.answers_write_single hh hw hfit hreps hself s).and hfin
      exact ((Network.verdict_ok_iff hrf _).1 hok).2
    | cons r rest =>
      have hlen : 2 ≤ (net.cluster.replicas req.key).length := by simp [hreps]
      have hdiv : net.Diverges self req s := fun fuel => Network.diverges_write hh hw hfit hlen fuel hself s
      exact absurd hfin hdiv.not_answers
  · intro hone
    have hreps := Cluster.replicas_of_one hone req.key
    refine (Network.answers_write_single hh hw hfit hreps hself s).conseq ?_
    rintro resp s' ⟨rfl, hs'⟩
    constructor
    · exact (Network.verdict_ok_iff hrf _).2 ⟨hacc _, hone⟩
    · intro id hid
      rw [hreps, List.mem_singleton] at hid
      rw [hs', hid, NetState.applyAt, Function.update_self]
      exact hdone _

end Finish

/-- Writes in a healthy cluster: a PUT within the limits or a DELETE finishes, with the answer OK
and its effect at every replica, exactly if the replication factor is 1. -/
theorem write_iff {net : Network} (hh : net.Healthy) (hrf : 0 < net.cluster.replicationFactor) {self : NodeId}
    (hself : self ∈ net.cluster.ids) {req : Request} (hwrite : req.command = .put ∨ req.command = .delete)
    (ha : KVStore.Accepts req.key req.value) (s : NetState) :
    WriteFinishes net self req s ↔ net.cluster.replicationFactor = 1 := by
  obtain ⟨command, key, value⟩ := req
  have hkey : key.length ≤ 256 := ha.1
  have hvalue : value.length ≤ 65536 := ha.2
  rcases hwrite with h | h
  · simp only at h
    subst h
    refine write_iff_of_coordinated hh hrf hself (coordinated_put key value) ?_ ?_ ?_
    · show 9 + key.length + value.length < 2 ^ 32
      omega
    · intro store
      simp [KVStore.put_ok ha]
    · intro store
      simp [KVStore.put_ok ha, lookup_write]
  · simp only at h
    subst h
    -- the value of a DELETE is not looked at
    change WriteFinishes net self ⟨.delete, key, []⟩ s ↔ _
    refine write_iff_of_coordinated hh hrf hself (coordinated_delete key) ?_ ?_ ?_
    · show 9 + key.length + 0 < 2 ^ 32
      omega
    · intro store
      simpa [ReplicationManager.acknowledges] using store.del_status key
    · intro store
      simp [KVStore.del_data, lookup_write]

theorem write_iff_oneReplica :
    WriteFinishes (allUp { threeNodes with replicationFactor := 1 }) [97] ⟨.put, [107], [118]⟩ emptyStores :=
  (write_iff (allUp_healthy { threeNodes with replicationFactor := 1 }) (by decide) (by decide) (Or.inl rfl)
    (by decide) emptyStores).2 rfl

/-- A PUT of `"k"` at `"a"` is forwarded forever: `"a"` sends it to `"c"`, which sends it back. -/
theorem put_hangs : (allUp threeNodes).Diverges [97] ⟨.put, [107], [118]⟩ emptyStores ∧
    ¬ WriteFinishes (allUp threeNodes) [97] ⟨.put, [107], [118]⟩ emptyStores := by
  have hlen : 2 ≤ (threeNodes.replicas [107]).length := by
    rw [threeNodes_replicas]
    decide
  have hdiv : (allUp threeNodes).Diverges [97] ⟨.put, [107], [118]⟩ emptyStores := fun fuel =>
    Network.diverges_write (allUp_healthy threeNodes) (coordinated_put [107] [118]) (by decide) hlen fuel
      (by decide) _
  exact ⟨hdiv, hdiv.not_answers⟩

end KvStore
