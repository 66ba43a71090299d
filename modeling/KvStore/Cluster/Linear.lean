/-
The clients of a sharded cluster. With replication factor 1 every key has one owner. Requests come in
at any nodes, the tasks that handle them interleave in any order, connections fail before or after a
forwarded request has arrived, and the failure detectors may be wrong about any node at any time.
Still the OK answers are linearizable: every one of them is the answer of one map that is asked one
request after the other. A request that was answered otherwise may take effect late or never, as one
that was not answered at all.
-/
import KvStore.Cluster.Sharding
import KvStore.Cluster.System
import KvStore.Lib.Linearizable

namespace KvStore

open Bytes Program Protocol Machine Updates Linear

/-! ## The machine and its clients -/

/-- The system, the client call each task works for, and what the clients see. A call has the number
of the task that handles it at its node. -/
structure Observed where
  system : System
  roots : List Nat
  history : List (Event Request Response)

inductive ObservedEvent
  | run (e : SystemEvent)
  /-- a client gets the answer OK -/
  | reply (i : Nat)

namespace Observed

def start : Observed := ⟨.start, [], []⟩

def step (c : Cluster) (o : Observed) : ObservedEvent → Option Observed
  | .run e =>
    (o.system.step c e).map fun s =>
      match e with
      | .client _ req => ⟨s, o.roots ++ [o.system.tasks.length], o.history ++ [.invoke o.system.tasks.length req]⟩
      | .deliver i => ⟨s, o.roots ++ o.roots[i]?.toList, o.history⟩
      | _ => { o with system := s }
  | .reply i =>
    match o.system.tasks[i]? with
    | some ⟨_, _, .ret resp⟩ =>
      if o.roots[i]? = some i ∧ resp.status = .ok ∧ .respond i resp ∉ o.history then
        some { o with history := o.history ++ [.respond i resp] }
      else none
    | _ => none

/-- Everything a step can do. -/
inductive Takes (c : Cluster) (o : Observed) : Observed → Prop
  | arrive {id : NodeId} {req : Request} (hid : id ∈ c.ids) (hfit : req.FitsFrame) :
    Takes c o
      { system := { o.system with
          tasks := o.system.tasks ++ [⟨id, none, (c.replication id).clusterHandler req⟩]
          sent := o.system.sent ++ [req] }
        roots := o.roots ++ [o.system.tasks.length]
        history := o.history ++ [.invoke o.system.tasks.length req] }
  | store {i : Nat} {t : Task} {op : StoreCall} {next : op.Res → ClusterHandler Response}
    (hi : o.system.tasks[i]? = some t) (hp : t.prog = .call (.store op) next) :
    Takes c o { o with
      system := (o.system.operate t.node op).resume i t (next (op.exec (o.system.nodes t.node)).1) }
  | lookUp {i : Nat} {t : Task} {id : NodeId} {next : Option NodeInfo → ClusterHandler Response}
    {node : Option NodeInfo} (hi : o.system.tasks[i]? = some t) (hp : t.prog = .call (.getNode id) next)
    (hnode : ∀ n, node = some n → n.id = id) :
    Takes c o { o with system := o.system.resume i t (next node) }
  | deliver {i : Nat} {t : Task} {node : NodeInfo} {req req' : Request} {next : Response → ClusterHandler Response}
    (hi : o.system.tasks[i]? = some t) (hw : t.waitsFor = none) (hp : t.prog = .call (.forward node req) next)
    (hreq : receiveRequest (writeFrame (serializeRequest req)) = some req') :
    Takes c o
      { system := { o.system with
          tasks := o.system.tasks.set i { t with waitsFor := some o.system.tasks.length } ++
            [⟨node.id, none, (c.replication node.id).clusterHandler req'⟩] }
        roots := o.roots ++ o.roots[i]?.toList
        history := o.history }
  | respond {i j : Nat} {t callee : Task} {node : NodeInfo} {req : Request} {resp : Response}
    {next : Response → ClusterHandler Response} (hi : o.system.tasks[i]? = some t) (hw : t.waitsFor = some j)
    (hj : o.system.tasks[j]? = some callee) (hp : t.prog = .call (.forward node req) next)
    (hresp : callee.prog = .ret resp) :
    Takes c o { o with
      system := o.system.resume i t (next (receiveResponse (writeFrame (serializeResponse resp)))) }
  | fail {i : Nat} {t : Task} {node : NodeInfo} {req : Request} {next : Response → ClusterHandler Response}
    (hi : o.system.tasks[i]? = some t) (hp : t.prog = .call (.forward node req) next) :
    Takes c o { o with system := o.system.resume i t (next ⟨.nodeUnavailable, []⟩) }
  | views (views : NodeId → NodeId → NodeStatus) : Takes c o { o with system := { o.system with views := views } }
  | reply {i : Nat} {t : Task} {resp : Response} (hi : o.system.tasks[i]? = some t) (hp : t.prog = .ret resp)
    (hroot : o.roots[i]? = some i) (hok : resp.status = .ok) :
    Takes c o { o with history := o.history ++ [.respond i resp] }

theorem step_takes {c : Cluster} {o o' : Observed} {e : ObservedEvent} (h : o.step c e = some o') : Takes c o o' := by
  cases e with
  | run e =>
    obtain ⟨s, hs, rfl⟩ := Option.map_eq_some_iff.1 h
    cases e with
    | client id req =>
      obtain ⟨⟨hid, hfit⟩, heq⟩ := Option.ite_none_right_eq_some.1 hs
      cases heq
      exact .arrive hid hfit
    | step i =>
      obtain ⟨t, hi, hs⟩ := Option.bind_eq_some_iff.1 hs
      split at hs
      · rename_i op next hp
        cases hs
        exact .store hi hp
      · rename_i id next hp
        cases hs
        exact .lookUp hi hp fun n hn => ClusterManager.getNode_id hn
      · cases hs
    | deliver i =>
      obtain ⟨t, hi, hs⟩ := Option.bind_eq_some_iff.1 hs
      split at hs
      · rename_i node req next hw hp
        obtain ⟨req', hreq, hs⟩ := Option.bind_eq_some_iff.1 hs
        cases hs
        exact .deliver hi hw hp hreq
      · cases hs
    | respond i =>
      obtain ⟨t, hi, hs⟩ := Option.bind_eq_some_iff.1 hs
      obtain ⟨j, hw, hs⟩ := Option.bind_eq_some_iff.1 hs
      obtain ⟨callee, hj, hs⟩ := Option.bind_eq_some_iff.1 hs
      split at hs
      · rename_i node req next resp hp hresp
        cases hs
        exact .respond hi hw hj hp hresp
      · cases hs
    | fail i =>
      obtain ⟨t, hi, hs⟩ := Option.bind_eq_some_iff.1 hs
      split at hs
      · rename_i node req next hp
        cases hs
        exact .fail hi hp
      · cases hs
    | setStatus a b status =>
      cases hs
      exact .views _
  | reply i =>
    simp only [step] at h
    split at h
    · rename_i node waits resp hi
      obtain ⟨⟨hroot, hok, -⟩, heq⟩ := Option.ite_none_right_eq_some.1 h
      cases heq
      exact .reply hi rfl hroot hok
    · cases h

end Observed

/-! ## What a task does for its call -/

namespace Sharded

/-- The sequential object. -/
def exec (req : Request) (m : Map Key Value) : Response × Map Key Value := Reference.step m req

/-- An answer on which the request is known to have taken effect. A GET may be answered NOT_FOUND because
the owner was not reached. -/
def Conclusive (req : Request) (resp : Response) : Prop :=
  resp.status = .ok ∨ resp.status = .notFound ∧ req.command ≠ .get

/-- The request in the form in which it is passed on. -/
structure Forwarded (req fwd : Request) : Prop where
  command : fwd.command = req.command
  key : fwd.key = req.key
  value : req.command = .put → fwd.value = req.value
  fits : fwd.FitsFrame

theorem Forwarded.refl {req : Request} (h : req.FitsFrame) : Forwarded req req := ⟨rfl, rfl, fun _ => rfl, h⟩

/-- The commands that touch the store. -/
def Stored (req : Request) : Prop := req.command = .put ∨ req.command = .get ∨ req.command = .delete

/-- A store operation of the owner has the effect of the request on the map, and then a conclusive answer
is the map's. -/
def Concludes (req : Request) (p p' : Process) (rest : ClusterHandler Response) : Prop :=
  ∀ m : Map Key Value, p.store.data.lookup req.key = m.lookup req.key → p.store.WithinLimits →
    ∃ resp, rest = .ret resp ∧ resp.value.length ≤ maxValueSize ∧
      (Conclusive req resp → resp = (exec req m).1) ∧ p'.store.WithinLimits ∧
      p'.store.data.lookup req.key = (exec req m).2.lookup req.key ∧
      ∀ k, k ≠ req.key → p'.store.data.lookup k = p.store.data.lookup k

/-- The answer of another node is passed on, or replaced by one that is not conclusive. -/
def Relays (req : Request) (next : Response → ClusterHandler Response) : Prop :=
  ∀ resp, ∃ resp', next resp = .ret resp' ∧
    (resp.value.length ≤ maxValueSize → resp'.value.length ≤ maxValueSize) ∧
    (Conclusive req resp' → Conclusive req resp ∧ ∀ m, resp = (exec req m).1 → resp' = resp)

/-- What is left of a handler at node `n` that has not taken its effect: it looks up nodes, then takes the
effect if it is at the owner and asks the owner if not, or gives up. -/
inductive Working (c : Cluster) (n : NodeId) (req : Request) : ClusterHandler Response → Prop
  | gives {resp : Response} : ¬ Conclusive req resp → resp.value.length ≤ maxValueSize → Working c n req (.ret resp)
  | looksUp {id : NodeId} {next : Option NodeInfo → ClusterHandler Response} :
      (∀ node : Option NodeInfo, (∀ x, node = some x → x.id = id) → Working c n req (next node)) →
      Working c n req (.call (.getNode id) next)
  | operates {op : StoreCall} {next : op.Res → ClusterHandler Response} : n = c.primary req.key →
      (∀ p, Concludes req p (op.exec p).2 (next (op.exec p).1)) → Working c n req (.call (.store op) next)
  | asks {node : NodeInfo} {fwd : Request} {next : Response → ClusterHandler Response} :
      Stored req → node.id ∈ c.ids → Forwarded req fwd → Relays req next →
      Working c n req (.call (.forward node fwd) next)

/-! ### The handlers -/

section Handlers

variable {req fwd : Request}

theorem put_concludes (hf : Forwarded req fwd) (hc : fwd.command = .put) (p : Process) :
    Concludes req p ((StoreCall.put fwd.key fwd.value).exec p).2
      (.ret (if decide ((p.store.put fwd.key fwd.value).1.status = .ok) then ⟨.ok, []⟩ else ⟨.error, []⟩)) := by
  intro m hm hlim
  have hreq : req.command = .put := hf.command ▸ hc
  rw [← hf.key] at hm ⊢
  by_cases hacc : KVStore.Accepts fwd.key fwd.value
  · have hexec : exec req m = (⟨.ok, []⟩, m.insert fwd.key fwd.value) := by
      rw [exec, Reference.step, hreq, ← hf.key, ← hf.value hreq]
      exact if_pos hacc
    rw [hexec]
    refine ⟨⟨.ok, []⟩, by simp [KVStore.put_ok hacc], Nat.zero_le _, fun _ => rfl,
      KVStore.put_withinLimits hlim _ _, ?_, ?_⟩
    · simp [StoreCall.exec, KVStore.put_ok hacc]
    · intro k hk
      simp only [StoreCall.exec, KVStore.put_ok hacc]
      exact lookup_write_ne _ (Ne.symm hk)
  · have hexec : exec req m = (⟨.error, []⟩, m) := by
      rw [exec, Reference.step, hreq, ← hf.key, ← hf.value hreq]
      exact if_neg hacc
    obtain ⟨hno, -, hst⟩ := KVStore.put_refused hacc p.store
    rw [hexec]
    refine ⟨⟨.error, []⟩, by simp [hno], Nat.zero_le _, fun _ => rfl, KVStore.put_withinLimits hlim _ _, ?_, ?_⟩
    · simp only [StoreCall.exec, hst]
      exact hm
    · intro k _
      simp only [StoreCall.exec, hst]

theorem delete_concludes (hf : Forwarded req fwd) (hc : fwd.command = .delete) (p : Process) :
    Concludes req p ((StoreCall.del fwd.key).exec p).2
      (.ret (if ReplicationManager.acknowledges (p.store.del fwd.key).1 then ⟨.ok, []⟩ else ⟨.error, []⟩)) := by
  intro m hm hlim
  have hexec : exec req m = (⟨.ok, []⟩, m.erase fwd.key) := by
    rw [exec, Reference.step, ← hf.command, hc, hf.key]
  have hack : ReplicationManager.acknowledges (p.store.del fwd.key).1 = true := by
    simpa [ReplicationManager.acknowledges] using KVStore.del_status _ fwd.key
  rw [hexec, ← hf.key, hack]
  refine ⟨⟨.ok, []⟩, rfl, Nat.zero_le _, fun _ => rfl, KVStore.del_withinLimits hlim _, ?_, ?_⟩
  · simp [StoreCall.exec, KVStore.del_data]
  · intro k hk
    simp only [StoreCall.exec, KVStore.del_data]
    exact lookup_write_ne _ (Ne.symm hk)

theorem get_concludes (hf : Forwarded req fwd) (hc : fwd.command = .get) (p : Process) :
    Concludes req p ((StoreCall.get fwd.key).exec p).2 (.ret (p.store.get fwd.key)) := by
  intro m hm hlim
  have hreq : req.command = .get := hf.command ▸ hc
  rw [hf.key]
  cases hv : m.lookup req.key with
  | none =>
    have hexec : exec req m = (⟨.notFound, []⟩, m) := by simp [exec, Reference.step, hreq, hv]
    rw [hexec, KVStore.get_none (hm.trans hv)]
    exact ⟨_, rfl, Nat.zero_le _, fun _ => rfl, hlim, hm, fun _ _ => rfl⟩
  | some v =>
    have hexec : exec req m = (⟨.ok, v⟩, m) := by simp [exec, Reference.step, hreq, hv]
    rw [hexec, KVStore.get_some (hm.trans hv)]
    exact ⟨_, rfl, (hlim _ _ (hm.trans hv)).2, fun _ => rfl, hlim, hm, fun _ _ => rfl⟩

/-- The map answers a write with OK or ERROR. -/
theorem exec_write (hreq : req.command = .put ∨ req.command = .delete) (m : Map Key Value) :
    (exec req m).1 = ⟨.ok, []⟩ ∨ (exec req m).1 = ⟨.error, []⟩ := by
  unfold exec Reference.step
  rcases hreq with hreq | hreq
  · rw [hreq]
    show (if _ then _ else _ : Response × Map Key Value).1 = _ ∨ (if _ then _ else _ : Response × Map Key Value).1 = _
    split
    · exact .inl rfl
    · exact .inr rfl
  · rw [hreq]
    exact .inl rfl

/-- A write counts what the owner answers, with OK and NOT_FOUND alike as an acknowledgement. -/
theorem write_relays (hreq : req.command = .put ∨ req.command = .delete) :
    Relays req fun resp => .ret (if ReplicationManager.acknowledges resp then ⟨.ok, []⟩ else ⟨.error, []⟩) := by
  intro resp
  by_cases hack : ReplicationManager.acknowledges resp = true
  · refine ⟨⟨.ok, []⟩, congrArg Prog.ret (if_pos hack), fun _ => Nat.zero_le _, fun _ => ⟨?_, ?_⟩⟩
    · rcases of_decide_eq_true hack with hok | hnf
      · exact .inl hok
      · refine .inr ⟨hnf, ?_⟩
        rcases hreq with hreq | hreq <;> simp [hreq]
    · rintro m rfl
      rcases exec_write hreq m with heq | heq
      · exact heq.symm
      · rw [heq] at hack
        cases hack
  · refine ⟨⟨.error, []⟩, congrArg Prog.ret (if_neg hack), fun _ => Nat.zero_le _, ?_⟩
    rintro (h | ⟨h, -⟩) <;> cases h

/-- A request has no effect on other keys. -/
theorem exec_other {m : Map Key Value} {k : Key} (hk : k ≠ req.key) : (exec req m).2.lookup k = m.lookup k := by
  unfold exec Reference.step
  cases req.command with
  | put =>
    simp only
    split
    · exact Finmap.lookup_insert_of_ne _ hk
    · rfl
  | get =>
    simp only
    split <;> rfl
  | delete => exact Finmap.lookup_erase_ne hk
  | ping => rfl
  | other b hb => rfl

/-- A GET passes on only what it has found. -/
theorem get_relays (hreq : req.command = .get) :
    Relays req fun resp => if resp.status = .ok then .ret resp else .ret ⟨.notFound, []⟩ := by
  intro resp
  by_cases hok : resp.status = .ok
  · exact ⟨resp, if_pos hok, fun h => h, fun h => ⟨h, fun _ _ => rfl⟩⟩
  · refine ⟨⟨.notFound, []⟩, if_neg hok, fun _ => Nat.zero_le _, ?_⟩
    rintro (h | ⟨-, h⟩)
    · cases h
    · exact absurd hreq h

/-- One acknowledgement makes the quorum. -/
theorem verdict_of_ack {n : Nat} {b : Bool} (hn : n = if b then 1 else 0) :
    (if 1 ≤ n then ⟨.ok, []⟩ else ⟨.error, []⟩ : Response) = if b then ⟨.ok, []⟩ else ⟨.error, []⟩ := by
  cases b <;> simp [hn]

variable {c : Cluster} {self : NodeId} (hrf : c.replicationFactor = 1) (hself : self ∈ c.ids)
include hrf

/-- One node is looked up. -/
theorem getReplicaNodes_of_one (key : Key) :
    (c.replication self).getReplicaNodes key (c.replication self).replicationFactor =
      .call (.getNode (c.primary key)) fun node => .ret ((node.filter (·.status ≠ .down)).toList ++ []) := by
  have hreps : (ringOf c.config).getNodes key (c.replication self).replicationFactor = [c.primary key] :=
    Cluster.replicas_of_one hrf key
  rw [ReplicationManager.getReplicaNodes, Cluster.replication_ring, hreps]
  rfl

include hself

/-- A write, whatever its store operation. -/
theorem working_coordinate (hf : Forwarded req fwd) (hreq : req.command = .put ∨ req.command = .delete)
    {op : StoreCall} {read : op.Res → Response} {accepted : Response → Bool}
    (hop : ∀ p, Concludes req p (op.exec p).2
      (.ret (if accepted (read (op.exec p).1) then ⟨.ok, []⟩ else ⟨.error, []⟩))) :
    Working c self req
      ((c.replication self).coordinate (.call (.store op) fun r => .ret (read r)) accepted fwd) := by
  have hquorum : (c.replication self).writeQuorum = 1 := by
    show c.replicationFactor / 2 + 1 = 1
    rw [hrf]
  have hselfId := Cluster.replication_selfNode hself
  unfold ReplicationManager.coordinate
  rw [getReplicaNodes_of_one hrf, Prog.call_bind, hquorum]
  refine .looksUp fun node hnode => ?_
  cases hn : node.filter (·.status ≠ .down) with
  | none =>
    have hnone : ¬ Conclusive req ⟨.error, []⟩ := by
      rintro (h | ⟨h, -⟩) <;> cases h
    exact .gives hnone (Nat.zero_le _)
  | some x =>
    have hx := hnode x (Option.filter_eq_some_iff.1 hn).1
    by_cases hxs : x.id = self
    · -- the owner itself
      have hlocal : (c.replication self).localAcks (.call (.store op) fun r => .ret (read r)) accepted [x] =
          .call (.store op) fun r => .ret (if accepted (read r) then 1 else 0) := by
        rw [ReplicationManager.localAcks, hselfId, if_pos (by simp [hxs])]
        rfl
      have hremote : (c.replication self).replicateToNodes fwd [x] = .ret 0 := by
        rw [ReplicationManager.replicateToNodes, hselfId, if_neg (by simp [hxs])]
        rfl
      show Working c self req ((c.replication self).localAcks _ accepted [x] >>= fun acks =>
        (c.replication self).replicateToNodes fwd [x] >>= fun more => _)
      rw [hlocal, hremote]
      refine .operates (hxs.symm.trans (hx.trans (by rw [hf.key]))) fun p => ?_
      show Concludes req p _ (.ret (if 1 ≤ (if accepted (read (op.exec p).1) then 1 else 0) + 0 then _ else _))
      rw [verdict_of_ack (Nat.add_zero _)]
      exact hop p
    · -- the owner is asked
      have hlocal : (c.replication self).localAcks (.call (.store op) fun r => .ret (read r)) accepted [x] =
          .ret 0 := by
        rw [ReplicationManager.localAcks, hselfId, if_neg (by simp [hxs])]
        rfl
      have hremote : (c.replication self).replicateToNodes fwd [x] = .call (.forward x fwd) fun resp =>
          .ret ((if ReplicationManager.acknowledges resp then 1 else 0) + 0) := by
        rw [ReplicationManager.replicateToNodes, hselfId, if_pos hxs]
        rfl
      show Working c self req ((c.replication self).localAcks _ accepted [x] >>= fun acks =>
        (c.replication self).replicateToNodes fwd [x] >>= fun more => _)
      rw [hlocal, hremote]
      have hids : x.id ∈ c.ids := by
        rw [hx]
        exact Cluster.mem_ids_of_replicas (by rw [Cluster.replicas_of_one hrf]; exact List.mem_cons_self)
      refine .asks (hreq.imp_right .inr) hids hf fun resp => ?_
      obtain ⟨resp', heq, hrest⟩ := write_relays hreq resp
      refine ⟨resp', ?_, hrest⟩
      rw [← heq]
      exact congrArg Prog.ret (verdict_of_ack (by rw [Nat.zero_add, Nat.add_zero]))

theorem working_get (hf : Forwarded req fwd) (hc : fwd.command = .get) :
    Working c self req ((c.replication self).handleGet fwd.key) := by
  have hreq : req.command = .get := hf.command ▸ hc
  unfold ReplicationManager.handleGet
  rw [Cluster.replication_selfId, Cluster.replication_ring]
  by_cases hown : (ringOf c.config).getNode fwd.key = self
  · rw [if_pos hown]
    exact .operates (hf.key ▸ hown.symm) fun p => get_concludes hf hc p
  · rw [if_neg hown, getReplicaNodes_of_one hrf, Prog.call_bind]
    refine .looksUp fun node hnode => ?_
    cases hn : node.filter (·.status ≠ .down) with
    | none =>
      have hnone : ¬ Conclusive req ⟨.notFound, []⟩ := by
        rintro (h | ⟨-, h⟩)
        · cases h
        · exact h hreq
      exact .gives hnone (Nat.zero_le _)
    | some x =>
      have hx := hnode x (Option.filter_eq_some_iff.1 hn).1
      have hxs : x.id ≠ self := by
        rw [hx]
        exact hown
      have hids : x.id ∈ c.ids := by
        rw [hx]
        exact Cluster.mem_ids_of_replicas (by rw [Cluster.replicas_of_one hrf]; exact List.mem_cons_self)
      show Working c self req ((c.replication self).tryReplicas fwd.key [x])
      unfold ReplicationManager.tryReplicas ReplicationManager.askReplica
      rw [Cluster.replication_selfNode hself, if_neg hxs]
      have hf' : Forwarded req ⟨.get, fwd.key, []⟩ :=
        ⟨hreq.symm, hf.key, fun h => (by rw [hreq] at h; cases h), hf.fits.withoutValue⟩
      exact .asks (.inr (.inl hreq)) hids hf' (get_relays hreq)

/-- Every handler of a request that touches the store. -/
theorem working_clusterHandler (hf : Forwarded req fwd) (hreq : Stored req) :
    Working c self req ((c.replication self).clusterHandler fwd) := by
  unfold ReplicationManager.clusterHandler
  rcases hreq with hreq | hreq | hreq
  · have hc : fwd.command = .put := hf.command.trans hreq
    have hfwd : fwd = ⟨.put, fwd.key, fwd.value⟩ := by rw [← hc]
    rw [hc]
    exact working_coordinate hrf hself (hfwd ▸ hf) (.inl hreq) fun p => put_concludes hf hc p
  · have hc : fwd.command = .get := hf.command.trans hreq
    rw [hc]
    exact working_get hrf hself hf hc
  · have hc : fwd.command = .delete := hf.command.trans hreq
    have hf' : Forwarded req ⟨.delete, fwd.key, []⟩ :=
      ⟨hreq.symm, hf.key, fun h => (by rw [hreq] at h; cases h), hf.fits.withoutValue⟩
    rw [hc]
    exact working_coordinate hrf hself hf' (.inr hreq) fun p => delete_concludes hf hc p

end Handlers

/-- The other commands are answered at once. -/
theorem handler_of_not_stored {req : Request} (h : ¬ Stored req) (r : ReplicationManager) (m : Map Key Value) :
    ∃ resp, r.clusterHandler req = .ret resp ∧ exec req m = (resp, m) ∧ resp.value.length ≤ maxValueSize := by
  unfold ReplicationManager.clusterHandler exec Reference.step
  cases hc : req.command with
  | put => exact absurd (.inl hc) h
  | get => exact absurd (.inr (.inl hc)) h
  | delete => exact absurd (.inr (.inr hc)) h
  | ping => exact ⟨_, rfl, rfl, by decide⟩
  | other b hb => exact ⟨_, rfl, rfl, Nat.zero_le _⟩

/-! ## The tasks -/

/-- The task has not answered and waits for no other one: the effect of its call is still up to it. -/
def Armed (t : Task) : Prop := t.waitsFor = none ∧ ∀ resp, t.prog ≠ .ret resp

/-- What is known of a task that works for call `r`. -/
inductive TaskFits (c : Cluster) (history : List (Event Request Response)) (order : List (Effect Request Response))
    (r : Nat) (t : Task) : Prop
  | working {req : Request} (hinv : .invoke r req ∈ history) (hnew : r ∉ order.map Effect.id) (harmed : Armed t)
      (hw : Working c t.node req t.prog)
  | waiting {req fwd : Request} {j : Nat} {node : NodeInfo} {next : Response → ClusterHandler Response}
      (hinv : .invoke r req ∈ history) (hwaits : t.waitsFor = some j) (hp : t.prog = .call (.forward node fwd) next)
      (hrel : Relays req next)
  | answered {resp : Response} (hp : t.prog = .ret resp) (hlen : resp.value.length ≤ maxValueSize)
      (hdone : ∀ req, .invoke r req ∈ history → Conclusive req resp → ⟨r, req, resp⟩ ∈ order)

section Tasks

variable {c : Cluster} {history history' : List (Event Request Response)}
    {order order' : List (Effect Request Response)}
variable {roots : List Nat} {tasks : List Task}

theorem TaskFits.mono {r : Nat} {t : Task} (h : TaskFits c history order r t)
    (hhist : ∀ req, .invoke r req ∈ history' ↔ .invoke r req ∈ history) (horder : ∀ e ∈ order, e ∈ order')
    (hid : Armed t → r ∈ order'.map Effect.id → r ∈ order.map Effect.id) : TaskFits c history' order' r t := by
  cases h with
  | working hinv hnew harmed hw => exact .working ((hhist _).2 hinv) (fun hmem => hnew (hid harmed hmem)) harmed hw
  | waiting hinv hwaits hp hrel => exact .waiting ((hhist _).2 hinv) hwaits hp hrel
  | answered hp hlen hdone =>
    exact .answered hp hlen fun req hinv hconc => horder _ (hdone req ((hhist req).1 hinv) hconc)

/-- A handler that has come to a point before its effect. -/
theorem fits_of_working {r : Nat} {req : Request} {n : NodeId} {prog : ClusterHandler Response}
    (hinv : .invoke r req ∈ history) (huniq : ∀ req', .invoke r req' ∈ history → req' = req)
    (hnew : r ∉ order.map Effect.id) (hw : Working c n req prog) : TaskFits c history order r ⟨n, none, prog⟩ := by
  by_cases hret : ∃ resp, prog = .ret resp
  · obtain ⟨resp, rfl⟩ := hret
    cases hw with
    | gives hnot hlen =>
      refine .answered rfl hlen fun req' hinv' hconc => ?_
      rw [huniq req' hinv'] at hconc
      exact absurd hconc hnot
  · exact .working hinv hnew ⟨rfl, fun resp heq => hret ⟨resp, heq⟩⟩ hw

/-- Every task fits its call, and the effect of a call is up to one task at most. -/
structure Tracked (c : Cluster) (history : List (Event Request Response)) (order : List (Effect Request Response))
    (roots : List Nat) (tasks : List Task) : Prop where
  fits : ∀ (i : Nat) t r, tasks[i]? = some t → roots[i]? = some r → TaskFits c history order r t
  one : ∀ (i j : Nat) t u r, tasks[i]? = some t → tasks[j]? = some u → roots[i]? = some r → roots[j]? = some r →
    Armed t → Armed u → i = j

theorem getElem?_set_iff {i j : Nat} {t t' u : Task} (hi : tasks[i]? = some t) :
    (tasks.set i t')[j]? = some u ↔ j = i ∧ u = t' ∨ j ≠ i ∧ tasks[j]? = some u := by
  by_cases hj : j = i
  · subst hj
    rw [List.getElem?_set_self (List.getElem?_eq_some_iff.1 hi).1]
    simp [eq_comm]
  · rw [List.getElem?_set_ne (Ne.symm hj)]
    simp [hj]

/-- One task goes on; if its call takes effect, the task was the one it was up to. -/
theorem Tracked.set (h : Tracked c history order roots tasks) {i r : Nat} {t t' : Task} (hi : tasks[i]? = some t)
    (hr : roots[i]? = some r) (hfit : TaskFits c history order' r t') (harm : Armed t' → Armed t)
    (horder : ∀ e ∈ order, e ∈ order')
    (hid : ∀ x ∈ order'.map Effect.id, x ∈ order.map Effect.id ∨ x = r ∧ Armed t) :
    Tracked c history order' roots (tasks.set i t') := by
  constructor
  · intro j u r' hu hr'
    rcases (getElem?_set_iff hi).1 hu with ⟨rfl, rfl⟩ | ⟨hj, hu⟩
    · rw [hr] at hr'
      cases hr'
      exact hfit
    · refine (h.fits j u r' hu hr').mono (fun _ => Iff.rfl) horder fun harmed hmem => ?_
      rcases hid r' hmem with hmem | ⟨rfl, ht⟩
      · exact hmem
      · exact absurd (h.one j i u t r' hu hi hr' hr harmed ht) hj
  · intro j k u v r' hu hv hru hrv hau hav
    rcases (getElem?_set_iff hi).1 hu with ⟨rfl, rfl⟩ | ⟨-, hu'⟩ <;>
      rcases (getElem?_set_iff hi).1 hv with ⟨rfl, rfl⟩ | ⟨-, hv'⟩
    · rfl
    · exact h.one _ _ t v r' hi hv' hru hrv (harm hau) hav
    · exact h.one _ _ u t r' hu' hi hru hrv hau (harm hav)
    · exact h.one _ _ u v r' hu' hv' hru hrv hau hav

theorem getElem?_push {α : Type} {l : List α} {a b : α} {i : Nat} (h : (l ++ [b])[i]? = some a) :
    i = l.length ∧ a = b ∨ i < l.length ∧ l[i]? = some a := by
  rw [List.getElem?_append] at h
  split at h
  · rename_i hlt
    exact .inr ⟨hlt, h⟩
  · rename_i hge
    rw [List.getElem?_singleton] at h
    split at h
    · cases h
      exact .inl ⟨by omega, rfl⟩
    · cases h

/-- A new task, for a call whose effect is up to no other. -/
theorem Tracked.push (h : Tracked c history order roots tasks) (hlen : roots.length = tasks.length) {r : Nat}
    {t : Task} (hfit : TaskFits c history' order' r t)
    (hone : ∀ (i : Nat) u, tasks[i]? = some u → roots[i]? = some r → ¬ Armed u)
    (hhist : ∀ (i : Nat) r', roots[i]? = some r' → ∀ req, .invoke r' req ∈ history' ↔ .invoke r' req ∈ history)
    (horder : ∀ e ∈ order, e ∈ order')
    (hid : ∀ (i : Nat) r', roots[i]? = some r' → r' ∈ order'.map Effect.id → r' ∈ order.map Effect.id) :
    Tracked c history' order' (roots ++ [r]) (tasks ++ [t]) := by
  constructor
  · intro i u r' hu hr'
    rcases getElem?_push hu with ⟨rfl, rfl⟩ | ⟨hlt, hu⟩ <;> rcases getElem?_push hr' with ⟨heq, rfl⟩ | ⟨hlt', hr'⟩
    · exact hfit
    · omega
    · omega
    · exact (h.fits i u r' hu hr').mono (hhist i r' hr') horder fun _ => hid i r' hr'
  · intro i j u v r' hu hv hru hrv hau hav
    rcases getElem?_push hu with ⟨rfl, rfl⟩ | ⟨hi, hu'⟩ <;> rcases getElem?_push hv with ⟨rfl, rfl⟩ | ⟨hj, hv'⟩ <;>
      rcases getElem?_push hru with ⟨hi', rfl⟩ | ⟨hi', hru'⟩ <;>
        rcases getElem?_push hrv with ⟨hj', hrr⟩ | ⟨hj', hrv'⟩
    any_goals omega
    · exact absurd hav (hone j v hv' hrv')
    · exact absurd hau (hone i u hu' (hrr ▸ hru'))
    · exact h.one i j u v r' hu' hv' hru' hrv' hau hav

end Tasks

/-! ## Every step -/

/-- The calls are numbered, and a task that waits waits for a task of the same call. -/
structure Numbered (o : Observed) : Prop where
  length : o.roots.length = o.system.tasks.length
  below : ∀ i r : Nat, o.roots[i]? = some r → r < o.system.tasks.length
  invoked : ∀ r req, .invoke r req ∈ o.history → r < o.system.tasks.length
  unique : ∀ r req req', .invoke r req ∈ o.history → .invoke r req' ∈ o.history → req' = req
  asked : ∀ i r : Nat, o.roots[i]? = some r → ∃ req, .invoke r req ∈ o.history
  links : ∀ (i j : Nat) t, o.system.tasks[i]? = some t → t.waitsFor = some j → o.roots[j]? = o.roots[i]?

/-- The history is linearized by an order that leaves what the owners hold. -/
structure Sound (c : Cluster) (o : Observed) (order : List (Effect Request Response)) (m : Map Key Value) : Prop where
  linearized : Linearized exec ∅ o.history order m
  agree : ∀ key, (o.system.nodes (c.primary key)).store.data.lookup key = m.lookup key
  limits : ∀ id, (o.system.nodes id).store.WithinLimits
  numbered : Numbered o
  tracked : Tracked c o.history order o.roots o.system.tasks

theorem Sound.start (c : Cluster) : Sound c .start [] ∅ where
  linearized := .start _ _
  agree _ := rfl
  limits _ := KVStore.empty_withinLimits
  numbered := ⟨rfl, fun _ _ h => (by simp [Observed.start] at h), fun _ _ h => (by cases h),
    fun _ _ _ h => (by cases h), fun _ _ h => (by simp [Observed.start] at h),
    fun _ _ _ h => (by simp [Observed.start, System.start] at h)⟩
  tracked := ⟨fun _ _ _ h => (by simp [Observed.start, System.start] at h),
    fun _ _ _ _ _ h => (by simp [Observed.start, System.start] at h)⟩

section Steps

variable {c : Cluster} {o : Observed} {order : List (Effect Request Response)} {m : Map Key Value}

/-- A task has a call. -/
theorem Numbered.root (h : Numbered o) {i : Nat} {t : Task} (hi : o.system.tasks[i]? = some t) :
    ∃ r, o.roots[i]? = some r := by
  obtain ⟨hlt, -⟩ := List.getElem?_eq_some_iff.1 hi
  exact ⟨_, List.getElem?_eq_getElem (h.length ▸ hlt)⟩

theorem Numbered.resume (h : Numbered o) {i : Nat} {t : Task} (hi : o.system.tasks[i]? = some t)
    (prog : ClusterHandler Response) {nodes : NodeId → Process} :
    Numbered { o with system := { o.system with
      nodes := nodes, tasks := o.system.tasks.set i { t with waitsFor := none, prog := prog } } } where
  length := by simpa using h.length
  below := by simpa using h.below
  invoked := by simpa using h.invoked
  unique := h.unique
  asked := h.asked
  links := by
    intro j k u hu hw
    rcases (getElem?_set_iff hi).1 hu with ⟨rfl, rfl⟩ | ⟨-, hu⟩
    · cases hw
    · exact h.links j k u hu hw

theorem Numbered.deliver (h : Numbered o) {i r : Nat} {t callee : Task} (hi : o.system.tasks[i]? = some t)
    (hr : o.roots[i]? = some r) (hcallee : callee.waitsFor = none) :
    Numbered
      { system := { o.system with
          tasks := o.system.tasks.set i { t with waitsFor := some o.system.tasks.length } ++ [callee] }
        roots := o.roots ++ [r]
        history := o.history } := by
  -- the new task has a call that another one had
  have hroots : ∀ j r' : Nat, (o.roots ++ [r])[j]? = some r' → ∃ k : Nat, o.roots[k]? = some r' := by
    intro j r' hr'
    rcases getElem?_push hr' with ⟨-, rfl⟩ | ⟨-, hr'⟩
    · exact ⟨i, hr⟩
    · exact ⟨j, hr'⟩
  have hold : ∀ x : Nat, x < o.roots.length → (o.roots ++ [r])[x]? = o.roots[x]? :=
    fun x hx => List.getElem?_append_left hx
  refine ⟨by simp [h.length], ?_, ?_, h.unique, ?_, ?_⟩
  · intro j r' hr'
    obtain ⟨k, hk⟩ := hroots j r' hr'
    simpa using Nat.lt_succ_of_lt (h.below k r' hk)
  · intro r' req' hinv'
    simpa using Nat.lt_succ_of_lt (h.invoked r' req' hinv')
  · intro j r' hr'
    obtain ⟨k, hk⟩ := hroots j r' hr'
    exact h.asked k r' hk
  · intro j k u hu hwaits
    rcases getElem?_push hu with ⟨-, rfl⟩ | ⟨-, hu⟩
    · rw [hcallee] at hwaits
      cases hwaits
    · rcases (getElem?_set_iff hi).1 hu with ⟨rfl, rfl⟩ | ⟨-, hu⟩
      · cases hwaits
        rw [hold j (h.length ▸ (List.getElem?_eq_some_iff.1 hi).1), hr, ← h.length, List.getElem?_concat_length]
      · have hlink := h.links j k u hu hwaits
        have hj : j < o.roots.length := h.length ▸ (List.getElem?_eq_some_iff.1 hu).1
        have hk : k < o.roots.length := by
          rw [List.getElem?_eq_getElem hj] at hlink
          exact (List.getElem?_eq_some_iff.1 hlink).1
        rw [hold j hj, hold k hk]
        exact hlink

theorem Numbered.arrive (h : Numbered o) {t : Task} (ht : t.waitsFor = none) (req : Request) :
    Numbered
      { system := { o.system with tasks := o.system.tasks ++ [t], sent := o.system.sent ++ [req] }
        roots := o.roots ++ [o.system.tasks.length]
        history := o.history ++ [.invoke o.system.tasks.length req] } := by
  have hinvoked : ∀ r req', .invoke r req' ∈ o.history ++ [.invoke o.system.tasks.length req] →
      r = o.system.tasks.length ∧ req' = req ∨ r < o.system.tasks.length ∧ .invoke r req' ∈ o.history := by
    intro r req' hmem
    rcases List.mem_append.1 hmem with hmem | hmem
    · exact .inr ⟨h.invoked r req' hmem, hmem⟩
    · cases List.mem_singleton.1 hmem
      exact .inl ⟨rfl, rfl⟩
  have hold : ∀ x : Nat, x < o.roots.length → (o.roots ++ [o.system.tasks.length])[x]? = o.roots[x]? :=
    fun x hx => List.getElem?_append_left hx
  refine ⟨by simp [h.length], ?_, ?_, ?_, ?_, ?_⟩
  · intro j r hr
    rcases getElem?_push hr with ⟨-, rfl⟩ | ⟨-, hr⟩
    · simp
    · simpa using Nat.lt_succ_of_lt (h.below j r hr)
  · intro r req' hmem
    rcases hinvoked r req' hmem with ⟨rfl, -⟩ | ⟨hlt, -⟩
    · simp
    · simpa using Nat.lt_succ_of_lt hlt
  · intro r req₁ req₂ h₁ h₂
    rcases hinvoked r req₁ h₁ with ⟨hr, rfl⟩ | ⟨hlt, h₁⟩ <;> rcases hinvoked r req₂ h₂ with ⟨hr', rfl⟩ | ⟨hlt', h₂⟩
    · rfl
    · omega
    · omega
    · exact h.unique r req₁ req₂ h₁ h₂
  · intro j r hr
    rcases getElem?_push hr with ⟨-, rfl⟩ | ⟨-, hr⟩
    · exact ⟨req, by simp⟩
    · obtain ⟨req', hinv'⟩ := h.asked j r hr
      exact ⟨req', List.mem_append_left _ hinv'⟩
  · intro j k u hu hwaits
    rcases getElem?_push hu with ⟨-, rfl⟩ | ⟨hj, hu⟩
    · rw [ht] at hwaits
      cases hwaits
    · have hlink := h.links j k u hu hwaits
      rw [← h.length] at hj
      have hk : k < o.roots.length := by
        rw [List.getElem?_eq_getElem hj] at hlink
        exact (List.getElem?_eq_some_iff.1 hlink).1
      rw [hold j hj, hold k hk]
      exact hlink

/-- A task goes on without an effect. -/
theorem Sound.resume (h : Sound c o order m) {i r : Nat} {t : Task} (hi : o.system.tasks[i]? = some t)
    (hr : o.roots[i]? = some r) {prog : ClusterHandler Response} (harm : Armed ⟨t.node, none, prog⟩ → Armed t)
    (hfit : TaskFits c o.history order r ⟨t.node, none, prog⟩) :
    Sound c { o with system := o.system.resume i t prog } order m where
  linearized := h.linearized
  agree := h.agree
  limits := h.limits
  numbered := h.numbered.resume hi prog
  tracked := h.tracked.set hi hr hfit harm (fun _ he => he) fun _ hx => .inl hx

/-- A task that has answered has no effect any more. -/
theorem not_armed_ret {n : NodeId} {w : Option Nat} {resp : Response} : ¬ Armed ⟨n, w, .ret resp⟩ :=
  fun h => h.2 resp rfl

theorem Sound.lookUp (h : Sound c o order m) {i : Nat} {t : Task} {id : NodeId}
    {next : Option NodeInfo → ClusterHandler Response} {node : Option NodeInfo} (hi : o.system.tasks[i]? = some t)
    (hp : t.prog = .call (.getNode id) next) (hnode : ∀ n, node = some n → n.id = id) :
    Sound c { o with system := o.system.resume i t (next node) } order m := by
  obtain ⟨r, hr⟩ := h.numbered.root hi
  cases h.tracked.fits i t r hi hr with
  | working hinv hnew harmed hw =>
    rw [hp] at hw
    cases hw with
    | looksUp hnext =>
      refine h.resume hi hr (fun _ => harmed) ?_
      exact fits_of_working hinv (fun req' hinv' => h.numbered.unique r _ req' hinv hinv') hnew (hnext node hnode)
  | waiting hinv hwaits hp' hrel =>
    rw [hp] at hp'
    cases hp'
  | answered hp' =>
    rw [hp] at hp'
    cases hp'

/-- The effect of a call. -/
theorem Sound.store (h : Sound c o order m) {i : Nat} {t : Task} {op : StoreCall}
    {next : op.Res → ClusterHandler Response} (hi : o.system.tasks[i]? = some t)
    (hp : t.prog = .call (.store op) next) :
    ∃ order' m', Sound c { o with
      system := (o.system.operate t.node op).resume i t (next (op.exec (o.system.nodes t.node)).1) } order' m' := by
  obtain ⟨r, hr⟩ := h.numbered.root hi
  cases h.tracked.fits i t r hi hr with
  | waiting hinv hwaits hp' hrel =>
    rw [hp] at hp'
    cases hp'
  | answered hp' =>
    rw [hp] at hp'
    cases hp'
  | @working req hinv hnew harmed hw =>
    rw [hp] at hw
    cases hw with
    | operates hown hop =>
      have hagree := h.agree req.key
      rw [← hown] at hagree
      obtain ⟨resp, hnext, hlen, hconc, hlim, hkey, hother⟩ := hop _ m hagree (h.limits _)
      refine ⟨order ++ [⟨r, req, (exec req m).1⟩], (exec req m).2, h.linearized.commit hinv hnew, ?_, ?_,
        h.numbered.resume hi _, ?_⟩
      · -- the owner of a key is the node of the task, or its store is as before
        intro key
        show ((Function.update o.system.nodes t.node _) (c.primary key)).store.data.lookup key = _
        by_cases hk : key = req.key
        · subst hk
          rw [← hown, Function.update_self]
          exact hkey
        · have hm : (exec req m).2.lookup key = m.lookup key := exec_other hk
          rw [hm]
          by_cases hn : c.primary key = t.node
          · rw [hn, Function.update_self, hother key hk, ← hn]
            exact h.agree key
          · rw [Function.update_of_ne hn]
            exact h.agree key
      · intro id
        show ((Function.update o.system.nodes t.node _) id).store.WithinLimits
        by_cases hn : id = t.node
        · subst hn
          rw [Function.update_self]
          exact hlim
        · rw [Function.update_of_ne hn]
          exact h.limits id
      · rw [hnext]
        refine h.tracked.set hi hr ?_ (fun ha => absurd ha not_armed_ret) (fun _ => List.mem_append_left _) ?_
        · refine .answered rfl hlen fun req' hinv' hc => ?_
          rw [h.numbered.unique r req req' hinv hinv'] at hc ⊢
          rw [hconc hc]
          exact List.mem_append_right _ List.mem_cons_self
        · intro x hx
          rw [List.map_append, List.mem_append] at hx
          exact hx.imp_right fun hx => ⟨List.mem_singleton.1 hx, harmed⟩

/-- A forwarded request arrives: its effect is up to the new task from then on. -/
theorem Sound.deliver (hrf : c.replicationFactor = 1) (h : Sound c o order m) {i : Nat} {t : Task} {node : NodeInfo}
    {fwd req' : Request} {next : Response → ClusterHandler Response} (hi : o.system.tasks[i]? = some t)
    (hp : t.prog = .call (.forward node fwd) next) (hw : t.waitsFor = none)
    (hreq : receiveRequest (writeFrame (serializeRequest fwd)) = some req') :
    Sound c
      { system := { o.system with
          tasks := o.system.tasks.set i { t with waitsFor := some o.system.tasks.length } ++
            [⟨node.id, none, (c.replication node.id).clusterHandler req'⟩] }
        roots := o.roots ++ o.roots[i]?.toList
        history := o.history } order m := by
  obtain ⟨r, hr⟩ := h.numbered.root hi
  rw [hr, Option.toList_some]
  cases h.tracked.fits i t r hi hr with
  | waiting hinv hwaits hp' hrel =>
    rw [hw] at hwaits
    cases hwaits
  | answered hp' =>
    rw [hp] at hp'
    cases hp'
  | @working req hinv hnew harmed hwork =>
    rw [hp] at hwork
    cases hwork with
    | asks hstored hids hf hrel =>
      rw [receiveRequest_sent hf.fits] at hreq
      cases hreq
      have hset : Tracked c o.history order o.roots
          (o.system.tasks.set i { t with waitsFor := some o.system.tasks.length }) := by
        refine h.tracked.set hi hr (.waiting hinv rfl hp hrel) ?_ (fun _ he => he) fun _ hx => .inl hx
        intro ha
        cases ha.1
      refine ⟨h.linearized, h.agree, h.limits, h.numbered.deliver hi hr rfl, ?_⟩
      refine hset.push (by simp [h.numbered.length]) ?_ ?_ (fun _ _ _ _ => Iff.rfl) (fun _ he => he)
        fun _ _ _ hx => hx
      · refine fits_of_working hinv (fun req' hinv' => h.numbered.unique r _ req' hinv hinv') hnew ?_
        exact working_clusterHandler hrf hids hf hstored
      · intro j u hu hrj hau
        rcases (getElem?_set_iff hi).1 hu with ⟨rfl, rfl⟩ | ⟨hj, hu⟩
        · cases hau.1
        · exact hj (h.tracked.one j i u t r hu hi hrj hr hau harmed)

/-- The answer of the other task comes back. -/
theorem Sound.respond (h : Sound c o order m) {i j : Nat} {t callee : Task} {node : NodeInfo} {fwd : Request}
    {resp : Response} {next : Response → ClusterHandler Response} (hi : o.system.tasks[i]? = some t)
    (hw : t.waitsFor = some j) (hj : o.system.tasks[j]? = some callee) (hp : t.prog = .call (.forward node fwd) next)
    (hresp : callee.prog = .ret resp) :
    Sound c { o with
      system := o.system.resume i t (next (receiveResponse (writeFrame (serializeResponse resp)))) } order m := by
  obtain ⟨r, hr⟩ := h.numbered.root hi
  have hrj := h.numbered.links i j t hi hw
  rw [hr] at hrj
  -- the callee has answered, and its conclusive answers are in the order
  cases h.tracked.fits j callee r hj hrj with
  | working hinv hnew harmed hwork => exact absurd hresp (harmed.2 resp)
  | waiting hinv hwaits hp' hrel =>
    rw [hresp] at hp'
    cases hp'
  | answered hp' hlen hdone =>
    rw [hresp] at hp'
    cases hp'
    cases h.tracked.fits i t r hi hr with
    | working hinv hnew harmed hwork =>
      rw [harmed.1] at hw
      cases hw
    | answered hp' =>
      rw [hp] at hp'
      cases hp'
    | @waiting req _ _ _ _ hinv hwaits hp' hrel =>
      rw [hp] at hp'
      cases hp'
      have hbound : 5 + resp.value.length < 2 ^ 32 := by
        unfold maxValueSize at hlen
        omega
      rw [receiveResponse_sent hbound]
      obtain ⟨resp', hnext, hlen', hconc⟩ := hrel resp
      rw [hnext]
      refine h.resume hi hr (fun ha => absurd ha not_armed_ret) (.answered rfl (hlen' hlen) ?_)
      intro req' hinv' hc
      rw [h.numbered.unique r req req' hinv hinv'] at hc ⊢
      obtain ⟨hconc, hsame⟩ := hconc hc
      have hmem := hdone req hinv hconc
      obtain ⟨m', hm'⟩ := h.linearized.legal.result hmem
      rw [hsame m' hm']
      exact hmem

/-- The connection fails, whether the request had arrived or not. -/
theorem Sound.fail (h : Sound c o order m) {i : Nat} {t : Task} {node : NodeInfo} {fwd : Request}
    {next : Response → ClusterHandler Response} (hi : o.system.tasks[i]? = some t)
    (hp : t.prog = .call (.forward node fwd) next) :
    Sound c { o with system := o.system.resume i t (next ⟨.nodeUnavailable, []⟩) } order m := by
  obtain ⟨r, hr⟩ := h.numbered.root hi
  have hrelays : ∃ req, .invoke r req ∈ o.history ∧ Relays req next := by
    cases h.tracked.fits i t r hi hr with
    | working hinv hnew harmed hwork =>
      rw [hp] at hwork
      cases hwork with
      | asks _ _ _ hrel => exact ⟨_, hinv, hrel⟩
    | waiting hinv hwaits hp' hrel =>
      rw [hp] at hp'
      cases hp'
      exact ⟨_, hinv, hrel⟩
    | answered hp' =>
      rw [hp] at hp'
      cases hp'
  obtain ⟨req, hinv, hrel⟩ := hrelays
  obtain ⟨resp', hnext, hlen, hconc⟩ := hrel ⟨.nodeUnavailable, []⟩
  rw [hnext]
  refine h.resume hi hr (fun ha => absurd ha not_armed_ret) (.answered rfl (hlen (Nat.zero_le _)) ?_)
  intro req' hinv' hc
  rw [h.numbered.unique r req req' hinv hinv'] at hc
  rcases (hconc hc).1 with hbad | ⟨hbad, -⟩ <;> cases hbad

/-- The client gets its answer. -/
theorem Sound.reply (h : Sound c o order m) {i : Nat} {t : Task} {resp : Response} (hi : o.system.tasks[i]? = some t)
    (hp : t.prog = .ret resp) (hroot : o.roots[i]? = some i) (hok : resp.status = .ok) :
    Sound c { o with history := o.history ++ [.respond i resp] } order m := by
  have hhist : ∀ r req, .invoke r req ∈ o.history ++ [.respond i resp] ↔ .invoke r req ∈ o.history := by simp
  obtain ⟨req, hinv⟩ := h.numbered.asked i i hroot
  have hmem : ⟨i, req, resp⟩ ∈ order := by
    cases h.tracked.fits i t i hi hroot with
    | working hinv hnew harmed hwork => exact absurd hp (harmed.2 resp)
    | waiting hinv hwaits hp' hrel =>
      rw [hp] at hp'
      cases hp'
    | answered hp' hlen hdone =>
      rw [hp] at hp'
      cases hp'
      exact hdone req hinv (.inl hok)
  refine ⟨h.linearized.respond hmem, h.agree, h.limits, ?_, ?_⟩
  · refine ⟨h.numbered.length, h.numbered.below, ?_, ?_, ?_, h.numbered.links⟩
    · intro r req' hinv'
      exact h.numbered.invoked r req' ((hhist r req').1 hinv')
    · intro r req₁ req₂ h₁ h₂
      exact h.numbered.unique r req₁ req₂ ((hhist r req₁).1 h₁) ((hhist r req₂).1 h₂)
    · intro j r hr
      obtain ⟨req', hinv'⟩ := h.numbered.asked j r hr
      exact ⟨req', (hhist r req').2 hinv'⟩
  · refine ⟨fun j u r hu hr => ?_, h.tracked.one⟩
    exact (h.tracked.fits j u r hu hr).mono (hhist r) (fun _ he => he) fun _ hx => hx

/-- A client sends a request. -/
theorem Sound.arrive (hrf : c.replicationFactor = 1) (h : Sound c o order m) {id : NodeId} {req : Request}
    (hid : id ∈ c.ids) (hfit : req.FitsFrame) :
    ∃ order' m', Sound c
      { system := { o.system with
          tasks := o.system.tasks ++ [⟨id, none, (c.replication id).clusterHandler req⟩]
          sent := o.system.sent ++ [req] }
        roots := o.roots ++ [o.system.tasks.length]
        history := o.history ++ [.invoke o.system.tasks.length req] } order' m' := by
  have hnew : ∀ op, .invoke o.system.tasks.length op ∉ o.history :=
    fun op hmem => absurd (h.numbered.invoked _ _ hmem) (lt_irrefl _)
  have hord : o.system.tasks.length ∉ order.map Effect.id := by
    intro hmem
    obtain ⟨e, he, heq⟩ := List.mem_map.1 hmem
    exact hnew e.op (heq ▸ h.linearized.invoked e he)
  have hlin := h.linearized.invoke hnew req
  have hinv : .invoke o.system.tasks.length req ∈ o.history ++ [.invoke o.system.tasks.length req] := by simp
  have huniq : ∀ req', .invoke o.system.tasks.length req' ∈ o.history ++ [.invoke o.system.tasks.length req] →
      req' = req := by
    intro req' hmem
    rcases List.mem_append.1 hmem with hmem | hmem
    · exact absurd hmem (hnew req')
    · cases List.mem_singleton.1 hmem
      rfl
  have hold : ∀ (i : Nat) r, o.roots[i]? = some r → ∀ req',
      .invoke r req' ∈ o.history ++ [.invoke o.system.tasks.length req] ↔ .invoke r req' ∈ o.history := by
    intro i r hr req'
    have hne : r ≠ o.system.tasks.length := (h.numbered.below i r hr).ne
    simp [hne]
  have hnumbered := h.numbered.arrive (t := ⟨id, none, (c.replication id).clusterHandler req⟩) rfl req
  have hfree : ∀ (i : Nat) u, o.system.tasks[i]? = some u → o.roots[i]? = some o.system.tasks.length → ¬ Armed u :=
    fun i u _ hr => absurd (h.numbered.below i _ hr) (lt_irrefl _)
  by_cases hstored : Stored req
  · refine ⟨order, m, hlin, h.agree, h.limits, hnumbered, ?_⟩
    refine h.tracked.push h.numbered.length ?_ hfree hold (fun _ he => he) fun _ _ _ hx => hx
    exact fits_of_working hinv huniq hord (working_clusterHandler hrf hid (.refl hfit) hstored)
  · -- the answer does not depend on the store, and is given at once
    obtain ⟨resp, hprog, hexec, hlen⟩ := handler_of_not_stored hstored (c.replication id) m
    have hcommit := hlin.commit hinv hord
    rw [hexec] at hcommit
    refine ⟨_, _, hcommit, h.agree, h.limits, hnumbered, ?_⟩
    refine h.tracked.push h.numbered.length ?_ hfree hold (fun _ => List.mem_append_left _) ?_
    · refine .answered hprog hlen fun req' hinv' _ => ?_
      rw [huniq req' hinv']
      exact List.mem_append_right _ List.mem_cons_self
    · intro i r hr hmem
      rw [List.map_append, List.mem_append] at hmem
      rcases hmem with hmem | hmem
      · exact hmem
      · exact absurd (List.mem_singleton.1 hmem) (h.numbered.below i r hr).ne

end Steps

/-- With replication factor 1 the OK answers of the cluster are linearizable: whatever the order in which
the tasks of all nodes proceed, which connections fail when, and what the nodes think of each other,
there is one order of the requests, respecting real time, in which one map gives these answers. -/
theorem sharded_linearizable {c : Cluster} (hrf : c.replicationFactor = 1) {o : Observed} {es : List ObservedEvent}
    (h : Runs (Observed.step c) (fun _ _ => True) .start es o) : Linearizable exec ∅ o.history := by
  have hsound : ∃ order m, Sound c o order m := by
    refine h.invariant (I := fun o => ∃ order m, Sound c o order m) ?_ ⟨[], ∅, .start c⟩
    rintro o₁ e o₂ ⟨order, m, hs⟩ - hstep
    cases Observed.step_takes hstep with
    | arrive hid hfit => exact hs.arrive hrf hid hfit
    | store hi hp => exact hs.store hi hp
    | lookUp hi hp hnode => exact ⟨order, m, hs.lookUp hi hp hnode⟩
    | deliver hi hw hp hreq => exact ⟨order, m, hs.deliver hrf hi hp hw hreq⟩
    | respond hi hw hj hp hresp => exact ⟨order, m, hs.respond hi hw hj hp hresp⟩
    | fail hi hp => exact ⟨order, m, hs.fail hi hp⟩
    | views views =>
      exact ⟨order, m, hs.linearized, hs.agree, hs.limits,
        ⟨hs.numbered.length, hs.numbered.below, hs.numbered.invoked, hs.numbered.unique, hs.numbered.asked,
          hs.numbered.links⟩, hs.tracked⟩
    | reply hi hp hroot hok => exact ⟨order, m, hs.reply hi hp hroot hok⟩
  obtain ⟨order, m, hs⟩ := hsound
  exact hs.linearized.linearizable

/-- Two nodes that keep every key once. -/
def twoShards : Cluster where
  config := [⟨[97], [104], 1⟩, ⟨[98], [104], 2⟩]
  nonempty := by simp
  distinct := by decide
  replicationFactor := 1

/-- Node `"b"` forwards a PUT of `"k"` to its owner `"a"`, where it arrives; the connection fails before the
answer is back. A GET at `"a"` finds the value all the same. -/
def lateAnswer : List ObservedEvent :=
  [.run (.client [98] ⟨.put, [107], [118]⟩), .run (.step 0), .run (.deliver 0), .run (.step 1),
    .run (.client [97] ⟨.get, [107], []⟩), .run (.step 1), .run (.fail 0), .run (.step 2), .reply 2]

theorem sharded_linearizable_lateAnswer :
    ∃ o, Runs (Observed.step twoShards) (fun _ _ => True) .start lateAnswer o ∧
      o.history = [.invoke 0 ⟨.put, [107], [118]⟩, .invoke 2 ⟨.get, [107], []⟩, .respond 2 ⟨.ok, [118]⟩] ∧
      Linearizable exec ∅ o.history := by
  obtain ⟨o, hr, ho⟩ : ∃ o, Runs (Observed.step twoShards) (fun _ _ => True) .start lateAnswer o ∧
      o.history = [.invoke 0 ⟨.put, [107], [118]⟩, .invoke 2 ⟨.get, [107], []⟩, .respond 2 ⟨.ok, [118]⟩] :=
    exists_runs (by decide +kernel)
  exact ⟨o, hr, ho, sharded_linearizable rfl hr⟩

end Sharded

end KvStore
