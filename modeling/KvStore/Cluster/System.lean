/-
A whole cluster, one step at a time. Clients send requests to any node, each request is handled by
a task at its node, and the tasks of all nodes take their store operations, looks at the node table
and forwarded requests in any order. A forwarded request becomes a task at the other node; its
connection may fail at any moment, before the request arrives or while the answer is awaited. The
health monitors may change the view of any node at any time.

Whatever happens, a pair in a store was sent by a client and lies at a replica of its key
(`stored_pair_placed`).
-/
import KvStore.Cluster.Coordinator
import KvStore.Lib.Machine
import KvStore.Lib.Slots

namespace KvStore

open Bytes Program Protocol Machine Updates

/-! ## The machine -/

/-- A request being handled at a node: what is left to do, and the task that handles the request it
has forwarded, if it waits for one. -/
structure Task where
  node : NodeId
  waitsFor : Option Nat
  prog : ClusterHandler Response

/-- The processes, the status in which each node sees each other one, the tasks, and all requests
that clients have sent. -/
structure System where
  nodes : NodeId → Process
  views : NodeId → NodeId → NodeStatus
  tasks : List Task
  sent : List Request

inductive SystemEvent
  /-- a client's request reaches a node -/
  | client (id : NodeId) (req : Request)
  /-- a task takes a store operation, or looks up a node in the table -/
  | step (i : Nat)
  /-- a request that a task forwards reaches the other node -/
  | deliver (i : Nat)
  /-- the response a task waits for reaches it -/
  | respond (i : Nat)
  /-- the connection over which a task forwards fails -/
  | fail (i : Nat)
  | setStatus (a b : NodeId) (status : NodeStatus)

namespace System

/-- All stores empty, all nodes UP. -/
def start : System := ⟨fun _ => ⟨KVStore.empty, Disk.empty⟩, fun _ _ => .up, [], []⟩

/-- Node `id` takes a store operation. -/
def operate (s : System) (id : NodeId) (op : StoreCall) : System :=
  { s with nodes := Function.update s.nodes id (op.exec (s.nodes id)).2 }

/-- Task `i` goes on with `prog`. -/
def resume (s : System) (i : Nat) (t : Task) (prog : ClusterHandler Response) : System :=
  { s with tasks := s.tasks.set i { t with waitsFor := none, prog := prog } }

/-- One event; `none` if it cannot happen. -/
def step (c : Cluster) (s : System) : SystemEvent → Option System
  | .client id req =>
    if id ∈ c.ids ∧ req.FitsFrame then
      some { s with
        tasks := s.tasks ++ [⟨id, none, (c.replication id).clusterHandler req⟩]
        sent := s.sent ++ [req] }
    else none
  | .step i => do
    let t ← s.tasks[i]?
    match t.prog with
    | .call (.store op) next => some ((s.operate t.node op).resume i t (next (op.exec (s.nodes t.node)).1))
    | .call (.getNode id) next =>
      some (s.resume i t (next (((c.manager t.node).withView (s.views t.node)).getNode id)))
    | _ => none
  | .deliver i => do
    let t ← s.tasks[i]?
    match t.waitsFor, t.prog with
    | none, .call (.forward node req) _ => do
      let req ← receiveRequest (writeFrame (serializeRequest req))
      some { s with tasks := s.tasks.set i { t with waitsFor := some s.tasks.length } ++
        [⟨node.id, none, (c.replication node.id).clusterHandler req⟩] }
    | _, _ => none
  | .respond i => do
    let t ← s.tasks[i]?
    let j ← t.waitsFor
    let callee ← s.tasks[j]?
    match t.prog, callee.prog with
    | .call (.forward _ _) next, .ret resp =>
      some (s.resume i t (next (receiveResponse (writeFrame (serializeResponse resp)))))
    | _, _ => none
  | .fail i => do
    let t ← s.tasks[i]?
    match t.prog with
    | .call (.forward _ _) next => some (s.resume i t (next ⟨.nodeUnavailable, []⟩))
    | _ => none
  | .setStatus a b status => some { s with views := Function.update s.views a (Function.update (s.views a) b status) }

/-- The states a cluster can get into. -/
def Reachable (c : Cluster) (s : System) : Prop := ∃ es, Runs (step c) (fun _ _ => True) start es s

/-! ## What a step does -/

/-- The answers a call can get: a node table knows its nodes by their ids. -/
def Answer : (c : ClusterCall) → c.Res → Prop
  | .getNode id, node => ∀ n, node = some n → n.id = id
  | _, _ => True

/-- A task is started, or the next call of a task is made or answered. -/
inductive Moves (c : Cluster) (s : System) : System → Prop
  | arrive {id : NodeId} {req : Request} (hid : id ∈ c.ids) (hfit : req.FitsFrame) :
    Moves c s { s with
      tasks := s.tasks ++ [⟨id, none, (c.replication id).clusterHandler req⟩]
      sent := s.sent ++ [req] }
  | store {i : Nat} {t : Task} {op : StoreCall} {next : op.Res → ClusterHandler Response}
    (hi : s.tasks[i]? = some t) (hp : t.prog = .call (.store op) next) :
    Moves c s ((s.operate t.node op).resume i t (next (op.exec (s.nodes t.node)).1))
  | answer {i : Nat} {t : Task} (call : ClusterCall) {next : call.Res → ClusterHandler Response} {r : call.Res}
    (hi : s.tasks[i]? = some t) (hp : t.prog = .call call next) (hr : Answer call r) :
    Moves c s (s.resume i t (next r))
  | forward {i : Nat} {t : Task} {node : NodeInfo} {req req' : Request} {next : Response → ClusterHandler Response}
    (hi : s.tasks[i]? = some t) (hp : t.prog = .call (.forward node req) next)
    (hreq : receiveRequest (writeFrame (serializeRequest req)) = some req') :
    Moves c s { s with tasks := s.tasks.set i { t with waitsFor := some s.tasks.length } ++
      [⟨node.id, none, (c.replication node.id).clusterHandler req'⟩] }
  | views (views : NodeId → NodeId → NodeStatus) : Moves c s { s with views := views }

theorem step_moves {c : Cluster} {s s' : System} {e : SystemEvent} (h : s.step c e = some s') : Moves c s s' := by
  cases e with
  | client id req =>
    simp only [step] at h
    split at h
    · rename_i hc
      cases h
      exact .arrive hc.1 hc.2
    · cases h
  | step i =>
    obtain ⟨t, hi, h⟩ := Option.bind_eq_some_iff.1 h
    split at h
    · rename_i op next hp
      cases h
      exact .store hi hp
    · rename_i id next hp
      cases h
      exact .answer (.getNode id) hi hp fun n hn => ClusterManager.getNode_id hn
    · cases h
  | deliver i =>
    obtain ⟨t, hi, h⟩ := Option.bind_eq_some_iff.1 h
    split at h
    · rename_i node req next hw hp
      obtain ⟨req', hreq, h⟩ := Option.bind_eq_some_iff.1 h
      cases h
      exact .forward hi hp hreq
    · cases h
  | respond i =>
    obtain ⟨t, hi, h⟩ := Option.bind_eq_some_iff.1 h
    obtain ⟨j, -, h⟩ := Option.bind_eq_some_iff.1 h
    obtain ⟨callee, -, h⟩ := Option.bind_eq_some_iff.1 h
    split at h
    · rename_i node req next resp hp hresp
      cases h
      exact .answer (.forward node req) hi hp trivial
    · cases h
  | fail i =>
    obtain ⟨t, hi, h⟩ := Option.bind_eq_some_iff.1 h
    split at h
    · rename_i node req next hp
      cases h
      exact .answer (.forward node req) hi hp trivial
    · cases h
  | setStatus a b status =>
    cases h
    exact .views _

/-! ## What the handlers call -/

/-- The calls the tasks at a node make: it stores only what a client has sent and only as a replica
of the key, and forwards only the like to other nodes of the cluster. -/
def Allowed (c : Cluster) (sent : List Request) (self : NodeId) : ClusterCall → Prop
  | .store (.put key value) => self ∈ c.replicas key ∧ ⟨.put, key, value⟩ ∈ sent
  | .forward node req => node.id ∈ c.ids ∧ req.FitsFrame ∧ (req.command = .put → req ∈ sent)
  | _ => True

section Handlers

open ReplicationManager

variable {c : Cluster} {sent : List Request} {self : NodeId}

theorem always_liveNodes : ∀ ids : List NodeId,
    (liveNodes ids).Always (Allowed c sent self) Answer fun nodes => ∀ n ∈ nodes, n.id ∈ ids
  | [] => fun n hn => by cases hn
  | id :: ids => by
    refine ⟨trivial, fun node hnode => ?_⟩
    refine (always_liveNodes ids).bind ?_
    intro rest hrest n hn
    rcases List.mem_append.1 hn with hn | hn
    · have hsome := (Option.filter_eq_some_iff.1 (Option.mem_toList.1 hn)).1
      rw [hnode n hsome]
      exact List.mem_cons_self
    · exact List.mem_cons_of_mem _ (hrest n hn)

theorem always_getReplicaNodes (key : Key) :
    ((c.replication self).getReplicaNodes key (c.replication self).replicationFactor).Always
      (Allowed c sent self) Answer fun nodes => ∀ n ∈ nodes, n.id ∈ c.replicas key := by
  unfold getReplicaNodes
  rw [Cluster.replication_ring]
  exact always_liveNodes _

theorem always_replicateToNodes {m : ReplicationManager} {req : Request} : ∀ {nodes : List NodeInfo},
    (∀ n ∈ nodes, Allowed c sent self (.forward n req)) →
      (m.replicateToNodes req nodes).Always (Allowed c sent self) Answer fun _ => True
  | [], _ => trivial
  | node :: nodes, h => by
    have ih := always_replicateToNodes (m := m) fun n hn => h n (List.mem_cons_of_mem _ hn)
    unfold replicateToNodes
    split
    · refine ⟨h node List.mem_cons_self, fun resp _ => ?_⟩
      exact ih.bind fun _ _ => trivial
    · exact ih

theorem always_tryReplicas {m : ReplicationManager} {key : Key} : ∀ {nodes : List NodeInfo},
    (∀ n ∈ nodes, Allowed c sent self (.forward n ⟨.get, key, []⟩)) →
      (m.tryReplicas key nodes).Always (Allowed c sent self) Answer fun _ => True
  | [], _ => trivial
  | node :: nodes, h => by
    have hask : (m.askReplica key node).Always (Allowed c sent self) Answer fun _ => True := by
      unfold askReplica
      split
      · exact ⟨trivial, fun _ _ => trivial⟩
      · exact ⟨h node List.mem_cons_self, fun _ _ => trivial⟩
    refine hask.bind fun resp _ => ?_
    split
    · trivial
    · exact always_tryReplicas fun n hn => h n (List.mem_cons_of_mem _ hn)

/-- A write: the local operation is run at a replica only. -/
theorem always_coordinate (hself : self ∈ c.ids) {op : ClusterHandler Response} {accepted : Response → Bool}
    {req : Request} (hop : self ∈ c.replicas req.key → op.Always (Allowed c sent self) Answer fun _ => True)
    (hfit : req.FitsFrame) (hput : req.command = .put → req ∈ sent) :
    ((c.replication self).coordinate op accepted req).Always (Allowed c sent self) Answer fun _ => True := by
  refine (always_getReplicaNodes req.key).bind fun nodes hnodes => ?_
  have hlocal : ((c.replication self).localAcks op accepted nodes).Always (Allowed c sent self) Answer
      fun _ => True := by
    unfold localAcks
    split
    · -- the node is in the list, so it is a replica
      rename_i hany
      obtain ⟨n, hn, hid⟩ := List.any_eq_true.1 hany
      rw [Cluster.replication_selfNode hself, decide_eq_true_eq] at hid
      exact (hop (hid ▸ hnodes n hn)).bind fun _ _ => trivial
    · trivial
  refine hlocal.bind fun _ _ => ?_
  refine (always_replicateToNodes fun n hn => ?_).bind fun _ _ => trivial
  exact ⟨Cluster.mem_ids_of_replicas (hnodes n hn), hfit, hput⟩

theorem always_clusterHandler (hself : self ∈ c.ids) {req : Request} (hfit : req.FitsFrame)
    (hput : req.command = .put → req ∈ sent) :
    ((c.replication self).clusterHandler req).Always (Allowed c sent self) Answer fun _ => True := by
  obtain ⟨command, key, value⟩ := req
  cases command with
  | put =>
    refine always_coordinate hself (fun hrep => ?_) hfit hput
    exact ⟨⟨hrep, hput rfl⟩, fun _ _ => trivial⟩
  | get =>
    show ((c.replication self).handleGet key).Always _ _ _
    unfold handleGet
    split
    · exact ⟨trivial, fun _ _ => trivial⟩
    · refine (always_getReplicaNodes key).bind fun nodes hnodes => ?_
      refine always_tryReplicas fun n hn => ?_
      exact ⟨Cluster.mem_ids_of_replicas (hnodes n hn), hfit.withoutValue, fun h => by cases h⟩
  | delete =>
    refine always_coordinate hself (fun _ => ?_) hfit.withoutValue fun h => by cases h
    exact ⟨trivial, fun _ _ => trivial⟩
  | ping => trivial
  | other b hb => trivial

theorem Allowed.mono {sent' : List Request} (hsub : ∀ r ∈ sent, r ∈ sent') :
    ∀ call, Allowed c sent self call → Allowed c sent' self call
  | .store (.put _ _), h => ⟨h.1, hsub _ h.2⟩
  | .store (.get _), _ => trivial
  | .store (.del _), _ => trivial
  | .store (.append _), _ => trivial
  | .getNode _, _ => trivial
  | .forward _ _, h => ⟨h.1, h.2.1, fun hp => hsub _ (h.2.2 hp)⟩

end Handlers

/-! ## Placement -/

/-- What holds in every state: the tasks make allowed calls, and every pair of a store was sent by
a client, is within the limits and lies at a replica of its key. -/
structure Sound (c : Cluster) (s : System) : Prop where
  calls : ∀ t ∈ s.tasks, t.prog.Always (Allowed c s.sent t.node) Answer fun _ => True
  placed : ∀ id key value, (s.nodes id).store.data.lookup key = some value →
    id ∈ c.replicas key ∧ ⟨.put, key, value⟩ ∈ s.sent ∧ KVStore.Accepts key value

/-- A pair in a store was there before, or is the pair put. -/
theorem lookup_exec {op : StoreCall} {p : Process} {key : Key} {value : Value}
    (h : (op.exec p).2.store.data.lookup key = some value) :
    p.store.data.lookup key = some value ∨ op = .put key value ∧ KVStore.Accepts key value := by
  cases op with
  | put k v =>
    by_cases hacc : KVStore.Accepts k v
    · simp only [StoreCall.exec, KVStore.put_ok hacc, lookup_write] at h
      split at h
      · rename_i e
        cases h
        subst e
        exact Or.inr ⟨rfl, hacc⟩
      · exact Or.inl h
    · simp only [StoreCall.exec, (KVStore.put_refused hacc p.store).2.2] at h
      exact Or.inl h
  | get k => exact Or.inl h
  | del k =>
    simp only [StoreCall.exec, KVStore.del_data, lookup_write] at h
    split at h
    · cases h
    · exact Or.inl h
  | append e => exact Or.inl h

theorem Sound.resume {c : Cluster} {s : System} (h : Sound c s) {i : Nat} {t : Task} (hi : s.tasks[i]? = some t)
    {call : ClusterCall} {next : call.Res → ClusterHandler Response} (hp : t.prog = .call call next) {r : call.Res}
    (hr : Answer call r) :
    ∀ t' ∈ (s.resume i t (next r)).tasks, t'.prog.Always (Allowed c s.sent t'.node) Answer fun _ => True := by
  have hcalls := h.calls t (List.mem_of_getElem? hi)
  rw [hp] at hcalls
  exact Slots.all_set h.calls (hcalls.2 r hr)

/-- Every step keeps it. -/
theorem Sound.move {c : Cluster} {s s' : System} (h : Sound c s) (hm : Moves c s s') : Sound c s' := by
  cases hm with
  | arrive hid hfit =>
    rename_i id req
    have hsub : ∀ r ∈ s.sent, r ∈ s.sent ++ [req] := fun r hr => List.mem_append_left _ hr
    constructor
    · intro t ht
      rcases List.mem_append.1 ht with ht | ht
      · exact (h.calls t ht).mono (Allowed.mono hsub)
      · rw [List.mem_singleton.1 ht]
        exact always_clusterHandler hid hfit fun _ => by simp
    · intro id' key value hv
      obtain ⟨hrep, hsent, hacc⟩ := h.placed id' key value hv
      exact ⟨hrep, hsub _ hsent, hacc⟩
  | store hi hp =>
    -- one store changes, by at most the pair of a put
    rename_i i t op next
    refine ⟨h.resume hi hp trivial, ?_⟩
    intro id key value hv
    change ((Function.update s.nodes t.node (op.exec (s.nodes t.node)).2) id).store.data.lookup key = some value at hv
    by_cases hid : id = t.node
    · subst hid
      rw [Function.update_self] at hv
      rcases lookup_exec hv with hv | ⟨rfl, hacc⟩
      · exact h.placed t.node key value hv
      · -- the put of a task is an allowed call
        have hcalls := h.calls t (List.mem_of_getElem? hi)
        rw [hp] at hcalls
        exact ⟨hcalls.1.1, hcalls.1.2, hacc⟩
    · rw [Function.update_of_ne hid] at hv
      exact h.placed id key value hv
  | answer call hi hp hr => exact ⟨h.resume hi hp hr, h.placed⟩
  | forward hi hp hreq =>
    rename_i i t node req req' next
    have hcalls := h.calls t (List.mem_of_getElem? hi)
    have hallowed := hcalls
    rw [hp] at hallowed
    obtain ⟨hid, hfit, hput⟩ := hallowed.1
    -- the frame carries the request unchanged, so the new task handles what a client has sent
    rw [receiveRequest_sent hfit] at hreq
    cases hreq
    refine ⟨fun t' ht' => ?_, h.placed⟩
    rcases List.mem_append.1 ht' with ht' | ht'
    · rcases List.mem_or_eq_of_mem_set ht' with hmem | rfl
      · exact h.calls t' hmem
      · exact hcalls
    · rw [List.mem_singleton.1 ht']
      exact always_clusterHandler hid hfit hput
  | views views => exact ⟨h.calls, h.placed⟩

theorem Reachable.sound {c : Cluster} {s : System} (h : Reachable c s) : Sound c s := by
  obtain ⟨es, hruns⟩ := h
  have hstart : Sound c start := by
    constructor
    · intro t ht
      cases ht
    · intro id key value hv
      cases hv
  exact hruns.invariant (fun s e s' hs _ he => hs.move (step_moves he)) hstart

/-! ## A task on its own -/

/-- What surrounds a task at a node while all its connections fail. -/
def cutOff (c : Cluster) (self : NodeId) (view : NodeId → NodeStatus) : Surroundings :=
  .ofViews (c.manager self) (fun _ => view) fun _ _ _ => ⟨.nodeUnavailable, []⟩

theorem getElem?_resume {s : System} {i : Nat} {t : Task} (h : s.tasks[i]? = some t)
    (prog : ClusterHandler Response) :
    (s.resume i t prog).tasks[i]? = some { t with waitsFor := none, prog := prog } :=
  List.getElem?_set_self (List.getElem?_eq_some_iff.1 h).1

/-- The steps of a task whose connections all fail execute its program. -/
theorem runs_alone {c : Cluster} {i : Nat} {self : NodeId} {view : NodeId → NodeStatus} :
    ∀ (prog : ClusterHandler Response) (k : Nat) {s : System} {waits : Option Nat},
      s.tasks[i]? = some ⟨self, waits, prog⟩ → s.views self = view →
      ∃ es s', Runs (step c) (fun _ _ => True) s es s' ∧
        s'.nodes = Function.update s.nodes self (prog.exec (cutOff c self view).env (k, s.nodes self)).2.2
  | .ret resp, k, s, waits, _, _ => ⟨[], s, .refl, (Function.update_eq_self _ _).symm⟩
  | .call (.store op) next, k, s, waits, hi, hview => by
    have hstep : s.step c (.step i) = some ((s.operate self op).resume i ⟨self, waits, .call (.store op) next⟩
        (next (op.exec (s.nodes self)).1)) := by
      simp only [step, hi, Option.bind_eq_bind, Option.bind_some]
    obtain ⟨es, s', hruns, hnodes⟩ := runs_alone (next (op.exec (s.nodes self)).1) (k + 1)
      (getElem?_resume (s := s.operate self op) hi _) hview
    refine ⟨_, s', hruns.cons trivial hstep, ?_⟩
    change s'.nodes = Function.update (Function.update s.nodes self _) self
      (Prog.exec _ _ (k + 1, Function.update s.nodes self _ self)).2.2 at hnodes
    rw [Function.update_idem, Function.update_self] at hnodes
    exact hnodes
  | .call (.getNode id) next, k, s, waits, hi, hview => by
    have hstep : s.step c (.step i) = some (s.resume i ⟨self, waits, .call (.getNode id) next⟩
        (next (((c.manager self).withView view).getNode id))) := by
      simp only [step, hi, Option.bind_eq_bind, Option.bind_some, hview]
    obtain ⟨es, s', hruns, hnodes⟩ := runs_alone (next (((c.manager self).withView view).getNode id)) (k + 1)
      (getElem?_resume hi _) hview
    exact ⟨_, s', hruns.cons trivial hstep, hnodes⟩
  | .call (.forward node req) next, k, s, waits, hi, hview => by
    have hstep : s.step c (.fail i) = some (s.resume i ⟨self, waits, .call (.forward node req) next⟩
        (next ⟨.nodeUnavailable, []⟩)) := by
      simp only [step, hi, Option.bind_eq_bind, Option.bind_some]
    obtain ⟨es, s', hruns, hnodes⟩ := runs_alone (next ⟨.nodeUnavailable, []⟩) (k + 1) (getElem?_resume hi _) hview
    exact ⟨_, s', hruns.cons trivial hstep, hnodes⟩

/-! ## What the clients sent -/

/-- Only a client's request is recorded as sent. -/
theorem step_sent {c : Cluster} {s s' : System} {e : SystemEvent} (h : s.step c e = some s') :
    s'.sent = s.sent ∨ ∃ id req, e = .client id req ∧ id ∈ c.ids ∧ s'.sent = s.sent ++ [req] := by
  cases e with
  | client id req =>
    simp only [step] at h
    split at h
    · rename_i hc
      cases h
      exact Or.inr ⟨id, req, rfl, hc.1, rfl⟩
    · cases h
  | step i =>
    obtain ⟨t, -, h⟩ := Option.bind_eq_some_iff.1 h
    split at h
    · cases h
      exact Or.inl rfl
    · cases h
      exact Or.inl rfl
    · cases h
  | deliver i =>
    obtain ⟨t, -, h⟩ := Option.bind_eq_some_iff.1 h
    split at h
    · obtain ⟨req', -, h⟩ := Option.bind_eq_some_iff.1 h
      cases h
      exact Or.inl rfl
    · cases h
  | respond i =>
    obtain ⟨t, -, h⟩ := Option.bind_eq_some_iff.1 h
    obtain ⟨j, -, h⟩ := Option.bind_eq_some_iff.1 h
    obtain ⟨callee, -, h⟩ := Option.bind_eq_some_iff.1 h
    split at h
    · cases h
      exact Or.inl rfl
    · cases h
  | fail i =>
    obtain ⟨t, -, h⟩ := Option.bind_eq_some_iff.1 h
    split at h
    · cases h
      exact Or.inl rfl
    · cases h
  | setStatus a b status =>
    cases h
    exact Or.inl rfl

theorem client_of_sent {c : Cluster} {s : System} {es : List SystemEvent}
    (h : Runs (step c) (fun _ _ => True) start es s) {req : Request} (hr : req ∈ s.sent) :
    ∃ id ∈ c.ids, SystemEvent.client id req ∈ es := by
  induction h with
  | refl => cases hr
  | @snoc es s₁ s₂ e _ _ hs ih =>
    have hold : req ∈ s₁.sent → ∃ id ∈ c.ids, SystemEvent.client id req ∈ es ++ [e] := by
      intro hr
      obtain ⟨id, hid, hmem⟩ := ih hr
      exact ⟨id, hid, List.mem_append_left _ hmem⟩
    rcases step_sent hs with hsame | ⟨id, req', rfl, hid, hnew⟩
    · rw [hsame] at hr
      exact hold hr
    · rw [hnew] at hr
      rcases List.mem_append.1 hr with hr | hr
      · exact hold hr
      · rw [List.mem_singleton.1 hr]
        exact ⟨id, hid, List.mem_append_right _ List.mem_cons_self⟩

end System

/-! ## A write that reaches one node -/

/-- The state after a PUT whose coordinator, a replica of the key, reaches no other node: the pair
is in its store only. -/
theorem reachable_lone_put {c : Cluster} {self : NodeId} {key : Key} {value : Value} (hrep : self ∈ c.replicas key)
    (hfit : (Request.mk .put key value).FitsFrame) :
    ∃ s, System.Reachable c s ∧ s.nodes = Function.update System.start.nodes self
      ⟨(KVStore.empty.put key value).2, Disk.empty⟩ := by
  have hself := Cluster.mem_ids_of_replicas hrep
  have hclient : System.start.step c (.client self ⟨.put, key, value⟩) = some
      ⟨System.start.nodes, System.start.views, [⟨self, none, (c.replication self).clusterHandler ⟨.put, key, value⟩⟩],
        [⟨.put, key, value⟩]⟩ := if_pos ⟨hself, hfit⟩
  obtain ⟨es, s, hruns, hnodes⟩ := System.runs_alone (c := c) (i := 0)
    ((c.replication self).clusterHandler ⟨.put, key, value⟩) 0 (s := ⟨System.start.nodes, System.start.views,
    [⟨self, none, (c.replication self).clusterHandler ⟨.put, key, value⟩⟩], [⟨.put, key, value⟩]⟩) rfl rfl
  refine ⟨s, ⟨_, hruns.cons trivial hclient⟩, ?_⟩
  -- executed on its own, the write stores the pair and every forwarded copy fails
  have hlive : (c.replication self).LiveReplica (System.cutOff c self (System.start.views self)) key :=
    Cluster.liveReplica hrep (fun _ _ h => by cases h) _
  have hexec := (c.replication self).exec_coordinate (System.cutOff c self (System.start.views self))
    (localPut key value) (fun p => { p with store := (p.store.put key value).2 }) (fun _ _ => rfl)
    (fun resp => resp.status = .ok) ⟨.put, key, value⟩ (System.start.nodes self)
  rw [if_pos hlive] at hexec
  rw [hnodes]
  exact congrArg _ hexec

/-! ## Placement and integrity -/

/-- In every state a cluster gets into by client requests, forwarded requests, responses, failing
connections and changes of the views in any order: a pair in a store lies at one of the first
nodes of the key's preference list, a client has sent a PUT of exactly this pair, and it is within
the size limits. -/
theorem stored_pair_placed (c : Cluster) {es : List SystemEvent} {s : System}
    (h : Runs (System.step c) (fun _ _ => True) System.start es s) {id : NodeId} {key : Key} {value : Value}
    (hv : (s.nodes id).store.data.lookup key = some value) :
    id ∈ (ringOf c.config).getNodes key c.replicationFactor ∧
      id ∈ ((ringOf c.config).preferenceList key).take c.replicationFactor ∧
      (∃ a ∈ c.ids, SystemEvent.client a ⟨.put, key, value⟩ ∈ es) ∧ key.length ≤ 256 ∧ value.length ≤ 65536 := by
  have hsound := System.Reachable.sound ⟨es, h⟩
  obtain ⟨hrep, hsent, hkey, hvalue⟩ := hsound.placed id key value hv
  refine ⟨hrep, ?_, System.client_of_sent h hsent, hkey, hvalue⟩
  rw [← ConsistentHashRing.getNodes_eq]
  exact hrep

/-- The pair that a PUT of `"k"` at `"a"` leaves in the store of `"a"`. -/
theorem stored_pair_placed_atA : ∃ es s, Runs (System.step threeNodes) (fun _ _ => True) System.start es s ∧
    (s.nodes [97]).store.data.lookup [107] = some [118] ∧
      ∃ a ∈ threeNodes.ids, SystemEvent.client a ⟨.put, [107], [118]⟩ ∈ es := by
  have hrep : [97] ∈ threeNodes.replicas [107] := by
    rw [threeNodes_replicas]
    decide
  have hfit : (Request.mk .put [107] [118]).FitsFrame := by decide
  obtain ⟨s, ⟨es, hruns⟩, hnodes⟩ := reachable_lone_put hrep hfit
  have hv : (s.nodes [97]).store.data.lookup [107] = some [118] := by
    rw [hnodes, Function.update_self]
    rfl
  exact ⟨es, s, hruns, hv, (stored_pair_placed threeNodes hruns hv).2.2.1⟩

end KvStore
