/-
A cluster of one replica a key, with the thread pools of its servers. The handler of a node makes at most
three calls and forwards a request to the owner of the key only, which forwards nothing, so the workers of
the owner wait for nobody (`Direct`). What the nodes do without their clients then ends after a number of
steps that the connections bound, deaths of nodes included. A client of a living node is answered if each
living node has a worker left besides those for its other clients, and no node dies if nobody has left with
a request outstanding (`sharded_answered`).
-/
import KvStore.Cluster.Workers

namespace KvStore

open Bytes Program Protocol Machine

/-! ## What the handlers call -/

section Handlers

open ReplicationManager

variable {c : Cluster} {self : NodeId} {key : Key}

/-- A request about the key goes to its owner only, and not from there. -/
def ToOwner (c : Cluster) (key : Key) (self : NodeId) : ClusterCall → Prop
  | .forward node req => req.key = key ∧ node.id = c.primary key ∧ node.id ≠ self
  | _ => True

/-- No request is forwarded. -/
def Stays : ClusterCall → Prop
  | .forward _ _ => False
  | _ => True

/-- The owner of the key forwards nothing. -/
theorem ToOwner.stays (hself : self = c.primary key) : ∀ call, ToOwner c key self call → Stays call
  | .store _, _ => trivial
  | .getNode _, _ => trivial
  | .forward _ _, ⟨_, hid, hne⟩ => hne (hid.trans hself.symm)

theorem toOwner_getReplicaNodes (hrf : c.replicationFactor = 1) (key : Key) :
    ((c.replication self).getReplicaNodes key (c.replication self).replicationFactor).Within (ToOwner c key self)
      System.Answer 1 fun nodes => nodes.length ≤ 1 ∧ ∀ n ∈ nodes, n.id = c.primary key := by
  rw [Sharded.getReplicaNodes_of_one hrf]
  refine ⟨trivial, fun node hnode => ?_⟩
  simp only [Prog.Within, List.append_nil]
  refine ⟨Option.length_toList_le, fun n hn => ?_⟩
  exact hnode n (Option.filter_eq_some_iff.1 (Option.mem_toList.1 hn)).1

theorem toOwner_replicateToNodes (hself : self ∈ c.ids) {req : Request} : ∀ {nodes : List NodeInfo},
    (∀ n ∈ nodes, n.id = c.primary req.key) →
      ((c.replication self).replicateToNodes req nodes).Within (ToOwner c req.key self) System.Answer nodes.length
        fun _ => True
  | [], _ => trivial
  | node :: nodes, h => by
    obtain ⟨hnode, hnodes⟩ := List.forall_mem_cons.1 h
    have ih := toOwner_replicateToNodes hself hnodes
    unfold replicateToNodes
    rw [Cluster.replication_selfNode hself]
    split
    · rename_i hne
      refine ⟨⟨rfl, hnode, hne⟩, fun resp _ => ?_⟩
      exact ih.bind (k := 0) fun _ _ => trivial
    · exact ih.weaken (Nat.le_succ _) (fun _ h => h) fun _ h => h

theorem toOwner_tryReplicas (hself : self ∈ c.ids) : ∀ {nodes : List NodeInfo},
    (∀ n ∈ nodes, n.id = c.primary key) →
      ((c.replication self).tryReplicas key nodes).Within (ToOwner c key self) System.Answer nodes.length
        fun _ => True
  | [], _ => trivial
  | node :: nodes, h => by
    obtain ⟨hnode, hnodes⟩ := List.forall_mem_cons.1 h
    have hask : ((c.replication self).askReplica key node).Within (ToOwner c key self) System.Answer 1
        fun _ => True := by
      unfold askReplica
      rw [Cluster.replication_selfNode hself]
      split
      · exact ⟨trivial, fun _ _ => trivial⟩
      · rename_i hne
        exact ⟨⟨rfl, hnode, hne⟩, fun _ _ => trivial⟩
    rw [List.length_cons, Nat.add_comm]
    refine hask.bind fun resp _ => ?_
    split
    · trivial
    · exact toOwner_tryReplicas hself hnodes

theorem toOwner_coordinate (hrf : c.replicationFactor = 1) (hself : self ∈ c.ids) (op : ClusterHandler Response)
    (accepted : Response → Bool) (req : Request)
    (hop : op.Within (ToOwner c req.key self) System.Answer 1 fun _ => True) :
    ((c.replication self).coordinate op accepted req).Within (ToOwner c req.key self) System.Answer 3
      fun _ => True := by
  refine (toOwner_getReplicaNodes hrf req.key).bind (k := 2) fun nodes hnodes => ?_
  have hlocal : ((c.replication self).localAcks op accepted nodes).Within (ToOwner c req.key self) System.Answer 1
      fun _ => True := by
    unfold localAcks
    split
    · exact hop.bind (k := 0) fun _ _ => trivial
    · trivial
  refine hlocal.bind (k := 1) fun _ _ => ?_
  have hothers := toOwner_replicateToNodes hself hnodes.2
  exact (hothers.weaken hnodes.1 (fun _ h => h) fun _ h => h).bind (k := 0) fun _ _ => trivial

/-- A request costs three calls at most, and is relayed to the owner of its key only. -/
theorem toOwner_clusterHandler (hrf : c.replicationFactor = 1) (hself : self ∈ c.ids) (req : Request) :
    ((c.replication self).clusterHandler req).Within (ToOwner c req.key self) System.Answer 3 fun _ => True := by
  obtain ⟨command, key, value⟩ := req
  cases command with
  | put => exact toOwner_coordinate hrf hself _ _ ⟨.put, key, value⟩ ⟨trivial, fun _ _ => trivial⟩
  | delete => exact toOwner_coordinate hrf hself _ _ ⟨.delete, key, []⟩ ⟨trivial, fun _ _ => trivial⟩
  | get =>
    show ((c.replication self).handleGet key).Within _ _ _ _
    unfold handleGet
    split
    · exact ⟨trivial, fun _ _ => trivial⟩
    · refine (toOwner_getReplicaNodes hrf key).bind (k := 2) fun nodes hnodes => ?_
      exact (toOwner_tryReplicas hself hnodes.2).weaken (hnodes.1.trans one_le_two) (fun _ h => h) fun _ h => h
  | ping => trivial
  | other b hb => trivial

end Handlers

/-! ## Forwarded once -/

/-- What a connection knows of its task: it forwards to the owner of a key, and nothing if the connection comes
from another node. -/
structure Handles (c : Cluster) (conn : Connection) (t : Task) : Prop where
  toOwner : ∃ key, t.prog.Within (ToOwner c key conn.node) System.Answer 3 fun _ => True
  stays : conn.caller ≠ none → t.prog.Always Stays System.Answer fun _ => True

theorem lasting_handles {c : Cluster} (hrf : c.replicationFactor = 1) : Lasting c (Handles c) where
  same hnode hcaller h := by
    obtain ⟨htoOwner, hstays⟩ := h
    rw [← hnode] at htoOwner
    rw [← hcaller] at hstays
    exact ⟨htoOwner, hstays⟩
  waits _ h := ⟨h.toOwner, h.stays⟩
  resume h hp hr := by
    obtain ⟨⟨key, hkey⟩, hstays⟩ := h
    rw [hp] at hkey hstays
    exact ⟨⟨key, (hkey.2 _ hr).weaken (Nat.le_succ 2) (fun _ h => h) fun _ h => h⟩, fun hne => (hstays hne).2 _ hr⟩
  send {conn req} hcaller hid := ⟨⟨req.key, toOwner_clusterHandler hrf hid req⟩, fun hne => absurd hcaller hne⟩
  forward {conn conn' t node req next} h hp hid hnode := by
    obtain ⟨key, hkey⟩ := h.toOwner
    rw [hp] at hkey
    obtain ⟨rfl, hprimary, -⟩ := hkey.1
    -- the request is at the owner of its key now
    have hhandler := toOwner_clusterHandler hrf hid req
    rw [← hnode] at hhandler hprimary ⊢
    exact ⟨⟨req.key, hhandler⟩, fun _ => hhandler.always.mono (ToOwner.stays hprimary)⟩

namespace Deployment

variable {c : Cluster} {n : Nat} {d d' : Deployment} {e : DeploymentEvent}

/-- Forwarded requests go from one node to another one, and no further. -/
structure Direct (c : Cluster) (d : Deployment) : Prop where
  handles : Serves (Handles c) d.conns d.system.tasks
  apart : ∀ k k', (d.conns k').caller = some k → k < d.opened ∧ (d.conns k').node ≠ (d.conns k).node

/-- Connections that keep their node and their caller stay apart. -/
theorem apart_congr (h : ∀ k k', (d.conns k').caller = some k → k < d.opened ∧ (d.conns k').node ≠ (d.conns k).node)
    (hopened : d'.opened = d.opened)
    (hsame : ∀ k, ((d'.conns k).node, (d'.conns k).caller) = ((d.conns k).node, (d.conns k).caller)) :
    ∀ k k', (d'.conns k').caller = some k → k < d'.opened ∧ (d'.conns k').node ≠ (d'.conns k).node := by
  intro k k' hcaller
  obtain ⟨hnode, -⟩ := Prod.mk.inj (hsame k)
  obtain ⟨hnode', hcaller'⟩ := Prod.mk.inj (hsame k')
  rw [hcaller'] at hcaller
  rw [hopened, hnode, hnode']
  exact h k k' hcaller

theorem apart_add (h : ∀ k k', (d.conns k').caller = some k → k < d.opened ∧ (d.conns k').node ≠ (d.conns k).node)
    {conn : Connection} (hconn : ∀ k, conn.caller = some k → k < d.opened ∧ conn.node ≠ (d.conns k).node) :
    ∀ k k', ((d.add conn).conns k').caller = some k →
      k < (d.add conn).opened ∧ ((d.add conn).conns k').node ≠ ((d.add conn).conns k).node := by
  intro k k' hcaller
  -- whoever called did so before
  have hlt : k < d.opened ∧ ((d.add conn).conns k').node ≠ (d.conns k).node := by
    by_cases hk' : k' = d.opened
    · rw [hk', add_self] at hcaller ⊢
      exact hconn k hcaller
    · rw [add_of_ne hk'] at hcaller ⊢
      exact h k k' hcaller
  rw [add_of_ne hlt.1.ne]
  exact ⟨hlt.1.trans (Nat.lt_succ_self _), hlt.2⟩

/-- Where a request is forwarded, it goes to another node. -/
theorem Direct.target_ne (hd : Direct c d) {k i : Nat} {t : Task} (htask : (d.conns k).task = some i)
    (ht : d.system.tasks[i]? = some t) {node : NodeInfo} {req : Request} {next : Response → ClusterHandler Response}
    (hp : t.prog = .call (.forward node req) next) : node.id ≠ (d.conns k).node := by
  obtain ⟨key, hkey⟩ := (hd.handles k i t htask ht).toOwner
  rw [hp] at hkey
  exact hkey.1.2.2

theorem Takes.apart (h : Takes c n d e d') (hs : Sound c n d) (hd : Direct c d) :
    ∀ k k', (d'.conns k').caller = some k → k < d'.opened ∧ (d'.conns k').node ≠ (d'.conns k).node := by
  have hapart := hd.apart
  cases h with
  | connect => exact apart_add hapart fun k hk => by cases hk
  | send | take | finish | hangUp | leave =>
    exact apart_congr hapart rfl (setConn_congr (fun conn => (conn.node, conn.caller)) rfl)
  | work => exact hapart
  | forward hi hstep ht =>
    rename_i k i s t' _
    obtain ⟨-, -, htask⟩ := current_eq_some.1 hi
    obtain ⟨t, node, req, next, hti, -, hp, -, htasks⟩ := hs.system.step_deliver hstep
    rw [htasks, System.getElem?_concat_set] at ht
    cases ht
    refine apart_add hapart fun j hj => ?_
    cases hj
    exact ⟨hs.wired.lt_opened htask, hd.target_ne htask hti hp⟩
  | respond =>
    rename_i caller j t resp s _ _ _ _ _ _ _
    have hended : ∀ k k', ((d.endCall caller).conns k').caller = some k →
        k < d.opened ∧ ((d.endCall caller).conns k').node ≠ ((d.endCall caller).conns k).node :=
      apart_congr hapart rfl (endCall_congr (fun conn => (conn.node, conn.caller)) (fun _ => rfl) caller)
    exact apart_congr hended rfl (setConn_congr (fun conn => (conn.node, conn.caller)) rfl)
  | lose | fail =>
    exact apart_congr hapart rfl (endCall_congr (fun conn => (conn.node, conn.caller)) (fun _ => rfl) _)
  | kill | crash => exact apart_congr hapart rfl (die_congr (fun conn => (conn.node, conn.caller)) (fun _ => rfl) _)
  | status hstep =>
    cases hstep
    exact hapart

theorem Direct.takes (hrf : c.replicationFactor = 1) (hd : Direct c d) (hs : Sound c n d) (h : Takes c n d e d') :
    Direct c d' :=
  ⟨h.serves (lasting_handles hrf) hs.system hs.wired.known hd.handles, h.apart hs hd⟩

theorem Direct.start : Direct c start where
  handles := fun k i t hi => by cases hi
  apart := fun k k' hcaller => by cases hcaller

theorem direct_of_runs (hrf : c.replicationFactor = 1) {es : List DeploymentEvent}
    (h : Runs (step c n) (fun _ _ => True) start es d) : Direct c d ∧ Sound c n d := by
  refine h.invariant (I := fun d => Direct c d ∧ Sound c n d) ?_ ⟨.start, .start⟩
  rintro d₁ e d₂ ⟨hd, hs⟩ - he
  exact ⟨hd.takes hrf hs (step_takes he), hs.takes (step_takes he)⟩

/-! ## At rest -/

/-- The clients of a node that are connected or have a request outstanding. -/
def clients (d : Deployment) (id : NodeId) : Finset Nat :=
  (Finset.range d.opened).filter fun k =>
    (d.conns k).caller = none ∧ (d.conns k).node = id ∧ ((d.conns k).connected = true ∨ (d.conns k).task ≠ none)

/-- A worker that serves another node does not wait. -/
theorem Quiet.idle_of_caller (hq : Quiet c n d) (hs : Sound c n d) (hd : Direct c d) {k : Nat}
    (hplace : (d.conns k).place = .worker) (hlive : d.Alive k) (hcaller : (d.conns k).caller ≠ none) :
    (d.conns k).task = none := by
  by_contra htask
  obtain ⟨i, hi⟩ := Option.ne_none_iff_exists'.1 htask
  obtain ⟨k', -, ⟨hcaller', hopen'⟩, -⟩ := hq.waits hs hplace hlive hi
  obtain ⟨i', j, hi', hj, -⟩ := hs.wired.called k k' hcaller' hopen'
  rw [hi] at hi'
  cases hi'
  obtain ⟨t, ht, hw⟩ := Option.bind_eq_some_iff.1 hj
  obtain ⟨node, req, next, hp⟩ :=
    hs.system.forwards (List.mem_of_getElem? ht) (by rw [hw]; exact Option.some_ne_none j)
  have hstays := (hd.handles k i t hi ht).stays hcaller
  rw [hp] at hstays
  exact hstays.1

/-- Whoever has a worker of a living node, when nothing moves, is a client. -/
theorem Quiet.taken_subset (hq : Quiet c n d) (hs : Sound c n d) (hd : Direct c d) {k : Nat} (hlive : d.Alive k) :
    d.taken (d.conns k).node ⊆ d.clients (d.conns k).node := by
  intro m hm
  have hmlive := alive_of_taken hlive hm
  obtain ⟨hlt, hplace, hnode⟩ := Finset.mem_filter.1 hm
  rcases hq.worker hs hplace hmlive with ⟨hcaller, hopen, -⟩ | ⟨m', hcaller', hopen'⟩
  · exact Finset.mem_filter.2 ⟨hlt, hcaller, hnode, .inl hopen⟩
  · obtain ⟨i, j, hi, -⟩ := hs.wired.called m m' hcaller' hopen'
    have htask : (d.conns m).task ≠ none := by
      rw [hi]
      exact Option.some_ne_none i
    refine Finset.mem_filter.2 ⟨hlt, ?_, hnode, .inr htask⟩
    by_contra hcaller
    exact htask (hq.idle_of_caller hs hd hplace hmlive hcaller)

/-- A client that waits does so in a queue, its own or that of the request it has had forwarded, and does not
have a worker there. -/
theorem Quiet.queued (hq : Quiet c n d) (hs : Sound c n d) (hd : Direct c d) {k : Nat}
    (htask : (d.conns k).task ≠ none) (hlive : d.Alive k) :
    ∃ k' < d.opened, (d.conns k').place = .queue ∧ d.Alive k' ∧ k ∉ d.taken (d.conns k').node := by
  obtain ⟨i, hi⟩ := Option.ne_none_iff_exists'.1 htask
  cases hplace : (d.conns k).place with
  | queue =>
    refine ⟨k, hs.wired.lt_opened hi, hplace, hlive, fun hmem => ?_⟩
    have hworker := (Finset.mem_filter.1 hmem).2.1
    rw [hplace] at hworker
    cases hworker
  | worker =>
    obtain ⟨k', -, ⟨hcaller, hopen⟩, htask', hlive'⟩ := hq.waits hs hplace hlive hi
    refine ⟨k', hs.wired.lt_opened_of_connected hopen, ?_, hlive', fun hmem => ?_⟩
    · cases hplace' : (d.conns k').place with
      | queue => rfl
      | worker =>
        have hcalled : (d.conns k').caller ≠ none := by
          rw [hcaller]
          exact Option.some_ne_none k
        exact absurd (hq.idle_of_caller hs hd hplace' hlive' hcalled) htask'
      | gone => exact absurd (hs.wired.gone k' hplace').1 htask'
    · exact (hd.apart k k' hcaller).2 (Finset.mem_filter.1 hmem).2.2.symm
  | gone => exact absurd (hs.wired.gone k hplace).1 htask

/-- Nobody waits who leaves a worker to each living node besides those for its other clients. -/
theorem Quiet.answered (hq : Quiet c n d) (hs : Sound c n d) (hd : Direct c d) {k : Nat} (hlive : d.Alive k)
    (hroom : ∀ id, d.dead id = false → ((d.clients id).erase k).card < n) : (d.conns k).task = none := by
  by_contra htask
  obtain ⟨k', hk', hplace, hlive', hmem⟩ := hq.queued hs hd htask hlive
  have hfull := hq.full hs hk' hlive' hplace
  have hsub : d.taken (d.conns k').node ⊆ (d.clients (d.conns k').node).erase k := by
    intro m hm
    refine Finset.mem_erase.2 ⟨?_, hq.taken_subset hs hd hlive' hm⟩
    rintro rfl
    exact hmem hm
  have hle := Finset.card_le_card hsub
  have hlt := hroom (d.conns k').node hlive'
  omega

/-! ## How long it takes -/

def placeWeight : Place → Nat
  | .queue => 2
  | .worker => 1
  | .gone => 0

/-- The steps that a task may take: a call of a client's task may need six steps of the node it is forwarded to. -/
noncomputable def taskWeight (conn : Connection) (t : Task) : Nat :=
  if conn.caller = none then 8 * t.prog.callsLeft System.Answer - (if t.waitsFor = none then 0 else 7)
  else t.prog.callsLeft System.Answer

noncomputable def weight (conn : Connection) (tasks : List Task) : Nat :=
  placeWeight conn.place + conn.task.elim 0 fun i => 1 + tasks[i]?.elim 0 (taskWeight conn)

/-- A dead node takes no more steps. -/
noncomputable def liveWeight (d : Deployment) (k : Nat) : Nat :=
  if d.dead (d.conns k).node then 0 else weight (d.conns k) d.system.tasks

noncomputable def energy (d : Deployment) : Nat := ∑ k ∈ Finset.range d.opened, liveWeight d k

theorem placeWeight_le (place : Place) : placeWeight place ≤ 2 := by
  cases place <;> decide

theorem weight_of_task {conn : Connection} {tasks : List Task} {i : Nat} {t : Task} (hi : conn.task = some i)
    (ht : tasks[i]? = some t) : weight conn tasks = placeWeight conn.place + (1 + taskWeight conn t) := by
  rw [weight, hi, Option.elim_some, ht, Option.elim_some]

theorem weight_le {conn : Connection} {tasks : List Task}
    (h : ∀ i t, conn.task = some i → tasks[i]? = some t → Handles c conn t) : weight conn tasks ≤ 27 := by
  have hplace := placeWeight_le conn.place
  unfold weight
  cases hi : conn.task with
  | none => exact hplace.trans (by decide)
  | some i =>
    rw [Option.elim_some]
    cases ht : tasks[i]? with
    | none =>
      rw [Option.elim_none]
      omega
    | some t =>
      obtain ⟨key, hkey⟩ := (h i t hi ht).toOwner
      have hcalls := hkey.callsLeft_le
      rw [Option.elim_some, taskWeight]
      split <;> omega

/-- Other tasks and later ones do not matter. -/
theorem weight_congr {conn conn' : Connection} {tasks tasks' : List Task} (hplace : conn'.place = conn.place)
    (hcaller : conn'.caller = conn.caller) (htask : conn'.task = conn.task)
    (h : ∀ i, conn.task = some i → tasks'[i]? = tasks[i]?) : weight conn' tasks' = weight conn tasks := by
  unfold weight
  rw [hplace, htask]
  cases hi : conn.task with
  | none => rfl
  | some i =>
    simp only [Option.elim_some, h i hi]
    unfold taskWeight
    rw [hcaller]

theorem taskWeight_resume {conn : Connection} {t : Task} {call : ClusterCall}
    {next : call.Res → ClusterHandler Response} {r : call.Res} (h : Handles c conn t) (hp : t.prog = .call call next)
    (hr : System.Answer call r) :
    taskWeight conn { t with waitsFor := none, prog := next r } < taskWeight conn t := by
  obtain ⟨key, hkey⟩ := h.toOwner
  rw [hp] at hkey
  have hlt := hkey.callsLeft_next hr
  unfold taskWeight
  rw [hp]
  dsimp only
  split_ifs <;> omega

/-- A call that is answered makes its connection lighter, and no other one heavier. -/
theorem weight_resume {s s' : System} {conns : Nat → Connection} {i : Nat} (h : Serves (Handles c) conns s.tasks)
    (hres : System.Resumes s s' i) (k : Nat) : weight (conns k) s'.tasks ≤ weight (conns k) s.tasks ∧
      ((conns k).task = some i → weight (conns k) s'.tasks < weight (conns k) s.tasks) := by
  obtain ⟨t, call, next, r, hi, hp, hr, htasks⟩ := hres
  by_cases htask : (conns k).task = some i
  · have hset : s'.tasks[i]? = some { t with waitsFor := none, prog := next r } := by
      rw [htasks, List.getElem?_set_self (List.getElem?_eq_some_iff.1 hi).1]
    have hlt := taskWeight_resume (h k i t htask hi) hp hr
    rw [weight_of_task htask hset, weight_of_task htask hi]
    exact ⟨by omega, fun _ => by omega⟩
  · refine ⟨(weight_congr rfl rfl rfl fun j hj => ?_).le, fun heq => absurd heq htask⟩
    rw [htasks, List.getElem?_set_ne]
    rintro rfl
    exact htask hj

theorem weight_finish_lt {conn : Connection} {tasks : List Task} {i : Nat} (hi : conn.task = some i) :
    weight { conn with task := none } tasks < weight conn tasks := by
  unfold weight
  rw [hi]
  simp only [Option.elim_none, Option.elim_some]
  omega

theorem weight_place_lt {conn : Connection} {place : Place} (tasks : List Task)
    (h : placeWeight place < placeWeight conn.place) :
    weight { conn with place := place } tasks < weight conn tasks :=
  Nat.add_lt_add_right h _

/-- A task of a client that forwards a request pays for what the other node does. -/
theorem taskWeight_forward {conn : Connection} {t : Task} {node : NodeInfo} {req : Request}
    {next : Response → ClusterHandler Response} (j : Nat) (h : Handles c conn t)
    (hp : t.prog = .call (.forward node req) next) (hw : t.waitsFor = none) :
    taskWeight conn { t with waitsFor := some j } + 7 ≤ taskWeight conn t := by
  have hcaller : conn.caller = none := by
    by_contra hne
    have hstays := h.stays hne
    rw [hp] at hstays
    exact hstays.1
  obtain ⟨key, hkey⟩ := h.toOwner
  rw [hp] at hkey
  have hlt := hkey.callsLeft_next (r := ⟨.ok, []⟩) trivial
  unfold taskWeight
  rw [hp, hw, if_pos hcaller, if_pos hcaller, if_pos rfl]
  simp only [reduceCtorEq, if_false]
  omega

/-! ### The energy -/

theorem liveWeight_of_alive {k : Nat} (hlive : d.Alive k) : liveWeight d k = weight (d.conns k) d.system.tasks :=
  if_neg (by rw [show d.dead (d.conns k).node = false from hlive]; exact Bool.false_ne_true)

theorem liveWeight_le_weight (k : Nat) : liveWeight d k ≤ weight (d.conns k) d.system.tasks := by
  unfold liveWeight
  split
  · exact Nat.zero_le _
  · exact le_rfl

/-- Nodes do not come back to life. -/
theorem liveWeight_mono {k : Nat} (hdead : ∀ id, d.dead id = true → d'.dead id = true)
    (hnode : (d'.conns k).node = (d.conns k).node)
    (hle : weight (d'.conns k) d'.system.tasks ≤ weight (d.conns k) d.system.tasks) :
    liveWeight d' k ≤ liveWeight d k := by
  unfold liveWeight
  rw [hnode]
  split
  · exact Nat.zero_le _
  · rename_i hlive
    rw [if_neg fun hd => hlive (hdead _ hd)]
    exact hle

theorem energy_add_le {m k : Nat} (hopened : d'.opened = d.opened) (hdead : d'.dead = d.dead)
    (hnode : ∀ j, (d'.conns j).node = (d.conns j).node)
    (hle : ∀ j, weight (d'.conns j) d'.system.tasks ≤ weight (d.conns j) d.system.tasks) (hk : k < d.opened)
    (hlive : d.Alive k) (hlt : weight (d'.conns k) d'.system.tasks + m ≤ weight (d.conns k) d.system.tasks) :
    energy d' + m ≤ energy d := by
  unfold energy
  rw [hopened]
  refine sum_add_le_sum (fun j _ => liveWeight_mono ?_ (hnode j) (hle j)) (Finset.mem_range.2 hk) ?_
  · exact fun id hid => hdead ▸ hid
  · rw [liveWeight_of_alive hlive]
    exact (Nat.add_le_add_right (liveWeight_le_weight k) m).trans hlt

/-- One connection becomes lighter. -/
theorem energy_setConn_lt {k : Nat} {conn : Connection} (hk : k < d.opened) (hlive : d.Alive k)
    (hnode : conn.node = (d.conns k).node) (hlt : weight conn d.system.tasks < weight (d.conns k) d.system.tasks) :
    energy (d.setConn k conn) < energy d := by
  refine energy_add_le (m := 1) (k := k) rfl rfl (setConn_congr (·.node) hnode) (fun j => ?_) hk hlive ?_
  · by_cases hj : j = k
    · subst hj
      rw [setConn_self]
      exact hlt.le
    · rw [setConn_of_ne hj]
      rfl
  · rw [setConn_self]
    exact hlt

theorem energy_add (d : Deployment) (conn : Connection) :
    energy (d.add conn) ≤ energy d + weight conn d.system.tasks := by
  have hold : ∀ k ∈ Finset.range d.opened, liveWeight (d.add conn) k = liveWeight d k := by
    intro k hk
    unfold liveWeight
    rw [add_of_ne (Finset.mem_range.1 hk).ne]
    rfl
  have hnew := liveWeight_le_weight (d := d.add conn) d.opened
  rw [add_self] at hnew
  unfold energy
  rw [show (d.add conn).opened = d.opened + 1 from rfl, Finset.sum_range_succ, Finset.sum_congr rfl hold]
  exact Nat.add_le_add_left hnew _

/-- A call returns, to whatever end. -/
theorem energy_endCall_lt {k i : Nat} {s : System} (hs : Sound c n d) (hd : Direct c d)
    (hi : (d.conns k).task = some i) (hlive : d.Alive k) (hres : System.Resumes d.system s i) :
    energy { d.endCall k with system := s } < energy d := by
  have hsame : ∀ j, weight ((d.endCall k).conns j) s.tasks = weight (d.conns j) s.tasks := by
    intro j
    refine weight_congr ?_ ?_ ?_ fun _ _ => rfl
    · exact endCall_congr (·.place) (fun _ => rfl) k j
    · exact endCall_congr (·.caller) (fun _ => rfl) k j
    · exact endCall_congr (·.task) (fun _ => rfl) k j
  have hle : energy { d.endCall k with system := s } + 1 ≤ energy d := by
    refine energy_add_le ?_ ?_ ?_ (fun j => ?_) (hs.wired.lt_opened hi) hlive ?_
    · rfl
    · rfl
    · exact endCall_congr (·.node) (fun _ => rfl) k
    · exact (hsame j).trans_le (weight_resume hd.handles hres j).1
    · show weight ((d.endCall k).conns k) s.tasks + 1 ≤ _
      rw [hsame k]
      exact (weight_resume hd.handles hres k).2 hi
  exact hle

/-- A node that dies takes no more steps. -/
theorem energy_die_lt {k : Nat} (hk : k < d.opened) (hlive : d.Alive k) (hplace : (d.conns k).place = .worker) :
    energy (d.die (d.conns k).node) < energy d := by
  refine sum_add_le_sum (m := 1) (fun j _ => liveWeight_mono ?_ ?_ (le_of_eq ?_)) (Finset.mem_range.2 hk) ?_
  · intro id hid
    show Function.update d.dead (d.conns k).node true id = true
    rw [Function.update_apply]
    split
    · rfl
    · exact hid
  · exact die_congr (·.node) (fun _ => rfl) _ j
  · refine weight_congr ?_ ?_ ?_ fun _ _ => rfl
    · exact die_congr (·.place) (fun _ => rfl) _ j
    · exact die_congr (·.caller) (fun _ => rfl) _ j
    · exact die_congr (·.task) (fun _ => rfl) _ j
  · have hdead : (d.die (d.conns k).node).dead ((d.die (d.conns k).node).conns k).node = true := by
      rw [die_congr (·.node) (fun _ => rfl) _ k]
      exact Function.update_self _ _ _
    rw [liveWeight_of_alive hlive, liveWeight, if_pos hdead, weight, hplace]
    simp only [placeWeight]
    omega

/-- A request is forwarded. -/
theorem energy_forward_lt (hrf : c.replicationFactor = 1) (hs : Sound c n d) (hd : Direct c d) {k i : Nat}
    {s : System} {t' : Task} (htask : (d.conns k).task = some i) (hlive : d.Alive k)
    (hstep : d.system.step c (.deliver i) = some s) (ht' : s.tasks[d.system.tasks.length]? = some t') :
    energy { d.add ⟨t'.node, some k, .queue, true, some d.system.tasks.length⟩ with system := s } < energy d := by
  obtain ⟨t, node, req, next, hti, hw, hp, hid, htasks⟩ := hs.system.step_deliver hstep
  have hlast : s.tasks[d.system.tasks.length]? =
      some ⟨node.id, none, (c.replication node.id).clusterHandler req⟩ := by
    rw [htasks]
    exact System.getElem?_concat_set
  rw [hlast] at ht'
  cases ht'
  have hi' : i < d.system.tasks.length := (List.getElem?_eq_some_iff.1 hti).1
  have hset : s.tasks[i]? = some { t with waitsFor := some d.system.tasks.length } := by
    rw [htasks, List.getElem?_append_left (by simpa using hi'), List.getElem?_set_self hi']
  have hpays : weight (d.conns k) s.tasks + 7 ≤ weight (d.conns k) d.system.tasks := by
    have hle := taskWeight_forward d.system.tasks.length (hd.handles k i t htask hti) hp hw
    rw [weight_of_task htask hset, weight_of_task htask hti]
    omega
  have hold : ∀ j, weight (d.conns j) s.tasks ≤ weight (d.conns j) d.system.tasks := by
    intro j
    by_cases hj : j = k
    · subst hj
      omega
    · refine (weight_congr rfl rfl rfl fun m hm => ?_).le
      have hne : i ≠ m := by
        rintro rfl
        exact hj (hs.wired.distinct j k i hm htask)
      rw [htasks, List.getElem?_append_left (by simpa using hs.wired.known j m hm), List.getElem?_set_ne hne]
  have hsum : energy { d with system := s } + 7 ≤ energy d :=
    energy_add_le rfl rfl (fun _ => rfl) hold (hs.wired.lt_opened htask) hlive hpays
  have hcost : weight ⟨node.id, some k, .queue, true, some d.system.tasks.length⟩ s.tasks ≤ 6 := by
    have hcalls := (toOwner_clusterHandler hrf hid req).callsLeft_le
    rw [weight_of_task rfl hlast, taskWeight, if_neg (Option.some_ne_none k)]
    simp only [placeWeight]
    omega
  calc energy { d.add ⟨node.id, some k, .queue, true, some d.system.tasks.length⟩ with system := s }
      ≤ energy { d with system := s } +
          weight ⟨node.id, some k, .queue, true, some d.system.tasks.length⟩ s.tasks :=
        energy_add { d with system := s } _
    _ < energy d := by omega

theorem Takes.energy_lt (hrf : c.replicationFactor = 1) (h : Takes c n d e d') (he : Internal e) (hs : Sound c n d)
    (hd : Direct c d) : energy d' < energy d := by
  cases h with
  | connect | send | fail | leave | crash | status => exact he.elim
  | take hk hfirst hfree hlive =>
    refine energy_setConn_lt hk hlive rfl (weight_place_lt _ ?_)
    rw [hfirst.1]
    decide
  | work hi hstep =>
    obtain ⟨hplace, hlive, htask⟩ := current_eq_some.1 hi
    have hres := (System.step_step hstep).1
    exact energy_add_le (m := 1) rfl rfl (fun _ => rfl) (fun j => (weight_resume hd.handles hres j).1)
      (hs.wired.lt_opened htask) hlive ((weight_resume hd.handles hres _).2 htask)
  | forward hi hstep ht =>
    obtain ⟨hplace, hlive, htask⟩ := current_eq_some.1 hi
    exact energy_forward_lt hrf hs hd htask hlive hstep ht
  | finish hi ht hret hlost =>
    obtain ⟨hplace, hlive, htask⟩ := current_eq_some.1 hi
    exact energy_setConn_lt (hs.wired.lt_opened htask) hlive rfl (weight_finish_lt htask)
  | respond hi ht hret hcaller hopen hj hstep =>
    rename_i k i caller j t resp s
    obtain ⟨hplace, hlive, htask⟩ := current_eq_some.1 hi
    have hended : energy { d.endCall caller with system := s } ≤ energy d := by
      refine Finset.sum_le_sum fun m _ => liveWeight_mono (fun _ hid => hid) ?_ ?_
      · exact endCall_congr (·.node) (fun _ => rfl) caller m
      · refine (weight_congr ?_ ?_ ?_ fun _ _ => rfl).trans_le
          (weight_resume hd.handles (System.step_respond hstep) m).1
        · exact endCall_congr (·.place) (fun _ => rfl) caller m
        · exact endCall_congr (·.caller) (fun _ => rfl) caller m
        · exact endCall_congr (·.task) (fun _ => rfl) caller m
    have htask' : ((d.endCall caller).conns k).task = some i :=
      (endCall_congr (·.task) (fun _ => rfl) caller k).trans htask
    have hlive' : Alive { d.endCall caller with system := s } k :=
      (congrArg d.dead (endCall_congr (·.node) (fun _ => rfl) caller k)).trans hlive
    refine lt_of_lt_of_le ?_ hended
    exact energy_setConn_lt (d := { d.endCall caller with system := s }) (hs.wired.lt_opened htask) hlive' rfl
      (weight_finish_lt htask')
  | hangUp hplace htask hopen hlive =>
    refine energy_setConn_lt (hs.wired.lt_opened_of_worker hplace) hlive rfl (weight_place_lt _ ?_)
    rw [hplace]
    decide
  | lose hi hdead hstep =>
    obtain ⟨hplace, hlive, htask⟩ := current_eq_some.1 hi
    exact energy_endCall_lt hs hd htask hlive (System.step_fail hstep)
  | kill hi hbroken =>
    obtain ⟨hplace, hlive, htask⟩ := current_eq_some.1 hi
    exact energy_die_lt (hs.wired.lt_opened htask) hlive hplace

theorem Direct.energy_le (hd : Direct c d) : energy d ≤ 27 * d.opened := by
  have hle := Finset.sum_le_card_nsmul (Finset.range d.opened) (liveWeight d) 27
    fun k _ => (liveWeight_le_weight k).trans (weight_le (hd.handles k))
  rw [Finset.card_range, smul_eq_mul, Nat.mul_comm] at hle
  exact hle

/-! ## Who is answered -/

theorem clients_congr (hopened : d'.opened = d.opened)
    (h : ∀ k, ((d'.conns k).caller, (d'.conns k).node) = ((d.conns k).caller, (d.conns k).node))
    (hopen : ∀ k, (d'.conns k).connected = true → (d.conns k).connected = true)
    (htask : ∀ k, (d'.conns k).task ≠ none → (d.conns k).task ≠ none) (id : NodeId) :
    d'.clients id ⊆ d.clients id := by
  intro k hk
  obtain ⟨hlt, hcaller, hnode, hbusy⟩ := Finset.mem_filter.1 hk
  obtain ⟨hcaller', hnode'⟩ := Prod.mk.inj (h k)
  rw [hopened] at hlt
  exact Finset.mem_filter.2 ⟨hlt, hcaller' ▸ hcaller, hnode' ▸ hnode, hbusy.imp (hopen k) (htask k)⟩

theorem clients_close (closes : Connection → Bool) (id : NodeId) : (d.close closes).clients id ⊆ d.clients id := by
  refine clients_congr ?_ ?_ ?_ ?_ id
  · rfl
  · exact close_congr (fun conn => (conn.caller, conn.node)) (fun _ => rfl) closes
  · intro k hopen
    unfold close at hopen
    dsimp only at hopen
    split at hopen
    · cases hopen
    · exact hopen
  · intro k htask
    rw [close_congr (·.task) (fun _ => rfl) closes k] at htask
    exact htask

theorem clients_setConn {k : Nat} {conn : Connection} (hcaller : conn.caller = (d.conns k).caller)
    (hnode : conn.node = (d.conns k).node) (hopen : conn.connected = (d.conns k).connected)
    (htask : conn.task ≠ none → (d.conns k).task ≠ none) (id : NodeId) :
    (d.setConn k conn).clients id ⊆ d.clients id := by
  refine clients_congr ?_ ?_ ?_ ?_ id
  · rfl
  · exact setConn_congr (fun conn => (conn.caller, conn.node)) (by rw [hcaller, hnode])
  · intro m hm
    rwa [setConn_congr (·.connected) hopen m] at hm
  · intro m hm
    by_cases hmk : m = k
    · subst hmk
      rw [setConn_self] at hm
      exact htask hm
    · rwa [setConn_of_ne hmk] at hm

theorem clients_place {k : Nat} {place : Place} (id : NodeId) :
    (d.setConn k { d.conns k with place := place }).clients id ⊆ d.clients id := by
  refine clients_setConn ?_ ?_ ?_ ?_ id
  · rfl
  · rfl
  · rfl
  · exact fun hne => hne

theorem clients_finish {k : Nat} (id : NodeId) : (d.finish k).clients id ⊆ d.clients id := by
  refine clients_setConn ?_ ?_ ?_ ?_ id
  · rfl
  · rfl
  · rfl
  · exact fun hne => absurd rfl hne

/-- No client comes by itself. -/
theorem Takes.clients_subset (h : Takes c n d e d') (he : Internal e) (id : NodeId) :
    d'.clients id ⊆ d.clients id := by
  cases h with
  | connect | send | fail | leave | crash | status => exact he.elim
  | take | hangUp => exact clients_place id
  | work => exact Finset.Subset.refl _
  | forward hi hstep ht =>
    rename_i k i s t _
    intro m hm
    obtain ⟨hlt, hcaller, hrest⟩ := Finset.mem_filter.1 hm
    have hne : m ≠ d.opened := by
      rintro rfl
      rw [add_self] at hcaller
      cases hcaller
    rw [add_of_ne hne] at hcaller hrest
    refine Finset.mem_filter.2 ⟨Finset.mem_range.2 ?_, hcaller, hrest⟩
    exact lt_of_le_of_ne (Nat.lt_succ_iff.1 (Finset.mem_range.1 hlt)) hne
  | finish => exact clients_finish id
  | respond =>
    rename_i k i caller j t resp s hi ht hret hcaller hopen hj hstep
    have hfinish : ((d.endCall caller).finish k).clients id ⊆ (d.endCall caller).clients id :=
      clients_finish id
    exact hfinish.trans (clients_close _ id)
  | lose =>
    rename_i k i s hi hdead hstep
    exact clients_close (fun conn => decide (conn.caller = some k)) id
  | kill =>
    rename_i k i hi hbroken
    exact clients_close (fun conn => conn.caller.any fun j => decide ((d.conns j).node = (d.conns k).node)) id

/-- No node is dead, and nobody, client or node, has left with a request outstanding. -/
structure Orderly (d : Deployment) : Prop where
  dead : ∀ id, d.dead id = false
  here : ∀ k, (d.conns k).task ≠ none → (d.conns k).connected = true

theorem Orderly.not_callsDead (h : Orderly d) (i : Nat) : d.callsDead i = false := by
  unfold callsDead
  rw [show d.dead = fun _ => false from funext h.dead]
  cases d.system.tasks[i]?.bind (·.target) <;> rfl

theorem Orderly.setConn (h : Orderly d) {k : Nat} {conn : Connection}
    (hconn : conn.task ≠ none → conn.connected = true) :
    Orderly (d.setConn k conn) where
  dead := h.dead
  here := by
    intro j hj
    by_cases hjk : j = k
    · subst hjk
      rw [setConn_self] at hj ⊢
      exact hconn hj
    · rw [setConn_of_ne hjk] at hj ⊢
      exact h.here j hj

/-- No node is killed then. -/
theorem Orderly.takes (h : Orderly d) (hs : Sound c n d) (ht : Takes c n d e d') (he : Internal e) : Orderly d' := by
  cases ht with
  | connect | send | fail | leave | crash | status => exact he.elim
  | take => exact h.setConn fun hne => h.here _ hne
  | work => exact ⟨h.dead, h.here⟩
  | forward hi hstep ht =>
    refine ⟨h.dead, fun j hj => ?_⟩
    by_cases hjo : j = d.opened
    · subst hjo
      rw [add_self]
    · rw [add_of_ne hjo] at hj ⊢
      exact h.here j hj
  | finish => exact h.setConn fun hne => absurd rfl hne
  | respond hi ht hret hcaller hopen hj hstep =>
    rename_i k i caller j t resp s
    obtain ⟨-, -, htask⟩ := current_eq_some.1 hi
    have hfinished : Orderly ((d.endCall caller).finish k) := by
      refine ⟨h.dead, fun m hm => ?_⟩
      have hmk : m ≠ k := by
        rintro rfl
        rw [finish, setConn_self] at hm
        exact hm rfl
      rw [finish, setConn_of_ne hmk] at hm ⊢
      rw [endCall_congr (·.task) (fun _ => rfl) caller m] at hm
      have hmopen := h.here m hm
      -- the caller has called nobody else
      have hother : (d.conns m).caller ≠ some caller := by
        intro hmcaller
        obtain ⟨i₁, j₁, hi₁, hj₁, hk₁⟩ := hs.wired.called caller k hcaller hopen
        obtain ⟨i₂, j₂, hi₂, hj₂, hm₂⟩ := hs.wired.called caller m hmcaller hmopen
        rw [hi₁] at hi₂
        cases hi₂
        rw [hj₁] at hj₂
        cases hj₂
        exact hmk (hs.wired.distinct m k j₁ hm₂ hk₁)
      rw [show (d.endCall caller).conns m = d.conns m from if_neg (by simpa using hother)]
      exact hmopen
    exact ⟨hfinished.dead, hfinished.here⟩
  | hangUp hplace htask => exact h.setConn fun hne => absurd htask hne
  | lose hi hdead =>
    rw [h.not_callsDead] at hdead
    cases hdead
  | kill hi hbroken =>
    obtain ⟨-, -, htask⟩ := current_eq_some.1 hi
    have hopen := h.here _ (by rw [htask]; exact Option.some_ne_none _)
    unfold brokenPipe at hbroken
    rw [hopen, h.not_callsDead] at hbroken
    simp at hbroken

/-- With one replica a key the nodes come to rest by themselves, after a number of steps that the connections made
bound, however the steps of their workers interleave and whichever nodes are killed on the way. Then everybody at a
living node is answered who, at the start, left a worker to each node still alive, besides those for its other
clients. If at the start no node is dead and nobody has left with a request outstanding, no node is killed. -/
theorem sharded_answered (hrf : c.replicationFactor = 1) {es es' : List DeploymentEvent}
    (h : Runs (step c n) (fun _ _ => True) start es d) (hrun : Runs (step c n) (fun _ e => Internal e) d es' d') :
    es'.length ≤ 27 * d.opened ∧
      (Quiet c n d' → ∀ k, d'.Alive k → (∀ id, d'.dead id = false → ((d.clients id).erase k).card < n) →
        (d'.conns k).task = none) ∧
      (Orderly d → ∀ id, d'.dead id = false) := by
  have hstart := direct_of_runs hrf h
  have hkept : ∀ d₁ e d₂, Direct c d₁ ∧ Sound c n d₁ → d₁.step c n e = some d₂ → Direct c d₂ ∧ Sound c n d₂ :=
    fun d₁ e d₂ hi he => ⟨hi.1.takes hrf hi.2 (step_takes he), hi.2.takes (step_takes he)⟩
  have hwithin := hrun.within hkept hstart
  refine ⟨?_, ?_, ?_⟩
  · have hle := hwithin.length_add_le (μ := energy) ?_
    · have hbound := hstart.1.energy_le
      omega
    · rintro d₁ e d₂ ⟨⟨hd, hs⟩, he⟩ hstep
      exact (step_takes hstep).energy_lt hrf he hs hd
  · intro hq k hlive hroom
    obtain ⟨hd, hs⟩ := hrun.invariant (fun d₁ e d₂ hi _ => hkept d₁ e d₂ hi) hstart
    have hclients : ∀ id, d'.clients id ⊆ d.clients id := by
      refine hrun.invariant (I := fun d₁ => ∀ id, d₁.clients id ⊆ d.clients id) ?_ fun id => Finset.Subset.refl _
      intro d₁ e d₂ hsub he hstep id
      exact ((step_takes hstep).clients_subset he id).trans (hsub id)
    refine hq.answered hs hd hlive fun id hid => ?_
    exact (Finset.card_le_card (Finset.erase_subset_erase k (hclients id))).trans_lt (hroom id hid)
  · intro horderly
    have hend : Orderly d' := by
      refine hwithin.invariant (I := Orderly) ?_ horderly
      rintro d₁ e d₂ h₁ ⟨⟨-, hs⟩, he⟩ hstep
      exact h₁.takes hs (step_takes hstep) he
    exact hend.dead

/-- A client of `"b"` leaves with its request outstanding; a client of `"a"` asks for a key of `"b"`. -/
def leaver : List DeploymentEvent :=
  [.connect [98], .send 0 ⟨.get, [107, 49], []⟩, .leave 0, .connect [97], .send 1 ⟨.get, [107, 49], []⟩]

/-- The response to the one who left kills `"b"`; the other one is answered without it. -/
def killed : List DeploymentEvent := [.take 0, .work 0, .take 1, .work 1, .kill 0, .lose 1, .answer 1]

theorem sharded_answered_killed :
    ∃ d d', Runs (step Sharded.twoShards 1) (fun _ _ => True) start leaver d ∧
      Runs (step Sharded.twoShards 1) (fun _ e => Internal e) d killed d' ∧ Quiet Sharded.twoShards 1 d' ∧
      d'.dead [98] = true ∧ (d.conns 1).task ≠ none ∧ killed.length ≤ 27 * d.opened ∧ (d'.conns 1).task = none := by
  obtain ⟨d, hruns, hopened, hnode, htask, hrest⟩ :
      ∃ d, Runs (step Sharded.twoShards 1) (fun _ _ => True) start leaver d ∧ d.opened = 2 ∧
        (d.conns 0).node = [98] ∧ (d.conns 1).task ≠ none ∧
        ((runEvents (guarded (step Sharded.twoShards 1) fun _ e => Internal e) d killed).any
          fun d' => d'.still Sharded.twoShards 1 && (d'.dead [98] && decide (d'.Alive 1))) = true :=
    exists_runs (by decide +kernel)
  obtain ⟨d', hruns', hstill, hdead, hlive⟩ :
      ∃ d', Runs (step Sharded.twoShards 1) (fun _ e => Internal e) d killed d' ∧
        d'.still Sharded.twoShards 1 = true ∧ d'.dead [98] = true ∧ d'.Alive 1 :=
    exists_runs (by simpa using hrest)
  have hq : Quiet Sharded.twoShards 1 d' := by
    refine quiet_of_still (hruns'.invariant ?_ (sound_of_runs hruns)) hstill
    exact fun _ _ _ hs _ he => hs.takes (step_takes he)
  -- the other client is one of the dead node
  have hroom : ∀ id, d'.dead id = false → ((d.clients id).erase 1).card < 1 := by
    intro id hid
    refine Nat.lt_one_iff.2 (Finset.card_eq_zero.2 (Finset.eq_empty_of_forall_notMem fun m hm => ?_))
    obtain ⟨hne, hmem⟩ := Finset.mem_erase.1 hm
    obtain ⟨hlt, -, hm, -⟩ := Finset.mem_filter.1 hmem
    obtain rfl : m = 0 := by
      have := Finset.mem_range.1 hlt
      omega
    rw [← hm, hnode, hdead] at hid
    cases hid
  obtain ⟨hlength, hanswered, -⟩ := sharded_answered rfl hruns hruns'
  exact ⟨d, d', hruns, hruns', hq, hdead, htask, hlength, hanswered hq 1 hlive hroom⟩

end Deployment

end KvStore
