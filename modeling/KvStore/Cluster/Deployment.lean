/-
A cluster with the thread pools of its servers. Every connection, of a client or of a node that
forwards a request, waits in the queue of the node until one of its `n` workers takes it, and keeps
the worker until the other end is closed; a worker that forwards a request waits for the answer.

A worker may come to write to a connection whose other end is closed. The write may raise SIGPIPE,
which `main` does not handle, and then the whole node dies: its connections and calls end, and calls
to it fail from then on.
-/
import KvStore.Cluster.System
import KvStore.Server.Session

namespace KvStore

/-! ## The machine -/

/-- A connection to a node: the connection whose task has opened it to forward a request, or none for a
client; the place of the server's end; whether the other end is still there; and the task of the request
that has been sent and not answered. A client sends one request at a time, as `cli_client` and `pingNode` do. -/
structure Connection where
  node : NodeId
  caller : Option Nat
  place : Place
  connected : Bool
  task : Option Nat
  deriving DecidableEq

/-- The system, the connections made so far, in the order in which they were accepted, and the nodes whose
process has ended. The connections of a dead node stay as they were. -/
structure Deployment where
  system : System
  conns : Nat → Connection
  opened : Nat
  dead : NodeId → Bool

inductive DeploymentEvent
  /-- a client connects to a node -/
  | connect (id : NodeId)
  /-- a client sends a request -/
  | send (k : Nat) (req : Request)
  /-- a worker takes the connection, the first one in the queue of its node -/
  | take (k : Nat)
  /-- the worker of the connection takes a store operation or looks up a node -/
  | work (k : Nat)
  /-- the worker connects to another node and sends it a request -/
  | forward (k : Nat)
  /-- the worker sends its response -/
  | answer (k : Nat)
  /-- the worker finds that the other end is closed -/
  | hangUp (k : Nat)
  /-- the worker finds that the node it has called, or is about to call, is dead -/
  | lose (k : Nat)
  /-- the worker writes to a connection whose other end is closed, and SIGPIPE ends its node -/
  | kill (k : Nat)
  /-- the worker's request to another node fails -/
  | fail (k : Nat)
  /-- a client closes its end -/
  | leave (k : Nat)
  /-- the process of a node ends for another reason -/
  | crash (id : NodeId)
  | setStatus (a b : NodeId) (status : NodeStatus)

namespace Task

/-- What the task returns, once it has nothing left to call. -/
def response (t : Task) : Option Response :=
  match t.prog with
  | .ret resp => some resp
  | .call _ _ => none

/-- The node to which the task forwards a request. -/
def target (t : Task) : Option NodeId :=
  match t.prog with
  | .call (.forward node _) _ => some node.id
  | _ => none

theorem response_eq_some {t : Task} {resp : Response} : t.response = some resp ↔ t.prog = .ret resp := by
  obtain ⟨node, waits, prog⟩ := t
  cases prog <;> simp [response]

theorem target_of_forward {t : Task} {node : NodeInfo} {req : Request} {next : Response → ClusterHandler Response}
    (h : t.prog = .call (.forward node req) next) : t.target = some node.id := by
  unfold target
  rw [h]

end Task

namespace Deployment

def start : Deployment := ⟨.start, fun _ => ⟨[], none, .queue, false, none⟩, 0, fun _ => false⟩

/-- A new connection, behind all others. -/
def add (d : Deployment) (conn : Connection) : Deployment :=
  { d with conns := Function.update d.conns d.opened conn, opened := d.opened + 1 }

def setConn (d : Deployment) (k : Nat) (conn : Connection) : Deployment :=
  { d with conns := Function.update d.conns k conn }

/-- The other ends of some connections are closed. -/
def close (d : Deployment) (closes : Connection → Bool) : Deployment :=
  { d with conns := fun j => if closes (d.conns j) then { d.conns j with connected := false } else d.conns j }

/-- The workers of a node that have a connection. -/
def taken (d : Deployment) (id : NodeId) : Finset Nat :=
  (Finset.range d.opened).filter fun k => (d.conns k).place = .worker ∧ (d.conns k).node = id

/-- The connection has waited longest of those in the queue of its node. -/
def First (d : Deployment) (k : Nat) : Prop :=
  (d.conns k).place = .queue ∧ ∀ j < k, (d.conns j).place = .queue → (d.conns j).node ≠ (d.conns k).node

instance (d : Deployment) (k : Nat) : Decidable (d.First k) := inferInstanceAs (Decidable (_ ∧ _))

/-- The node of the connection is alive. -/
def Alive (d : Deployment) (k : Nat) : Prop := d.dead (d.conns k).node = false

instance (d : Deployment) (k : Nat) : Decidable (d.Alive k) := inferInstanceAs (Decidable (_ = _))

/-- The task that the worker of a connection is at. -/
def current (d : Deployment) (k : Nat) : Option Nat :=
  if (d.conns k).place = .worker ∧ d.Alive k then (d.conns k).task else none

/-- A call of `forwardRequest` by the task of a connection returns, and closes the connection it has opened. -/
def endCall (d : Deployment) (k : Nat) : Deployment := d.close fun conn => decide (conn.caller = some k)

/-- The process of a node ends, and with it the connections it has opened. -/
def die (d : Deployment) (id : NodeId) : Deployment :=
  { d.close fun conn => conn.caller.any fun k => decide ((d.conns k).node = id) with
    dead := Function.update d.dead id true }

/-- The task of the connection is over. -/
def finish (d : Deployment) (k : Nat) : Deployment := d.setConn k { d.conns k with task := none }

/-- The response reaches the caller, if there is one and it still waits. -/
def settle (c : Cluster) (d : Deployment) (k : Nat) : Option Deployment :=
  match (d.conns k).caller, (d.conns k).connected with
  | some caller, true =>
    (d.conns caller).task.bind fun i =>
      (d.system.step c (.respond i)).map fun s => { (d.endCall caller).finish k with system := s }
  | _, _ => some (d.finish k)

/-- The task forwards a request to a dead node. -/
def callsDead (d : Deployment) (i : Nat) : Bool := (d.system.tasks[i]?.bind (·.target)).any d.dead

/-- The worker of the connection, at the task, has something to write to an end that is closed: its response, or
the request to a node that has died since it was connected to. -/
def brokenPipe (d : Deployment) (k i : Nat) : Bool :=
  (d.system.tasks[i]?.bind (·.response)).isSome && !(d.conns k).connected || d.callsDead i

def step (c : Cluster) (n : Nat) (d : Deployment) : DeploymentEvent → Option Deployment
  | .connect id =>
    if c.ids.contains id ∧ d.dead id = false then some (d.add ⟨id, none, .queue, true, none⟩) else none
  | .send k req =>
    if (d.conns k).caller = none ∧ (d.conns k).connected ∧ (d.conns k).task = none ∧ d.Alive k then
      (d.system.step c (.client (d.conns k).node req)).map fun s =>
        { d.setConn k { d.conns k with task := some d.system.tasks.length } with system := s }
    else none
  | .take k =>
    if k < d.opened ∧ d.First k ∧ (d.taken (d.conns k).node).card < n ∧ d.Alive k then
      some (d.setConn k { d.conns k with place := .worker })
    else none
  | .work k => (d.current k).bind fun i => (d.system.step c (.step i)).map fun s => { d with system := s }
  | .forward k =>
    (d.current k).bind fun i =>
      (d.system.step c (.deliver i)).bind fun s =>
        s.tasks[d.system.tasks.length]?.bind fun t =>
          if d.dead t.node = false then
            some { d.add ⟨t.node, some k, .queue, true, some d.system.tasks.length⟩ with system := s }
          else none
  | .answer k =>
    (d.current k).bind fun i => (d.system.tasks[i]?.bind (·.response)).bind fun _ => d.settle c k
  | .hangUp k =>
    if (d.conns k).place = .worker ∧ (d.conns k).task = none ∧ (d.conns k).connected = false ∧ d.Alive k then
      some (d.setConn k { d.conns k with place := .gone })
    else none
  | .lose k =>
    (d.current k).bind fun i =>
      if d.callsDead i then (d.system.step c (.fail i)).map fun s => { d.endCall k with system := s } else none
  | .kill k => (d.current k).bind fun i => if d.brokenPipe k i then some (d.die (d.conns k).node) else none
  | .fail k => (d.current k).bind fun i => (d.system.step c (.fail i)).map fun s => { d.endCall k with system := s }
  | .leave k =>
    if (d.conns k).caller = none ∧ (d.conns k).connected then
      some (d.setConn k { d.conns k with connected := false })
    else none
  | .crash id => if c.ids.contains id then some (d.die id) else none
  | .setStatus a b status => (d.system.step c (.setStatus a b status)).map fun s => { d with system := s }

/-- Everything a step can do. -/
inductive Takes (c : Cluster) (n : Nat) (d : Deployment) : DeploymentEvent → Deployment → Prop
  | connect {id : NodeId} (hid : id ∈ c.ids) (hlive : d.dead id = false) :
      Takes c n d (.connect id) (d.add ⟨id, none, .queue, true, none⟩)
  | send {k : Nat} {req : Request} {s : System} (hcaller : (d.conns k).caller = none)
      (hopen : (d.conns k).connected = true) (htask : (d.conns k).task = none) (hlive : d.Alive k)
      (hs : d.system.step c (.client (d.conns k).node req) = some s) :
      Takes c n d (.send k req)
        { d.setConn k { d.conns k with task := some d.system.tasks.length } with system := s }
  | take {k : Nat} (hk : k < d.opened) (hfirst : d.First k) (hfree : (d.taken (d.conns k).node).card < n)
      (hlive : d.Alive k) : Takes c n d (.take k) (d.setConn k { d.conns k with place := .worker })
  | work {k i : Nat} {s : System} (hi : d.current k = some i) (hs : d.system.step c (.step i) = some s) :
      Takes c n d (.work k) { d with system := s }
  | forward {k i : Nat} {s : System} {t : Task} (hi : d.current k = some i)
      (hs : d.system.step c (.deliver i) = some s) (ht : s.tasks[d.system.tasks.length]? = some t)
      (hlive : d.dead t.node = false) :
      Takes c n d (.forward k)
        { d.add ⟨t.node, some k, .queue, true, some d.system.tasks.length⟩ with system := s }
  | finish {k i : Nat} {t : Task} {resp : Response} (hi : d.current k = some i) (ht : d.system.tasks[i]? = some t)
      (hret : t.prog = .ret resp) (hlost : (d.conns k).caller = none ∨ (d.conns k).connected = false) :
      Takes c n d (.answer k) (d.finish k)
  | respond {k i caller j : Nat} {t : Task} {resp : Response} {s : System} (hi : d.current k = some i)
      (ht : d.system.tasks[i]? = some t) (hret : t.prog = .ret resp) (hcaller : (d.conns k).caller = some caller)
      (hopen : (d.conns k).connected = true) (hj : (d.conns caller).task = some j)
      (hs : d.system.step c (.respond j) = some s) :
      Takes c n d (.answer k) { (d.endCall caller).finish k with system := s }
  | hangUp {k : Nat} (hplace : (d.conns k).place = .worker) (htask : (d.conns k).task = none)
      (hopen : (d.conns k).connected = false) (hlive : d.Alive k) :
      Takes c n d (.hangUp k) (d.setConn k { d.conns k with place := .gone })
  | lose {k i : Nat} {s : System} (hi : d.current k = some i) (hdead : d.callsDead i = true)
      (hs : d.system.step c (.fail i) = some s) : Takes c n d (.lose k) { d.endCall k with system := s }
  | kill {k i : Nat} (hi : d.current k = some i) (hbroken : d.brokenPipe k i = true) :
      Takes c n d (.kill k) (d.die (d.conns k).node)
  | fail {k i : Nat} {s : System} (hi : d.current k = some i) (hs : d.system.step c (.fail i) = some s) :
      Takes c n d (.fail k) { d.endCall k with system := s }
  | leave {k : Nat} (hcaller : (d.conns k).caller = none) (hopen : (d.conns k).connected = true) :
      Takes c n d (.leave k) (d.setConn k { d.conns k with connected := false })
  | crash {id : NodeId} (hid : id ∈ c.ids) : Takes c n d (.crash id) (d.die id)
  | status {a b : NodeId} {status : NodeStatus} {s : System} (hs : d.system.step c (.setStatus a b status) = some s) :
      Takes c n d (.setStatus a b status) { d with system := s }

theorem step_takes {c : Cluster} {n : Nat} {d d' : Deployment} {e : DeploymentEvent} (h : d.step c n e = some d') :
    Takes c n d e d' := by
  cases e with
  | connect id =>
    obtain ⟨⟨hid, hlive⟩, h⟩ := Option.ite_none_right_eq_some.1 h
    cases h
    exact .connect (List.contains_iff_mem.1 hid) hlive
  | send k req =>
    obtain ⟨⟨hcaller, hopen, htask, hlive⟩, h⟩ := Option.ite_none_right_eq_some.1 h
    obtain ⟨s, hs, rfl⟩ := Option.map_eq_some_iff.1 h
    exact .send hcaller hopen htask hlive hs
  | take k =>
    obtain ⟨⟨hk, hfirst, hfree, hlive⟩, h⟩ := Option.ite_none_right_eq_some.1 h
    cases h
    exact .take hk hfirst hfree hlive
  | work k =>
    obtain ⟨i, hi, h⟩ := Option.bind_eq_some_iff.1 h
    obtain ⟨s, hs, rfl⟩ := Option.map_eq_some_iff.1 h
    exact .work hi hs
  | forward k =>
    obtain ⟨i, hi, h⟩ := Option.bind_eq_some_iff.1 h
    obtain ⟨s, hs, h⟩ := Option.bind_eq_some_iff.1 h
    obtain ⟨t, ht, h⟩ := Option.bind_eq_some_iff.1 h
    obtain ⟨hlive, h⟩ := Option.ite_none_right_eq_some.1 h
    cases h
    exact .forward hi hs ht hlive
  | answer k =>
    obtain ⟨i, hi, h⟩ := Option.bind_eq_some_iff.1 h
    obtain ⟨resp, hresp, h⟩ := Option.bind_eq_some_iff.1 h
    obtain ⟨t, ht, hret⟩ := Option.bind_eq_some_iff.1 hresp
    have hret := Task.response_eq_some.1 hret
    unfold settle at h
    split at h
    · rename_i caller hcaller hopen
      obtain ⟨j, hj, h⟩ := Option.bind_eq_some_iff.1 h
      obtain ⟨s, hs, rfl⟩ := Option.map_eq_some_iff.1 h
      exact .respond hi ht hret hcaller hopen hj hs
    · rename_i hlost
      cases h
      refine .finish hi ht hret ?_
      cases hcaller : (d.conns k).caller with
      | none => exact .inl rfl
      | some caller =>
        cases hopen : (d.conns k).connected with
        | false => exact .inr rfl
        | true => exact absurd hopen (hlost caller hcaller)
  | hangUp k =>
    obtain ⟨⟨hplace, htask, hopen, hlive⟩, h⟩ := Option.ite_none_right_eq_some.1 h
    cases h
    exact .hangUp hplace htask hopen hlive
  | lose k =>
    obtain ⟨i, hi, h⟩ := Option.bind_eq_some_iff.1 h
    obtain ⟨hdead, h⟩ := Option.ite_none_right_eq_some.1 h
    obtain ⟨s, hs, rfl⟩ := Option.map_eq_some_iff.1 h
    exact .lose hi hdead hs
  | kill k =>
    obtain ⟨i, hi, h⟩ := Option.bind_eq_some_iff.1 h
    obtain ⟨hbroken, h⟩ := Option.ite_none_right_eq_some.1 h
    cases h
    exact .kill hi hbroken
  | fail k =>
    obtain ⟨i, hi, h⟩ := Option.bind_eq_some_iff.1 h
    obtain ⟨s, hs, rfl⟩ := Option.map_eq_some_iff.1 h
    exact .fail hi hs
  | leave k =>
    obtain ⟨⟨hcaller, hopen⟩, h⟩ := Option.ite_none_right_eq_some.1 h
    cases h
    exact .leave hcaller hopen
  | crash id =>
    obtain ⟨hid, h⟩ := Option.ite_none_right_eq_some.1 h
    cases h
    exact .crash (List.contains_iff_mem.1 hid)
  | setStatus a b status =>
    cases h
    exact .status rfl

end Deployment

end KvStore
