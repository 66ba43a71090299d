/-
The standalone server with its clients, byte by byte. A client connects, sends its requests one at a
time and waits for each answer (`TcpConnection::connect`, `writeFrame`, `readFrame`, as `forwardRequest` and
the command line client do); the accept loop hands the connection to the pool, and the worker that takes it
reads, handles and answers (`handleConnection`) until the stream ends or a call fails. The calls on all
sockets and the operations of all handlers interleave in any way. On one connection the client and the
worker take turns, and the request of the client is under way, in the hands of the worker, or answered.
-/
import KvStore.Lib.Duplex
import KvStore.Server.Linear

namespace KvStore

open Bytes Program Protocol Machine Linear Function Duplex

/-! ## The machine -/

/-- Where a client is: between two requests, or with its request `id` sent or being sent, or waiting for the
answer. -/
inductive Caller
  | ready
  | sending (id : Nat) (req : Request)
  | waiting (id : Nat) (req : Request)

/-- Where the server is with a connection: in the queue of the pool, or at a point of `handleConnection`. -/
inductive Serving
  | queued
  | listening
  | receiving
  | handling (rest : Handler Response)
  | replying
  | done

/-- A connection; the client has its end `false` and the server its end `true`. -/
structure Conn where
  link : Link
  client : Caller
  server : Serving

/-- The request that is not answered yet. -/
def Caller.call : Caller → Option (Nat × Request)
  | .ready => none
  | .sending id req | .waiting id req => some (id, req)

/-- The process, the connections that have been made and those of them in the queue of the pool, the idle
workers, and what the clients see. -/
structure Service where
  process : Process
  conns : Nat → Conn
  opened : Nat
  queue : List Nat
  free : Nat
  count : Nat
  history : List (Linear.Event Request Response)

inductive ServiceEvent
  /-- a client connects, and the server accepts -/
  | connect
  /-- an idle worker takes the first connection of the queue -/
  | take
  | request (c : Nat) (req : Request)
  /-- the client, or the worker, of a connection goes on from one call on its socket to the next -/
  | client (c : Nat)
  | server (c : Nat)
  /-- the client closes its end -/
  | hangUp (c : Nat)
  /-- a call on a socket -/
  | io (c : Nat) (e : Duplex.Event)

namespace Service

/-- A process that has recovered, with `n` idle workers. -/
def start (p : Process) (n : Nat) : Service := ⟨p, fun _ => ⟨.start, .ready, .queued⟩, 0, [], n, 0, []⟩

def setConn (s : Service) (c : Nat) (conn : Conn) : Service := { s with conns := update s.conns c conn }

/-- The client of a connection between two calls. -/
def clientStep (s : Service) (c : Nat) : Option Service :=
  let conn := s.conns c
  match conn.client, (conn.link.ends false).pc with
  | .sending id req, .idle =>
    some (s.setConn c { conn with link := conn.link.receive false, client := .waiting id req })
  | .waiting id _, .idle =>
    let s := s.setConn c { conn with client := .ready }
    match (conn.link.ends false).got.getLast?.bind deserializeResponse with
    | some resp => some { s with history := s.history ++ [.respond id resp] }
    | none => some s
  | _, _ => none

/-- The worker of a connection between two calls, and at the end of `handleConnection`. -/
def serverStep (s : Service) (c : Nat) : Option Service :=
  let conn := s.conns c
  match conn.server, (conn.link.ends true).pc with
  | .listening, .idle | .replying, .idle =>
    some (s.setConn c { conn with link := conn.link.receive true, server := .receiving })
  | .receiving, .idle =>
    match (conn.link.ends true).got.getLast?.bind deserializeRequest with
    | some req => some (s.setConn c { conn with server := .handling (standaloneHandler req) })
    | none => some (s.setConn c { conn with link := conn.link.close true })
  | .handling (.call op next), .idle =>
    some { s.setConn c { conn with server := .handling (next (op.exec s.process).1) } with
      process := (op.exec s.process).2 }
  | .handling (.ret resp), .idle =>
    some (s.setConn c { conn with link := conn.link.send true (serializeResponse resp), server := .replying })
  | .receiving, .closed | .replying, .closed =>
    some { s.setConn c { conn with server := .done } with free := s.free + 1 }
  | _, _ => none

/-- A call that fails ends its connection and nothing else. In truth a `write` of the server to a client that
has gone raises `SIGPIPE`, which nothing handles, and ends the process. The runs here go on after it, so
they contain what the process does up to that `write`; and after its end nobody is answered any more and
no connection is open, so what is said of histories and of clients that wait on an open connection holds
of the shorter run as well. -/
def step (s : Service) : ServiceEvent → Option Service
  | .connect => some { s with opened := s.opened + 1, queue := s.queue ++ [s.opened] }
  | .take =>
    match s.queue, s.free with
    | c :: queue, free + 1 => some { s.setConn c { s.conns c with server := .listening } with queue, free }
    | _, _ => none
  | .request c req =>
    let conn := s.conns c
    match conn.client, (conn.link.ends false).pc with
    | .ready, .idle =>
      if c < s.opened ∧ req.FitsFrame then
        some { s.setConn c { conn with
            link := conn.link.send false (serializeRequest req), client := .sending s.count req } with
          count := s.count + 1, history := s.history ++ [.invoke s.count req] }
      else none
    | _, _ => none
  | .client c => if c < s.opened then s.clientStep c else none
  | .server c => if c < s.opened then s.serverStep c else none
  | .hangUp c =>
    let conn := s.conns c
    match conn.client, (conn.link.ends false).pc with
    | .ready, .idle => if c < s.opened then some (s.setConn c { conn with link := conn.link.close false }) else none
    | _, _ => none
  | .io c e =>
    if c < s.opened then ((s.conns c).link.step e).map fun link => s.setConn c { s.conns c with link } else none

end Service

/-! ## What a step does -/

inductive Place
  | queue
  | worker
  | gone
  deriving DecidableEq

namespace Conn

/-- Whose the connection is: nobody's yet, a worker's, or nobody's any more. -/
def place (c : Conn) : Place :=
  match c.server with
  | .queued => .queue
  | .done => .gone
  | _ => .worker

/-- What happens on a connection without a change of the process or of what the client sees. -/
inductive Moves (c : Conn) : Conn → Prop
  | take : c.server = .queued → Moves c { c with server := .listening }
  | await {id : Nat} {req : Request} : c.client = .sending id req → (c.link.ends false).pc = .idle →
      Moves c { c with link := c.link.receive false, client := .waiting id req }
  | listen : c.server = .listening ∨ c.server = .replying → (c.link.ends true).pc = .idle →
      Moves c { c with link := c.link.receive true, server := .receiving }
  | finish : c.server = .receiving ∨ c.server = .replying → (c.link.ends true).pc = .closed →
      Moves c { c with server := .done }
  | hangUp : c.client = .ready → (c.link.ends false).pc = .idle → Moves c { c with link := c.link.close false }
  | io {link : Link} : Link.Takes c.link link → Moves c { c with link := link }

end Conn

namespace Service

/-- Everything a step can do. -/
inductive Takes (s : Service) : Service → Prop
  | connect : Takes s { s with opened := s.opened + 1, queue := s.queue ++ [s.opened] }
  | take {c : Nat} {queue : List Nat} {free : Nat} : s.queue = c :: queue → s.free = free + 1 →
      Takes s { s.setConn c { s.conns c with server := .listening } with queue := queue, free := free }
  | finish {c : Nat} : (s.conns c).server = .receiving ∨ (s.conns c).server = .replying →
      ((s.conns c).link.ends true).pc = .closed →
      Takes s { s.setConn c { s.conns c with server := .done } with free := s.free + 1 }
  | move {c : Nat} {conn : Conn} : (s.conns c).Moves conn → conn.place = (s.conns c).place →
      Takes s (s.setConn c conn)
  | request {c : Nat} {req : Request} : (s.conns c).client = .ready → ((s.conns c).link.ends false).pc = .idle →
      c < s.opened → req.FitsFrame →
      Takes s { s.setConn c { s.conns c with
          link := (s.conns c).link.send false (serializeRequest req), client := .sending s.count req } with
        count := s.count + 1, history := s.history ++ [.invoke s.count req] }
  | answered {c id : Nat} {req : Request} {resp : Response} : (s.conns c).client = .waiting id req →
      ((s.conns c).link.ends false).pc = .idle →
      ((s.conns c).link.ends false).got.getLast?.bind deserializeResponse = some resp →
      Takes s { s.setConn c { s.conns c with client := .ready } with history := s.history ++ [.respond id resp] }
  | giveUp {c id : Nat} {req : Request} : (s.conns c).client = .waiting id req →
      ((s.conns c).link.ends false).pc = .idle →
      ((s.conns c).link.ends false).got.getLast?.bind deserializeResponse = none →
      Takes s (s.setConn c { s.conns c with client := .ready })
  | dispatch {c : Nat} {req : Request} : (s.conns c).server = .receiving → ((s.conns c).link.ends true).pc = .idle →
      ((s.conns c).link.ends true).got.getLast?.bind deserializeRequest = some req →
      Takes s (s.setConn c { s.conns c with server := .handling (standaloneHandler req) })
  | reject {c : Nat} : (s.conns c).server = .receiving → ((s.conns c).link.ends true).pc = .idle →
      ((s.conns c).link.ends true).got.getLast?.bind deserializeRequest = none →
      Takes s (s.setConn c { s.conns c with link := (s.conns c).link.close true })
  | operate {c : Nat} {op : StoreCall} {next : op.Res → Handler Response} :
      (s.conns c).server = .handling (.call op next) →
      Takes s { s.setConn c { s.conns c with server := .handling (next (op.exec s.process).1) } with
        process := (op.exec s.process).2 }
  | reply {c : Nat} {resp : Response} : (s.conns c).server = .handling (.ret resp) →
      ((s.conns c).link.ends true).pc = .idle →
      Takes s (s.setConn c { s.conns c with
        link := (s.conns c).link.send true (serializeResponse resp), server := .replying })

theorem clientStep_takes {s s' : Service} {c : Nat} (h : s.clientStep c = some s') : Takes s s' := by
  simp only [clientStep] at h
  split at h
  · rename_i id req hclient hpc
    cases h
    exact .move (.await hclient hpc) rfl
  · rename_i id req hclient hpc
    split at h
    · rename_i resp hresp
      cases h
      exact .answered hclient hpc hresp
    · rename_i hnone
      cases h
      exact .giveUp hclient hpc hnone
  · cases h

theorem serverStep_takes {s s' : Service} {c : Nat} (h : s.serverStep c = some s') : Takes s s' := by
  simp only [serverStep] at h
  split at h
  · rename_i hserver hpc
    cases h
    exact .move (.listen (.inl hserver) hpc) (by simp [Conn.place, hserver])
  · rename_i hserver hpc
    cases h
    exact .move (.listen (.inr hserver) hpc) (by simp [Conn.place, hserver])
  · rename_i hserver hpc
    split at h
    · rename_i req hreq
      cases h
      exact .dispatch hserver hpc hreq
    · rename_i hnone
      cases h
      exact .reject hserver hpc hnone
  · rename_i op next hserver hpc
    cases h
    exact .operate hserver
  · rename_i resp hserver hpc
    cases h
    exact .reply hserver hpc
  · rename_i hserver hpc
    cases h
    exact .finish (.inl hserver) hpc
  · rename_i hserver hpc
    cases h
    exact .finish (.inr hserver) hpc
  · cases h

theorem step_takes {s s' : Service} {e : ServiceEvent} (h : s.step e = some s') : Takes s s' := by
  cases e with
  | connect =>
    cases h
    exact .connect
  | take =>
    simp only [step] at h
    split at h
    · rename_i c queue free hqueue hfree
      cases h
      exact .take hqueue hfree
    · cases h
  | request c req =>
    simp only [step] at h
    split at h
    · rename_i hclient hpc
      obtain ⟨⟨hopened, hfit⟩, heq⟩ := Option.ite_none_right_eq_some.1 h
      cases heq
      exact .request hclient hpc hopened hfit
    · cases h
  | client c => exact clientStep_takes (Option.ite_none_right_eq_some.1 h).2
  | server c => exact serverStep_takes (Option.ite_none_right_eq_some.1 h).2
  | hangUp c =>
    simp only [step] at h
    split at h
    · rename_i hclient hpc
      obtain ⟨-, heq⟩ := Option.ite_none_right_eq_some.1 h
      cases heq
      exact .move (.hangUp hclient hpc) rfl
    · cases h
  | io c e =>
    obtain ⟨-, h⟩ := Option.ite_none_right_eq_some.1 h
    obtain ⟨link, hlink, rfl⟩ := Option.map_eq_some_iff.1 h
    exact .move (.io (Link.step_takes hlink)) rfl

end Service

/-! ## One connection -/

namespace Caller

/-- Where the socket of a client can be. -/
def At : Caller → Pc → Prop
  | ready, pc => pc = .idle ∨ pc = .closed
  | sending _ _, pc => ∀ r, pc ≠ .reading r
  | waiting _ _, pc => ∀ r, pc ≠ .writing r

/-- How many requests the client has sent without a response. -/
def outstanding : Caller → Pc → Nat
  | ready, _ => 0
  | waiting _ _, .idle => 0
  | _, _ => 1

theorem outstanding_le (client : Caller) (pc : Pc) : client.outstanding pc ≤ 1 := by
  unfold outstanding
  split <;> simp

theorem outstanding_waiting {id : Nat} {req : Request} {pc : Pc} (h : pc ≠ .idle) :
    (waiting id req).outstanding pc = 1 := by
  cases pc with
  | idle => exact absurd rfl h
  | writing | reading | closed => rfl

/-- The client waits for the answer to a request before it sends the next. -/
structure Regular (client : Caller) (e : End) : Prop where
  isAt : client.At e.pc
  asked : e.sent.length = e.got.length + client.outstanding e.pc

theorem Regular.move {client : Caller} {e e' : End} (h : client.Regular e) (hm : e.Moves e') : client.Regular e' := by
  obtain ⟨hat, hasked⟩ := h
  cases hm with
  | write pc hpc hpc' =>
    cases client with
    | ready => simp [At, hpc] at hat
    | waiting id req => simp [At, hpc] at hat
    | sending id req => exact ⟨hpc', hasked⟩
  | more r' hpc =>
    cases client with
    | ready => simp [At, hpc] at hat
    | sending id req => simp [At, hpc] at hat
    | waiting id req =>
      rw [hpc] at hasked
      exact ⟨by rintro r ⟨⟩, hasked⟩
  | whole data hpc =>
    cases client with
    | ready => simp [At, hpc] at hat
    | sending id req => simp [At, hpc] at hat
    | waiting id req =>
      rw [hpc] at hasked
      refine ⟨by rintro r ⟨⟩, ?_⟩
      show e.sent.length = (e.got ++ [data]).length + 0
      rw [hasked, List.length_append]
      rfl
  | drop hpc =>
    cases client with
    | ready => exact ⟨.inr rfl, hasked⟩
    | sending id req => exact ⟨by rintro r ⟨⟩, hasked⟩
    | waiting id req =>
      rw [outstanding_waiting hpc] at hasked
      exact ⟨by rintro r ⟨⟩, hasked⟩

end Caller

namespace Serving

/-- Where the socket of a worker can be. -/
def At : Serving → Pc → Prop
  | queued, pc | listening, pc | handling _, pc => pc = .idle
  | receiving, pc => ∀ r, pc ≠ .writing r
  | replying, pc => ∀ r, pc ≠ .reading r
  | done, pc => pc = .closed

/-- How many requests the worker has received and not begun to answer. -/
def held : Serving → Pc → Nat
  | receiving, .idle => 1
  | handling _, _ => 1
  | _, _ => 0

theorem held_receiving {pc : Pc} (h : pc ≠ .idle) : receiving.held pc = 0 := by
  cases pc with
  | idle => exact absurd rfl h
  | writing | reading | closed => rfl

/-- The worker answers a request before it reads the next. -/
structure Regular (server : Serving) (e : End) : Prop where
  isAt : server.At e.pc
  heard : e.got.length = e.sent.length + server.held e.pc

theorem Regular.receiving_of_reading {server : Serving} {e : End} (h : server.Regular e) {r : Reader}
    (hpc : e.pc = .reading r) : server = .receiving := by
  have hat := h.isAt
  rw [hpc] at hat
  cases server with
  | receiving => rfl
  | queued | listening | handling | done => cases hat
  | replying => exact absurd rfl (hat r)

theorem Regular.move {server : Serving} {e e' : End} (h : server.Regular e)
    (hm : e.Moves e') : server.Regular e' := by
  obtain ⟨hat, hheard⟩ := h
  cases hm with
  | write pc hpc hpc' =>
    cases server with
    | queued | listening | handling | receiving | done => simp [At, hpc] at hat
    | replying => exact ⟨hpc', hheard⟩
  | more r' hpc =>
    cases server with
    | queued | listening | handling | replying | done => simp [At, hpc] at hat
    | receiving =>
      rw [hpc] at hheard
      exact ⟨by rintro r ⟨⟩, hheard⟩
  | whole data hpc =>
    cases server with
    | queued | listening | handling | replying | done => simp [At, hpc] at hat
    | receiving =>
      rw [hpc] at hheard
      refine ⟨by rintro r ⟨⟩, ?_⟩
      show (e.got ++ [data]).length = e.sent.length + 1
      rw [List.length_append, hheard]
      rfl
  | drop hpc =>
    cases server with
    | queued | listening | handling => exact absurd hat hpc
    | done => exact ⟨rfl, hheard⟩
    | replying => exact ⟨by rintro r ⟨⟩, hheard⟩
    | receiving =>
      rw [held_receiving hpc] at hheard
      exact ⟨by rintro r ⟨⟩, hheard⟩

end Serving

namespace Conn

/-- The two ends keep to their turns. -/
structure Regular (c : Conn) : Prop where
  link : c.link.Sound
  fits : ∀ s, ∀ data ∈ (c.link.ends s).sent, data.length < 2 ^ 32
  client : c.client.Regular (c.link.ends false)
  server : c.server.Regular (c.link.ends true)

variable {c c' : Conn}

theorem Regular.start : Regular ⟨.start, .ready, .queued⟩ where
  link := .start
  fits _ _ h := by cases h
  client := ⟨.inl rfl, rfl⟩
  server := ⟨rfl, rfl⟩

theorem Regular.requests (h : Regular c) : (c.link.ends true).got <+: (c.link.ends false).sent :=
  h.link.received_isPrefix true (h.fits false)

theorem Regular.responses (h : Regular c) : (c.link.ends false).got <+: (c.link.ends true).sent :=
  h.link.received_isPrefix false (h.fits true)

/-- What each end has received lies behind what the other one has sent, by one request at most. -/
theorem Regular.counts (h : Regular c) :
    (c.link.ends false).got.length ≤ (c.link.ends true).sent.length ∧
      (c.link.ends true).sent.length ≤ (c.link.ends true).got.length ∧
      (c.link.ends true).got.length ≤ (c.link.ends false).sent.length ∧
      (c.link.ends false).sent.length ≤ (c.link.ends false).got.length + 1 := by
  have hresps := h.responses.length_le
  have hreqs := h.requests.length_le
  have hone := c.client.outstanding_le (c.link.ends false).pc
  have hasked := h.client.asked
  have hheard := h.server.heard
  exact ⟨hresps, by omega, hreqs, by omega⟩

/-- A worker that has a request has the one its client waits for an answer to. -/
theorem Regular.pending_of_held (h : Regular c) (hheld : c.server.held (c.link.ends true).pc = 1) :
    ∃ id req, c.client.call = some (id, req) ∧
      (c.link.ends true).got = (c.link.ends false).sent ∧
      (c.link.ends true).sent.length < (c.link.ends false).sent.length := by
  obtain ⟨hanswered, -, hreqs, hasked⟩ := h.counts
  have hheard := h.server.heard
  have hcall : ∃ call, c.client.call = some call := by
    cases hclient : c.client with
    | ready =>
      have hnone := h.client.asked
      rw [hclient] at hnone
      simp only [Caller.outstanding] at hnone
      omega
    | sending id req => exact ⟨_, rfl⟩
    | waiting id req => exact ⟨_, rfl⟩
  obtain ⟨⟨id, req⟩, hcall⟩ := hcall
  exact ⟨id, req, hcall, h.requests.eq_of_length (by omega), by omega⟩

/-- A client that has an answer has all of them, and the worker has begun to send all. -/
theorem Regular.answered_of_idle (h : Regular c) {id : Nat} {req : Request} (hclient : c.client = .waiting id req)
    (hpc : (c.link.ends false).pc = .idle) : (c.link.ends false).got = (c.link.ends true).sent ∧
      (c.link.ends true).sent.length = (c.link.ends false).sent.length := by
  obtain ⟨hanswered, hreplied, hreqs, -⟩ := h.counts
  have hasked := h.client.asked
  rw [hclient, hpc] at hasked
  simp only [Caller.outstanding] at hasked
  exact ⟨h.responses.eq_of_length (by omega), by omega⟩

/-- A change of the position of one end changes no payloads. -/
theorem fits_of_sent {l l' : Link} (hfits : ∀ s, ∀ data ∈ (l.ends s).sent, data.length < 2 ^ 32)
    (hsent : ∀ s, (l'.ends s).sent = (l.ends s).sent) : ∀ s, ∀ data ∈ (l'.ends s).sent, data.length < 2 ^ 32 := by
  intro s data hdata
  rw [hsent] at hdata
  exact hfits s data hdata

theorem Moves.sent (hm : c.Moves c') (s : Bool) : (c'.link.ends s).sent = (c.link.ends s).sent := by
  cases hm with
  | take | finish => rfl
  | await | listen | hangUp =>
    simp only [Link.ends_receive, Link.ends_close]
    split
    · subst_vars
      rfl
    · rfl
  | io ht =>
    obtain ⟨t, hmoves, hother⟩ := ht.ends
    by_cases hst : s = t
    · subst hst
      exact hmoves.sent
    · exact congrArg End.sent (hother s hst)

theorem Moves.call (hm : c.Moves c') : c'.client.call = c.client.call := by
  cases hm with
  | take | listen | finish | hangUp | io => rfl
  | await hc hpc =>
    rw [hc]
    rfl

theorem Regular.move (h : Regular c) (hm : c.Moves c') : Regular c' := by
  obtain ⟨hlink, hfits, hclient, hserver⟩ := h
  have hfits' := fits_of_sent hfits hm.sent
  cases hm with
  | take hq =>
    rw [hq] at hserver
    exact ⟨hlink, hfits, hclient, hserver.isAt, hserver.heard⟩
  | await hc hpc =>
    have hasked := hclient.asked
    rw [hc, hpc] at hasked
    exact ⟨hlink.receive hpc, hfits', ⟨by rintro r ⟨⟩, hasked⟩, hserver⟩
  | listen hs hpc =>
    have hheard := hserver.heard
    rcases hs with hs | hs
    all_goals
      rw [hs, hpc] at hheard
      exact ⟨hlink.receive hpc, hfits', hclient, ⟨by rintro r ⟨⟩, hheard⟩⟩
  | finish hs hpc =>
    have hheard := hserver.heard
    rcases hs with hs | hs
    all_goals
      rw [hs, hpc] at hheard
      exact ⟨hlink, hfits, hclient, hpc, by rw [hpc]; exact hheard⟩
  | hangUp hc hpc =>
    rw [hc] at hclient
    exact ⟨hlink.close false, hfits', ⟨hc ▸ .inr rfl, hc ▸ hclient.asked⟩, hserver⟩
  | io ht =>
    obtain ⟨s, hmoves, hother⟩ := ht.ends
    refine ⟨hlink.takes ht, hfits', ?_, ?_⟩
    · cases s with
      | false => exact hclient.move hmoves
      | true =>
        show c.client.Regular _
        rw [hother false (by decide)]
        exact hclient
    · cases s with
      | true => exact hserver.move hmoves
      | false =>
        show c.server.Regular _
        rw [hother true (by decide)]
        exact hserver

/-- How far request `id` of the client has come: it is under way, or in the hands of the worker, or has taken
effect and the answer has been sent. -/
inductive Stage (history : List (Linear.Event Request Response)) (order : List (Effect Request Response)) (id : Nat)
    (req : Request) (c : Conn) : Prop
  | underway : (c.link.ends true).got.length < (c.link.ends false).sent.length → id ∉ order.map Effect.id → Stage ..
  | received : c.server = .receiving → (c.link.ends true).got.length = (c.link.ends false).sent.length →
      (c.link.ends true).sent.length < (c.link.ends false).sent.length → id ∉ order.map Effect.id → Stage ..
  | handling {rest : Handler Response} : c.server = .handling rest →
      (c.link.ends true).sent.length < (c.link.ends false).sent.length →
      Served.WorkerFits history order id (.busy req rest) → Stage ..
  | replied {resp : Response} : (c.link.ends true).sent.getLast? = some (serializeResponse resp) →
      (c.link.ends true).sent.length = (c.link.ends false).sent.length → ⟨id, req, resp⟩ ∈ order → Stage ..

variable {history history' : List (Linear.Event Request Response)} {order order' : List (Effect Request Response)}
  {id : Nat} {req : Request}

theorem Stage.mono (h : Stage history order id req c) (hhist : ∀ e ∈ history, e ∈ history')
    (horder : ∀ e ∈ order, e ∈ order') (hid : id ∈ order'.map Effect.id → id ∈ order.map Effect.id) :
    Stage history' order' id req c := by
  cases h with
  | underway hlt hnew => exact .underway hlt fun hmem => hnew (hid hmem)
  | received hs heq hlt hnew => exact .received hs heq hlt fun hmem => hnew (hid hmem)
  | handling hs hlt hfit => exact .handling hs hlt (hfit.mono hhist horder hid)
  | replied hlast heq hmem => exact .replied hlast heq (horder _ hmem)

/-- A step that is nothing to the worker's requests leaves the stage. -/
theorem Stage.same (h : Stage history order id req c) (hsent : ∀ s, (c'.link.ends s).sent = (c.link.ends s).sent)
    (hgot : (c'.link.ends true).got = (c.link.ends true).got)
    (hserver : c'.server = c.server ∨ c.server.held (c.link.ends true).pc = 0) (hr : Regular c) :
    Stage history order id req c' := by
  have hheard := hr.server.heard
  cases h with
  | underway hlt hnew => exact .underway (by rw [hsent, hgot]; exact hlt) hnew
  | received hs heq hlt hnew =>
    rcases hserver with hsame | hzero
    · exact .received (hsame.trans hs) (by rw [hsent, hgot]; exact heq) (by rw [hsent, hsent]; exact hlt) hnew
    · omega
  | handling hs hlt hfit =>
    rcases hserver with hsame | hzero
    · exact .handling (hsame.trans hs) (by rw [hsent, hsent]; exact hlt) hfit
    · rw [hs] at hzero
      cases hzero
  | replied hlast heq hmem => exact .replied (by rw [hsent]; exact hlast) (by rw [hsent, hsent]; exact heq) hmem

/-- The worker receives a request. -/
theorem Stage.hear (h : Stage history order id req c) (hr : Regular c) (hr' : Regular c')
    (hsent : ∀ s, (c'.link.ends s).sent = (c.link.ends s).sent)
    (hgot : (c'.link.ends true).got.length = (c.link.ends true).got.length + 1)
    (hserver : c.server = .receiving) (hsame : c'.server = c.server) : Stage history order id req c' := by
  obtain ⟨-, hreplied, -, -⟩ := hr.counts
  have hreqs := hr'.requests.length_le
  rw [hsent, hgot] at hreqs
  cases h with
  | underway hlt hnew =>
    by_cases hall : (c.link.ends true).got.length + 1 = (c.link.ends false).sent.length
    · exact .received (hsame.trans hserver) (by rw [hsent, hgot]; exact hall) (by rw [hsent, hsent]; omega) hnew
    · exact .underway (by rw [hsent, hgot]; omega) hnew
  | received hs heq hlt hnew => omega
  | handling hs hlt hfit => cases hs.symm.trans hserver
  | replied hlast heq hmem => omega

theorem Stage.move (h : Stage history order id req c) (hr : Regular c) (hm : c.Moves c') :
    Stage history order id req c' := by
  have hsent := hm.sent
  have hr' := hr.move hm
  cases hm with
  | take hq => exact h.same hsent rfl (.inr (by rw [hq]; rfl)) hr
  | await hc hpc => exact h.same hsent rfl (.inl rfl) hr
  | listen hs hpc =>
    refine h.same hsent rfl (.inr ?_) hr
    rcases hs with hs | hs <;> rw [hs] <;> rfl
  | finish hs hpc =>
    refine h.same hsent rfl (.inr ?_) hr
    rcases hs with hs | hs <;> rw [hs, hpc] <;> rfl
  | hangUp hc hpc => exact h.same hsent rfl (.inl rfl) hr
  | io ht =>
    obtain ⟨s, hmoves, hother⟩ := ht.ends
    cases s with
    | false => exact h.same hsent (congrArg End.got (hother true (by decide))) (.inl rfl) hr
    | true =>
      rcases hmoves.got with hgot | ⟨⟨r, hpc⟩, data, hgot⟩
      · exact h.same hsent hgot (.inl rfl) hr
      · refine h.hear hr hr' hsent ?_ (hr.server.receiving_of_reading hpc) rfl
        show (Link.ends _ true).got.length = _
        rw [hgot, List.length_append, List.length_singleton]

/-- The request of the client is the last one it has sent, and is at one of its stages. -/
structure Placed (history : List (Linear.Event Request Response)) (order : List (Effect Request Response)) (id : Nat)
    (req : Request) (c : Conn) : Prop where
  invoked : .invoke id req ∈ history
  fits : req.FitsFrame
  last : (c.link.ends false).sent.getLast? = some (serializeRequest req)
  stage : Stage history order id req c

theorem Placed.mono (h : Placed history order id req c) (hhist : ∀ e ∈ history, e ∈ history')
    (horder : ∀ e ∈ order, e ∈ order') (hid : id ∈ order'.map Effect.id → id ∈ order.map Effect.id) :
    Placed history' order' id req c :=
  ⟨hhist _ h.invoked, h.fits, h.last, h.stage.mono hhist horder hid⟩

/-- What the worker has received is the request. -/
theorem Placed.decode (h : Placed history order id req c) (hall : (c.link.ends true).got = (c.link.ends false).sent) :
    (c.link.ends true).got.getLast?.bind deserializeRequest = some req := by
  rw [hall, h.last]
  exact deserializeRequest_serialize h.fits

end Conn

end KvStore
