/-
The command line client (`src/client/cli_client.cpp`): a loop that turns lines into requests, sends
them and prints the answers. With the standalone server at the other end of the connection a session
reads as if the client kept the map itself (`session_local`), and a value that was typed is printed
byte for byte (`session_put_get`).
-/
import KvStore.Lib.Text
import KvStore.Networking.Connection

namespace KvStore

open Bytes Text Protocol Sockets

/-- `statusToString`. -/
def statusToString : Status → Str
  | .ok => ascii "OK"
  | .notFound => ascii "NOT_FOUND"
  | .error => ascii "ERROR"
  | .keyTooLarge => ascii "KEY_TOO_LARGE"
  | .valueTooLarge => ascii "VALUE_TOO_LARGE"
  | .invalidRequest => ascii "INVALID_REQUEST"
  | .nodeUnavailable => ascii "NODE_UNAVAILABLE"
  | .other _ _ => ascii "UNKNOWN"

namespace Cli

/-! ## What is typed -/

/-- What a line asks for. -/
inductive Typed
  | nothing
  | quit
  | help
  | unknown (cmd : Str)
  | request (req : Request)
  deriving DecidableEq, Repr

/-- `toupper` in the C locale. -/
def upper (b : UInt8) : UInt8 := if 97 ≤ b ∧ b ≤ 122 then b - 32 else b

/-- `iss >> cmd_str`, `iss >> req.key`: a failed read leaves the empty string, and all later reads of
the line fail too. -/
def nextWord (s : Str) : Str × Str := (word s).getD ([], [])

/-- `if (!value.empty() && value[0] == ' ') value = value.substr(1)`. -/
def stripSpace : Str → Str
  | 32 :: s => s
  | s => s

def readLine (line : Str) : Typed :=
  if line = [] then .nothing
  else
    let (word, s) := nextWord line
    let cmd := word.map upper
    if cmd = ascii "QUIT" ∨ cmd = ascii "EXIT" then .quit
    else if cmd = ascii "HELP" then .help
    else if cmd = ascii "PUT" then .request ⟨.put, (nextWord s).1, stripSpace (nextWord s).2⟩
    else if cmd = ascii "GET" then .request ⟨.get, (nextWord s).1, []⟩
    else if cmd = ascii "DELETE" ∨ cmd = ascii "DEL" then .request ⟨.delete, (nextWord s).1, []⟩
    else if cmd = ascii "PING" then .request ⟨.ping, [], []⟩
    else .unknown cmd

/-! ## The loop -/

/-- What has been written to `std::cout` and to `std::cerr`. -/
structure Console where
  out : Str
  err : Str
  deriving DecidableEq, Repr

def Console.print (c : Console) (s : Str) : Console := { c with out := c.out ++ s }

def Console.complain (c : Console) (s : Str) : Console := { c with err := c.err ++ s }

def helpText : Str := ascii
  "Commands:\n  PUT <key> <value>\n  GET <key>\n  DELETE <key> or DEL <key>\n  PING\n  QUIT or EXIT\n"

def Console.show (c : Console) (resp : Response) : Console :=
  let c := c.print (ascii "Status: " ++ statusToString resp.status ++ ascii "\n")
  if resp.value = [] then c else c.print (ascii "Value: " ++ resp.value ++ ascii "\n")

/-- How a request ends. -/
inductive Outcome
  | sendFailed
  | receiveFailed
  | unparsable
  | answered (resp : Response)
  deriving DecidableEq, Repr

/-- Send the request and wait for the answer. -/
def exchange (req : Request) (fd : Socket UInt8) : Outcome × Socket UInt8 :=
  match writeFrameFd fd (serializeRequest req) with
  | (false, fd) => (.sendFailed, fd)
  | (true, fd) =>
    match readFrameFd fd with
    | (none, fd) => (.receiveFailed, fd)
    | (some data, fd) =>
      match deserializeResponse data with
      | none => (.unparsable, fd)
      | some resp => (.answered resp, fd)

/-- The loop of `main` on the lines of `std::cin`, over any way to have a request answered. -/
def mainLoop {σ : Type} (ask : Request → σ → Outcome × σ) : List Str → σ → Console → σ × Console
  | [], st, con => (st, con.print (ascii "kv> "))
  | line :: ls, st, con =>
    let con := con.print (ascii "kv> ")
    match readLine line with
    | .nothing => mainLoop ask ls st con
    | .quit => (st, con)
    | .help => mainLoop ask ls st (con.print helpText)
    | .unknown cmd => mainLoop ask ls st (con.print (ascii "Unknown command: " ++ cmd ++ ascii "\n"))
    | .request req =>
      match ask req st with
      | (.sendFailed, st) => (st, con.complain (ascii "Error sending request. Disconnected.\n"))
      | (.receiveFailed, st) => (st, con.complain (ascii "Error receiving response. Disconnected.\n"))
      | (.unparsable, st) => mainLoop ask ls st (con.complain (ascii "Failed to parse response.\n"))
      | (.answered resp, st) => mainLoop ask ls st (con.show resp)

/-- The loop without a connection: the requests go to a handler in the client itself. -/
def answerLocally {σ : Type} (handle : Request → σ → Response × σ) (req : Request) (st : σ) : Outcome × σ :=
  (.answered (handle req st).1, (handle req st).2)

/-- The requests of a session. -/
def requested : List Str → List Request
  | [] => []
  | line :: ls =>
    match readLine line with
    | .quit => []
    | .request req => req :: requested ls
    | _ => requested ls

/-- The client and a standalone server at the two ends of a connection: each reads what the other
one writes, in pieces of any sizes. -/
structure Talk (input : Str) (p : Process) (sizes sizes' : Nat → Nat) (toServer toClient : Str) (con : Console)
    (p' : Process) : Prop where
  client : ∃ fd, mainLoop exchange (lines input) (.start toClient sizes) ⟨[], []⟩ = (fd, con) ∧ fd.output = toServer
  server : ∃ conn, handleConnection (some serve) (.start toServer sizes') p = some (conn, p') ∧
    conn.fd.output = toClient

/-! ## Requests -/

theorem length_nextWord (s : Str) : (nextWord s).1.length + (nextWord s).2.length ≤ s.length := by
  unfold nextWord
  cases hword : word s with
  | none => simp
  | some r =>
    obtain ⟨blanks, rfl, -⟩ := word_iff.1 (show word s = some (r.1, r.2) from hword)
    simp only [Option.getD_some, List.length_append]
    omega

theorem length_stripSpace (s : Str) : (stripSpace s).length ≤ s.length := by
  unfold stripSpace
  split
  · simp
  · exact le_rfl

/-- Key and value are parts of the line. -/
theorem readLine_length {line : Str} {req : Request} (h : readLine line = .request req) :
    req.key.length + req.value.length ≤ line.length := by
  have hline := length_nextWord line
  have hkey := length_nextWord (nextWord line).2
  have hvalue := length_stripSpace (nextWord (nextWord line).2).2
  simp only [readLine] at h
  split_ifs at h <;> cases h
  all_goals
    simp only [List.length_nil]
    omega

/-- A line ends the session, is a request, or only makes the client print something. -/
inductive LineKind (line : Str) : Prop
  | quit (h : readLine line = .quit)
  | request (req : Request) (h : readLine line = .request req)
  | idle (said : Console → Console) (hreqs : ∀ ls, requested (line :: ls) = requested ls)
      (hloop : ∀ {σ : Type} (ask : Request → σ → Outcome × σ) ls st con,
        mainLoop ask (line :: ls) st con = mainLoop ask ls st (said con))
      (herr : ∀ con, (said con).err = con.err)

theorem lineKind (line : Str) : LineKind line := by
  cases h : readLine line with
  | quit => exact .quit h
  | request req => exact .request req h
  | nothing =>
    refine .idle (·.print (ascii "kv> ")) ?_ ?_ fun _ => rfl
    · exact fun ls => by simp only [requested, h]
    · exact fun ask ls st con => by simp only [mainLoop, h]
  | help =>
    refine .idle (fun con => (con.print (ascii "kv> ")).print helpText) ?_ ?_ fun _ => rfl
    · exact fun ls => by simp only [requested, h]
    · exact fun ask ls st con => by simp only [mainLoop, h]
  | unknown cmd =>
    refine .idle (fun con => (con.print (ascii "kv> ")).print (ascii "Unknown command: " ++ cmd ++ ascii "\n")) ?_ ?_
      fun _ => rfl
    · exact fun ls => by simp only [requested, h]
    · exact fun ask ls st con => by simp only [mainLoop, h]

theorem requested_quit {line : Str} (h : readLine line = .quit) (ls : List Str) : requested (line :: ls) = [] := by
  simp only [requested, h]

theorem requested_request {line : Str} {req : Request} (h : readLine line = .request req) (ls : List Str) :
    requested (line :: ls) = req :: requested ls := by
  simp only [requested, h]

theorem mainLoop_quit {σ : Type} (ask : Request → σ → Outcome × σ) {line : Str} (h : readLine line = .quit)
    (ls : List Str) (st : σ) (con : Console) :
    mainLoop ask (line :: ls) st con = (st, con.print (ascii "kv> ")) := by
  simp only [mainLoop, h]

theorem mainLoop_answered {σ : Type} {ask : Request → σ → Outcome × σ} {line : Str} {req : Request} {resp : Response}
    {st st' : σ} (h : readLine line = .request req) (hask : ask req st = (.answered resp, st')) (ls : List Str)
    (con : Console) :
    mainLoop ask (line :: ls) st con = mainLoop ask ls st' ((con.print (ascii "kv> ")).show resp) := by
  simp only [mainLoop, h, hask]

theorem requested_fits : ∀ {ls : List Str}, (∀ line ∈ ls, 9 + line.length < 2 ^ 32) →
    ∀ req ∈ requested ls, req.FitsFrame
  | [], _, req, hreq => by cases hreq
  | line :: ls, h, req, hreq => by
    obtain ⟨hline, hls⟩ := List.forall_mem_cons.1 h
    cases lineKind line with
    | quit hquit =>
      rw [requested_quit hquit] at hreq
      cases hreq
    | request r hr =>
      rw [requested_request hr] at hreq
      rcases List.mem_cons.1 hreq with rfl | hreq
      · have := readLine_length hr
        unfold Request.FitsFrame
        omega
      · exact requested_fits hls req hreq
    | idle said hreqs =>
      rw [hreqs] at hreq
      exact requested_fits hls req hreq

/-! ## The client alone -/

theorem exchange_output (req : Request) (fd : Socket UInt8) :
    (exchange req fd).2.output = fd.output ++ writeFrame (serializeRequest req) := by
  obtain ⟨calls, hwrite⟩ := fd.writeFully_eq (writeFrame (serializeRequest req))
  unfold exchange writeFrameFd
  rw [hwrite]
  dsimp only
  generalize hfd : ({ fd with output := fd.output ++ writeFrame (serializeRequest req), calls := calls } :
    Socket UInt8) = fd'
  have hout : fd'.output = fd.output ++ writeFrame (serializeRequest req) := by rw [← hfd]
  rcases hframe : readFrame fd'.input with _ | ⟨data, rest⟩
  · obtain ⟨calls', hread⟩ := readFrameFd_none hframe
    rw [hread]
    exact hout
  · obtain ⟨calls', hread⟩ := readFrameFd_some hframe
    rw [hread]
    dsimp only
    split <;> exact hout

theorem exchange_ended {fd : Socket UInt8} (req : Request) (hinput : fd.input = []) :
    (exchange req fd).1 = .receiveFailed := by
  obtain ⟨calls, hwrite⟩ := fd.writeFully_eq (writeFrame (serializeRequest req))
  have hframe : readFrame ({ fd with output := fd.output ++ writeFrame (serializeRequest req), calls := calls } :
      Socket UInt8).input = none := by
    show readFrame fd.input = none
    rw [hinput]
    rfl
  obtain ⟨calls', hread⟩ := readFrameFd_none hframe
  simp only [exchange, writeFrameFd, hwrite, hread]

theorem exchange_answered {fd : Socket UInt8} {resp : Response} {rest : Str} (req : Request)
    (hfit : 5 + resp.value.length < 2 ^ 32) (hinput : fd.input = writeFrame (serializeResponse resp) ++ rest) :
    ∃ fd', exchange req fd = (.answered resp, fd') ∧ fd'.input = rest := by
  obtain ⟨calls, hwrite⟩ := fd.writeFully_eq (writeFrame (serializeRequest req))
  have hlen : (serializeResponse resp).length < 2 ^ 32 := by
    simp only [serializeResponse, List.length_cons, List.length_append, length_be32]
    omega
  generalize hfd : ({ fd with output := fd.output ++ writeFrame (serializeRequest req), calls := calls } :
    Socket UInt8) = fd' at hwrite
  have hframe : readFrame fd'.input = some (serializeResponse resp, rest) := by
    rw [← hfd, show ({ fd with output := _, calls := calls } : Socket UInt8).input = fd.input from rfl, hinput]
    exact readFrame_writeFrame hlen rest
  obtain ⟨calls', hread⟩ := readFrameFd_some hframe
  refine ⟨{ fd' with input := rest, calls := calls' }, ?_, rfl⟩
  simp only [exchange, writeFrameFd, hwrite, hread, deserializeResponse_serialize hfit]

/-- Whatever comes back, the client has sent some of the requests of the session, in order. -/
theorem mainLoop_output : ∀ (ls : List Str) (fd : Socket UInt8) (con : Console),
    ∃ k ≤ (requested ls).length,
      (mainLoop exchange ls fd con).1.output = fd.output ++ requestFrames ((requested ls).take k)
  | [], fd, con => ⟨0, le_rfl, by simp [mainLoop, requestFrames]⟩
  | line :: ls, fd, con => by
    cases lineKind line with
    | quit hquit =>
      refine ⟨0, Nat.zero_le _, ?_⟩
      rw [mainLoop_quit exchange hquit]
      simp [requestFrames]
    | idle said hreqs hloop =>
      rw [hreqs, hloop]
      exact mainLoop_output ls fd (said con)
    | request req hreq =>
      have hout := exchange_output req fd
      rw [requested_request hreq]
      -- the request is sent, and then as many as there are answers for
      have hnext : ∀ con, ∃ k ≤ (req :: requested ls).length,
          (mainLoop exchange ls (exchange req fd).2 con).1.output =
            fd.output ++ requestFrames ((req :: requested ls).take k) := by
        intro con
        obtain ⟨k, hk, hrest⟩ := mainLoop_output ls (exchange req fd).2 con
        exact ⟨k + 1, Nat.succ_le_succ hk, by rw [hrest, hout, List.append_assoc]; rfl⟩
      have hstop : ∃ k ≤ (req :: requested ls).length,
          (exchange req fd).2.output = fd.output ++ requestFrames ((req :: requested ls).take k) :=
        ⟨1, by simp, by rw [hout]; simp [requestFrames]⟩
      rcases hask : exchange req fd with ⟨outcome, fd'⟩
      rw [hask] at hnext hstop
      simp only [mainLoop, hreq, hask]
      cases outcome with
      | sendFailed => exact hstop
      | receiveFailed => exact hstop
      | unparsable => exact hnext _
      | answered resp => exact hnext _

/-- With too few answers it sends one request more than there are answers. -/
theorem mainLoop_starved : ∀ (ls : List Str) (resps : List Response) (fd : Socket UInt8) (con : Console),
    (∀ resp ∈ resps, 5 + resp.value.length < 2 ^ 32) → fd.input = responseFrames resps →
    resps.length < (requested ls).length →
    (mainLoop exchange ls fd con).1.output = fd.output ++ requestFrames ((requested ls).take (resps.length + 1))
  | [], _, _, _, _, _, hlt => absurd hlt (Nat.not_lt_zero _)
  | line :: ls, resps, fd, con, hfits, hinput, hlt => by
    cases lineKind line with
    | quit hquit =>
      rw [requested_quit hquit] at hlt
      exact absurd hlt (Nat.not_lt_zero _)
    | idle said hreqs hloop =>
      rw [hreqs] at hlt ⊢
      rw [hloop]
      exact mainLoop_starved ls resps fd (said con) hfits hinput hlt
    | request req hreq =>
      have hout := exchange_output req fd
      rw [requested_request hreq] at hlt ⊢
      cases resps with
      | nil =>
        have hask := exchange_ended req (hinput.trans rfl)
        rcases hfd : exchange req fd with ⟨outcome, fd'⟩
        rw [hfd] at hask hout
        obtain rfl : outcome = .receiveFailed := hask
        simp only [mainLoop, hreq, hfd]
        rw [hout]
        simp [requestFrames]
      | cons resp resps =>
        obtain ⟨hfit, hfits⟩ := List.forall_mem_cons.1 hfits
        obtain ⟨fd', hask, hrest⟩ := exchange_answered req hfit (hinput.trans rfl)
        rw [hask] at hout
        rw [mainLoop_answered hreq hask,
          mainLoop_starved ls resps fd' _ hfits hrest (by simpa using hlt), hout, List.append_assoc]
        rfl

theorem answerLocally_eq {σ : Type} (handle : Request → σ → Response × σ) (req : Request) (st : σ) :
    answerLocally handle req st = (.answered (handle req st).1, (handle req st).2) := rfl

/-- With the answers of a handler the session is the local one. -/
theorem mainLoop_served {σ : Type} (handle : Request → σ → Response × σ) :
    ∀ (ls : List Str) (st : σ) (fd : Socket UInt8) (con : Console),
      (∀ resp ∈ (respondAll handle (requested ls) st).1, 5 + resp.value.length < 2 ^ 32) →
      fd.input = responseFrames (respondAll handle (requested ls) st).1 →
      (mainLoop exchange ls fd con).2 = (mainLoop (answerLocally handle) ls st con).2 ∧
        (mainLoop exchange ls fd con).1.output = fd.output ++ requestFrames (requested ls) ∧
        (mainLoop (answerLocally handle) ls st con).1 = (respondAll handle (requested ls) st).2
  | [], st, fd, con, _, _ => ⟨rfl, by simp [mainLoop, requested, requestFrames], rfl⟩
  | line :: ls, st, fd, con, hfits, hinput => by
    cases lineKind line with
    | quit hquit =>
      rw [mainLoop_quit _ hquit, mainLoop_quit _ hquit, requested_quit hquit]
      exact ⟨rfl, by simp [requestFrames], rfl⟩
    | idle said hreqs hloop =>
      rw [hreqs] at hfits hinput ⊢
      rw [hloop, hloop]
      exact mainLoop_served handle ls st fd (said con) hfits hinput
    | request req hreq =>
      have hout := exchange_output req fd
      rw [requested_request hreq] at hfits hinput ⊢
      obtain ⟨hfit, hfits⟩ := List.forall_mem_cons.1 hfits
      obtain ⟨fd', hask, hrest⟩ := exchange_answered req hfit (hinput.trans rfl)
      rw [hask] at hout
      rw [mainLoop_answered hreq hask, mainLoop_answered hreq (answerLocally_eq handle req st)]
      obtain ⟨hcon, hsent, hst⟩ := mainLoop_served handle ls (handle req st).2 fd'
        ((con.print (ascii "kv> ")).show (handle req st).1) hfits hrest
      refine ⟨hcon, ?_, hst⟩
      rw [hsent, hout, List.append_assoc]
      rfl

/-! ## The client and the server -/

/-- The frames of fewer requests are shorter. -/
theorem length_requestFrames_take {reqs : List Request} {k : Nat} (hk : k < reqs.length) :
    (requestFrames (reqs.take k)).length < (requestFrames (reqs.take (k + 1))).length := by
  rw [List.take_succ_eq_append_getElem hk, requestFrames, requestFrames, List.flatMap_append, List.length_append]
  have hpos := writeFrame_pos (serializeRequest reqs[k])
  simp only [List.flatMap_cons, List.flatMap_nil, List.append_nil]
  omega

/-- A handler that another one simulates shows the same to the user. -/
theorem mainLoop_simulates {σ τ : Type} {handle : Request → σ → Response × σ} {handle' : Request → τ → Response × τ}
    {f : σ → τ}
    (h : ∀ req st, (handle req st).1 = (handle' req (f st)).1 ∧ f (handle req st).2 = (handle' req (f st)).2) :
    ∀ (ls : List Str) (st : σ) (con : Console),
      mainLoop (answerLocally handle') ls (f st) con =
        (f (mainLoop (answerLocally handle) ls st con).1, (mainLoop (answerLocally handle) ls st con).2)
  | [], _, _ => rfl
  | line :: ls, st, con => by
    cases lineKind line with
    | quit hquit => rw [mainLoop_quit _ hquit, mainLoop_quit _ hquit]
    | idle said hreqs hloop =>
      rw [hloop, hloop]
      exact mainLoop_simulates h ls st (said con)
    | request req hreq =>
      rw [mainLoop_answered hreq (answerLocally_eq handle' req (f st)),
        mainLoop_answered hreq (answerLocally_eq handle req st), ← (h req st).1, ← (h req st).2]
      exact mainLoop_simulates h ls _ _

/-- A local session has nothing to complain about. -/
theorem mainLoop_err {σ : Type} (handle : Request → σ → Response × σ) : ∀ (ls : List Str) (st : σ) (con : Console),
    (mainLoop (answerLocally handle) ls st con).2.err = con.err
  | [], _, _ => rfl
  | line :: ls, st, con => by
    cases lineKind line with
    | quit hquit =>
      rw [mainLoop_quit _ hquit]
      rfl
    | idle said hreqs hloop herr =>
      rw [hloop, mainLoop_err handle ls st, herr]
    | request req hreq =>
      rw [mainLoop_answered hreq (answerLocally_eq handle req st), mainLoop_err handle ls]
      unfold Console.show
      split <;> rfl

section Talk

variable {input : Str} {p : Process} {sizes sizes' : Nat → Nat}

/-- What the session of `Talk` shows, if the client keeps the map itself. -/
def reference (input : Str) (p : Process) : (Key → Option Value) × Console :=
  mainLoop (answerLocally LimitedMap.step) (lines input) p.contents ⟨[], []⟩

theorem unanswerable_nil : Unanswerable [] := by
  intro data rest h
  cases h

/-- The two streams are all requests and all answers. -/
theorem exists_talk (hp : p.store.WithinLimits) (hfits : ∀ line ∈ lines input, 9 + line.length < 2 ^ 32)
    (sizes sizes' : Nat → Nat) :
    ∃ con, Talk input p sizes sizes' (requestFrames (requested (lines input)))
      (responseFrames (respondAll serve (requested (lines input)) p).1) con
      (respondAll serve (requested (lines input)) p).2 := by
  have hresps := (respondAll_refines (requested (lines input)) hp).2.2
  obtain ⟨-, hsent, -⟩ := mainLoop_served serve (lines input) p
    (.start (responseFrames (respondAll serve (requested (lines input)) p).1) sizes) ⟨[], []⟩ hresps rfl
  obtain ⟨conn, hconn, -, hout⟩ := handleConnection_requests serve (requested_fits hfits) unanswerable_nil sizes' p
  rw [List.append_nil] at hconn
  exact ⟨_, ⟨_, rfl, hsent⟩, conn, hconn, hout⟩

/-- There are no others. -/
theorem Talk.streams {toServer toClient : Str} {con : Console} {p' : Process} (hp : p.store.WithinLimits)
    (hfits : ∀ line ∈ lines input, 9 + line.length < 2 ^ 32)
    (h : Talk input p sizes sizes' toServer toClient con p') :
    toServer = requestFrames (requested (lines input)) ∧
      toClient = responseFrames (respondAll serve (requested (lines input)) p).1 ∧
      p' = (respondAll serve (requested (lines input)) p).2 := by
  obtain ⟨fd, hclient, hsent⟩ := h.client
  obtain ⟨conn, hserver, hout⟩ := h.server
  -- the client has sent the first `k` requests, and the server has answered those
  obtain ⟨k, hk, hk'⟩ := mainLoop_output (lines input) (.start toClient sizes) ⟨[], []⟩
  generalize hreqs : requested (lines input) = reqs at hk hk' ⊢
  rw [hclient] at hk'
  have hfirst : toServer = requestFrames (reqs.take k) := by
    rw [← hsent, hk']
    rfl
  have hfit : ∀ req ∈ reqs.take k, req.FitsFrame := by
    intro req hreq
    rw [← hreqs] at hreq
    exact requested_fits hfits req (List.mem_of_mem_take hreq)
  obtain ⟨conn', hserver', -, hout'⟩ := handleConnection_requests serve hfit unanswerable_nil sizes' p
  rw [List.append_nil, ← hfirst, hserver, Option.some.injEq, Prod.mk.injEq] at hserver'
  obtain ⟨rfl, rfl⟩ := hserver'
  have hanswers : toClient = responseFrames (respondAll serve (reqs.take k) p).1 := hout.symm.trans hout'
  have hlen : (respondAll serve (reqs.take k) p).1.length = k := by
    rw [length_respondAll, List.length_take, min_eq_left hk]
  -- with `k` answers the client would have sent one request more, unless there is none
  have hall : k = reqs.length := by
    by_contra hne
    have hlt : k < reqs.length := by omega
    have hmore := mainLoop_starved (lines input) (respondAll serve (reqs.take k) p).1 (.start toClient sizes) ⟨[], []⟩
      (respondAll_refines _ hp).2.2 hanswers (by rw [hlen, hreqs]; exact hlt)
    rw [hlen, hreqs, hclient, hk'] at hmore
    have hshorter := length_requestFrames_take hlt
    rw [List.append_cancel_left hmore] at hshorter
    exact absurd hshorter (lt_irrefl _)
  rw [hall, List.take_length] at hanswers hfirst
  rw [hall, List.take_length]
  exact ⟨hfirst, hanswers, rfl⟩

/-- What is seen and stored is the reference. -/
theorem Talk.eq_reference {toServer toClient : Str} {con : Console} {p' : Process} (hp : p.store.WithinLimits)
    (hfits : ∀ line ∈ lines input, 9 + line.length < 2 ^ 32)
    (h : Talk input p sizes sizes' toServer toClient con p') :
    con = (reference input p).2 ∧ p'.contents = (reference input p).1 := by
  obtain ⟨-, rfl, rfl⟩ := h.streams hp hfits
  obtain ⟨fd, hclient, -⟩ := h.client
  obtain ⟨hcon, -, hst⟩ := mainLoop_served serve (lines input) p
    (.start (responseFrames (respondAll serve (requested (lines input)) p).1) sizes) ⟨[], []⟩
    (respondAll_refines (requested (lines input)) hp).2.2 rfl
  rw [hclient] at hcon
  have hsim : reference input p = _ := mainLoop_simulates serve_refines (lines input) p ⟨[], []⟩
  rw [hsim, ← hst]
  exact ⟨hcon, rfl⟩

/-- A session is a local one. Whatever is typed, in lines of less than 2^32 - 9 bytes, client and server
can talk to each other in exactly one way, however the connection cuts up what it carries: the requests
of all lines go one way and their answers the other, the user sees what a client would show that keeps
the map with limits itself, nothing goes wrong, and the server's store ends as that map. -/
theorem session_local (hp : p.store.WithinLimits) (hfits : ∀ line ∈ lines input, 9 + line.length < 2 ^ 32) :
    ∃ toServer toClient con p',
      (∀ sizes sizes', Talk input p sizes sizes' toServer toClient con p') ∧
      (∀ sizes sizes' toServer₁ toClient₁ con₁ p₁, Talk input p sizes sizes' toServer₁ toClient₁ con₁ p₁ →
        toServer₁ = toServer ∧ toClient₁ = toClient ∧ con₁ = con ∧ p₁ = p') ∧
      toServer = requestFrames (requested (lines input)) ∧
      toClient = responseFrames (respondAll LimitedMap.step (requested (lines input)) p.contents).1 ∧
      con = (reference input p).2 ∧ con.err = [] ∧ p'.contents = (reference input p).1 := by
  have htalk : ∀ sizes sizes', Talk input p sizes sizes' (requestFrames (requested (lines input)))
      (responseFrames (respondAll serve (requested (lines input)) p).1) (reference input p).2
      (respondAll serve (requested (lines input)) p).2 := by
    intro sizes sizes'
    obtain ⟨con, h⟩ := exists_talk hp hfits sizes sizes'
    rw [← (h.eq_reference hp hfits).1]
    exact h
  refine ⟨_, _, _, _, htalk, ?_, rfl, ?_, rfl, mainLoop_err _ _ _ _, ?_⟩
  · intro sizes sizes' toServer₁ toClient₁ con₁ p₁ h
    obtain ⟨hserver, hclient, hp₁⟩ := h.streams hp hfits
    exact ⟨hserver, hclient, (h.eq_reference hp hfits).1, hp₁⟩
  · rw [(respondAll_refines (requested (lines input)) hp).1]
  · exact ((htalk (fun _ => 1) (fun _ => 1)).eq_reference hp hfits).2

/-- Commands in any case, a value with blanks, an unknown command and a line that is never read. -/
theorem session_local_short :
    let input := ascii "put k  v w\nGET k\nfoo\n\nDel k\nget k\nexit\nGET k"
    let p : Process := ⟨KVStore.empty, Disk.empty⟩
    ∃ toServer toClient con p', Talk input p (fun _ => 1) (fun _ => 3) toServer toClient con p' ∧
      toServer = requestFrames [⟨.put, ascii "k", ascii " v w"⟩, ⟨.get, ascii "k", []⟩, ⟨.delete, ascii "k", []⟩,
        ⟨.get, ascii "k", []⟩] ∧
      con.out = ascii ("kv> Status: OK\nkv> Status: OK\nValue:  v w\nkv> Unknown command: FOO\nkv> kv> " ++
        "Status: OK\nkv> Status: NOT_FOUND\nkv> ") ∧ con.err = [] := by
  intro input p
  have hfits : ∀ line ∈ lines input, 9 + line.length < 2 ^ 32 := by decide +kernel
  obtain ⟨toServer, toClient, con, p', htalk, -, hserver, -, hcon, herr, -⟩ :=
    session_local (p := p) KVStore.empty_withinLimits hfits
  refine ⟨toServer, toClient, con, p', htalk _ _, ?_, ?_, herr⟩
  · rw [hserver]
    decide +kernel
  · rw [hcon]
    decide +kernel

/-! ## What was typed comes back -/

/-- A line of the command `cmd`, in any case, with a key behind it. -/
structure CommandLine (cmd line key rest : Str) : Prop where
  spelled : ∃ b₀ w b₁, line = b₀ ++ (w ++ (b₁ ++ (key ++ rest))) ∧ Blank b₀ ∧ w.map upper = cmd ∧ Blank b₁ ∧ b₁ ≠ []
  key : IsWord key
  ends : ∀ b ∈ rest.head?, isSpace b = true

theorem isSpace_upper (b : UInt8) : isSpace (upper b) = isSpace b := by
  have hletter : ∀ c : UInt8, 65 ≤ c.toNat → isSpace c = false := by
    intro c hc
    simp only [isSpace, UInt8.le_iff_toNat_le, Bool.or_eq_false_iff, Bool.and_eq_false_iff, decide_eq_false_iff_not,
      beq_eq_false_iff_ne, ne_eq, ← UInt8.toNat_inj, UInt8.reduceToNat]
    omega
  unfold upper
  split
  · rename_i h
    obtain ⟨hlow, hhigh⟩ := h
    rw [UInt8.le_iff_toNat_le] at hlow hhigh
    simp only [UInt8.reduceToNat] at hlow hhigh
    rw [hletter b (by omega), hletter]
    rw [UInt8.toNat_sub]
    simp only [UInt8.reduceToNat]
    omega
  · rfl

theorem CommandLine.read {cmd line key rest : Str} (h : CommandLine cmd line key rest) (hcmd : IsWord cmd) :
    line ≠ [] ∧ (nextWord line).1.map upper = cmd ∧ nextWord (nextWord line).2 = (key, rest) := by
  obtain ⟨b₀, w, b₁, rfl, hb₀, rfl, hb₁, hne⟩ := h.spelled
  have hw : IsWord w := by
    constructor
    · rintro rfl
      exact hcmd.1 rfl
    · intro b hb
      rw [← isSpace_upper]
      exact hcmd.2 _ (List.mem_map_of_mem hb)
  have hfirst : word (b₀ ++ (w ++ (b₁ ++ (key ++ rest)))) = some (w, b₁ ++ (key ++ rest)) :=
    word_append hb₀ hw hb₁ hne
  have hsecond : word (b₁ ++ (key ++ rest)) = some (key, rest) := word_iff.2 ⟨b₁, rfl, hb₁, h.key, h.ends⟩
  refine ⟨by simp [hw.1], ?_, ?_⟩
  · rw [nextWord, hfirst]
    rfl
  · rw [nextWord, nextWord, hfirst]
    show (word (b₁ ++ (key ++ rest))).getD _ = _
    rw [hsecond]
    rfl

theorem CommandLine.readLine_put {line key v : Str} (h : CommandLine (ascii "PUT") line key (32 :: v)) :
    readLine line = .request ⟨.put, key, v⟩ := by
  obtain ⟨hne, hcmd, hkey⟩ := h.read (by decide +kernel)
  simp only [readLine, if_neg hne, hcmd, hkey]
  rfl

theorem CommandLine.readLine_get {line key rest : Str} (h : CommandLine (ascii "GET") line key rest) :
    readLine line = .request ⟨.get, key, []⟩ := by
  obtain ⟨hne, hcmd, hkey⟩ := h.read (by decide +kernel)
  simp only [readLine, if_neg hne, hcmd, hkey]
  rfl

theorem respondAll_append {σ : Type} (handle : Request → σ → Response × σ) : ∀ (reqs reqs' : List Request) (st : σ),
    (respondAll handle (reqs ++ reqs') st).2 = (respondAll handle reqs' (respondAll handle reqs st).2).2
  | [], _, _ => rfl
  | _ :: reqs, reqs', _ => respondAll_append handle reqs reqs' _

theorem requested_append : ∀ {ls : List Str}, (∀ line ∈ ls, readLine line ≠ .quit) → ∀ ls',
    requested (ls ++ ls') = requested ls ++ requested ls'
  | [], _, _ => rfl
  | line :: ls, h, ls' => by
    obtain ⟨hline, hls⟩ := List.forall_mem_cons.1 h
    rw [List.cons_append]
    cases lineKind line with
    | quit hquit => exact absurd hquit hline
    | idle said hreqs => rw [hreqs, hreqs, requested_append hls]
    | request req hreq => rw [requested_request hreq, requested_request hreq, requested_append hls, List.cons_append]

/-- A session that is not ended goes on where it is. -/
theorem mainLoop_append {σ : Type} (handle : Request → σ → Response × σ) : ∀ {ls : List Str},
    (∀ line ∈ ls, readLine line ≠ .quit) → ∀ (st : σ) (con : Console), ∃ con', ∀ ls',
      mainLoop (answerLocally handle) (ls ++ ls') st con =
        mainLoop (answerLocally handle) ls' (respondAll handle (requested ls) st).2 con'
  | [], _, _, con => ⟨con, fun _ => rfl⟩
  | line :: ls, h, st, con => by
    obtain ⟨hline, hls⟩ := List.forall_mem_cons.1 h
    cases lineKind line with
    | quit hquit => exact absurd hquit hline
    | idle said hreqs hloop =>
      obtain ⟨con', hcon'⟩ := mainLoop_append handle hls st (said con)
      refine ⟨con', fun ls' => ?_⟩
      rw [List.cons_append, hloop, hreqs]
      exact hcon' ls'
    | request req hreq =>
      obtain ⟨con', hcon'⟩ := mainLoop_append handle hls (handle req st).2
        ((con.print (ascii "kv> ")).show (handle req st).1)
      refine ⟨con', fun ls' => ?_⟩
      rw [List.cons_append, mainLoop_answered hreq (answerLocally_eq handle req st), requested_request hreq]
      exact hcon' ls'

/-- The requests that may change what is stored under the key. -/
def Writes (key : Key) (req : Request) : Prop := req.key = key ∧ (req.command = .put ∨ req.command = .delete)

theorem step_unwritten {key : Key} {req : Request} (h : ¬ Writes key req) (m : Key → Option Value) :
    (LimitedMap.step req m).2 key = m key := by
  have hne : req.command = .put ∨ req.command = .delete → key ≠ req.key := fun hc hk => h ⟨hk.symm, hc⟩
  unfold LimitedMap.step
  cases hc : req.command with
  | put =>
    have hkey : key ≠ req.key := hne (Or.inl hc)
    dsimp only
    split_ifs
    · rfl
    · rfl
    · exact Function.update_of_ne hkey _ _
  | get => cases m req.key <;> rfl
  | delete =>
    have hkey : key ≠ req.key := hne (Or.inr hc)
    cases m req.key with
    | none => rfl
    | some v => exact Function.update_of_ne hkey _ _
  | ping => rfl
  | other => rfl

theorem respondAll_unwritten {key : Key} : ∀ {reqs : List Request}, (∀ req ∈ reqs, ¬ Writes key req) →
    ∀ m : Key → Option Value, (respondAll LimitedMap.step reqs m).2 key = m key
  | [], _, _ => rfl
  | req :: reqs, h, m => by
    obtain ⟨hreq, hreqs⟩ := List.forall_mem_cons.1 h
    show (respondAll LimitedMap.step reqs (LimitedMap.step req m).2).2 key = m key
    rw [respondAll_unwritten hreqs, step_unwritten hreq]

/-- What was typed as a value comes back byte for byte. In a session in which `PUT key v` is typed,
the commands in any case and between any blanks, with one space before the value, and in which no
later request writes the key, a `GET key` at the end is answered with `v`. -/
theorem session_put_get {before between : List Str} {put get key v rest : Str} {toServer toClient : Str}
    {con : Console} {p' : Process} (hp : p.store.WithinLimits)
    (hfits : ∀ line ∈ lines input, 9 + line.length < 2 ^ 32)
    (hlines : lines input = before ++ put :: between ++ [get])
    (hstay : ∀ line ∈ before ++ between, readLine line ≠ .quit)
    (hput : CommandLine (ascii "PUT") put key (32 :: v)) (hkey : key.length ≤ maxKeySize)
    (hv : v.length ≤ maxValueSize)
    (hbetween : ∀ req ∈ requested between, ¬ Writes key req) (hget : CommandLine (ascii "GET") get key rest)
    (h : Talk input p sizes sizes' toServer toClient con p') :
    p'.contents key = some v ∧
      ∃ earlier, con.out = earlier ++ (ascii "kv> Status: OK\n" ++
        ((if v = [] then [] else ascii "Value: " ++ v ++ ascii "\n") ++ ascii "kv> ")) := by
  obtain ⟨rfl, hcontents⟩ := h.eq_reference hp hfits
  obtain ⟨hbefore, hafter⟩ := List.forall_mem_append.1 hstay
  have hlate : ∀ line ∈ put :: between, readLine line ≠ .quit := by
    rw [List.forall_mem_cons, hput.readLine_put]
    exact ⟨Typed.noConfusion, hafter⟩
  obtain ⟨con, hcon⟩ :=
    mainLoop_append LimitedMap.step (List.forall_mem_append.2 ⟨hbefore, hlate⟩) p.contents ⟨[], []⟩
  generalize hm : (respondAll LimitedMap.step (requested (before ++ put :: between)) p.contents).2 = m at hcon
  -- the value is there from the PUT on
  have hstored : m key = some v := by
    rw [← hm, requested_append hbefore, requested_request hput.readLine_put, respondAll_append]
    generalize (respondAll LimitedMap.step (requested before) p.contents).2 = m'
    show (respondAll LimitedMap.step (requested between) (LimitedMap.step ⟨.put, key, v⟩ m').2).2 key = some v
    rw [respondAll_unwritten hbetween]
    have hstep : LimitedMap.step ⟨.put, key, v⟩ m' = (⟨.ok, []⟩, Function.update m' key (some v)) := by
      unfold maxKeySize at hkey
      unfold maxValueSize at hv
      simp only [LimitedMap.step]
      rw [if_neg (by omega), if_neg (by omega)]
    rw [hstep]
    exact Function.update_self _ _ _
  have hanswer : LimitedMap.step ⟨.get, key, []⟩ m = (⟨.ok, v⟩, m) := by
    simp only [LimitedMap.step, hstored]
  have hreference : reference input p = (m, ((con.print (ascii "kv> ")).show ⟨.ok, v⟩).print (ascii "kv> ")) := by
    unfold reference
    rw [hlines, hcon, mainLoop_answered hget.readLine_get (answerLocally_eq LimitedMap.step _ m), hanswer]
    rfl
  rw [hcontents, hreference]
  refine ⟨hstored, con.out, ?_⟩
  have hprompt : ascii "kv> Status: OK\n" = ascii "kv> " ++ (ascii "Status: " ++ ascii "OK" ++ ascii "\n") := by
    decide +kernel
  rw [hprompt]
  unfold Console.show
  by_cases hnil : v = []
  · simp [hnil, Console.print, statusToString]
  · simp [hnil, Console.print, statusToString]

theorem session_put_get_blanks :
    let input := ascii "PING\n put\tk  a  b \nGET other\nGet k"
    let p : Process := ⟨KVStore.empty, Disk.empty⟩
    ∃ toServer toClient con p', Talk input p (fun _ => 1) (fun _ => 3) toServer toClient con p' ∧
      p'.contents (ascii "k") = some (ascii " a  b ") ∧
      ∃ earlier, con.out = earlier ++ ascii "kv> Status: OK\nValue:  a  b \nkv> " := by
  intro input p
  have hfits : ∀ line ∈ lines input, 9 + line.length < 2 ^ 32 := by decide +kernel
  have hlines : lines input = [ascii "PING"] ++ ascii " put\tk  a  b " :: [ascii "GET other"] ++ [ascii "Get k"] := by
    decide +kernel
  have hput : CommandLine (ascii "PUT") (ascii " put\tk  a  b ") (ascii "k") (32 :: ascii " a  b ") :=
    ⟨⟨ascii " ", ascii "put", ascii "\t", by decide +kernel⟩, by decide +kernel, by decide +kernel⟩
  have hget : CommandLine (ascii "GET") (ascii "Get k") (ascii "k") [] :=
    ⟨⟨[], ascii "Get", ascii " ", by decide +kernel⟩, by decide +kernel, by decide +kernel⟩
  have hbetween : ∀ req ∈ requested [ascii "GET other"], ¬ Writes (ascii "k") req := by
    rw [show requested [ascii "GET other"] = [⟨.get, ascii "other", []⟩] by decide +kernel]
    intro req hreq
    rw [List.mem_singleton.1 hreq]
    rintro ⟨hkey, -⟩
    exact absurd hkey (by decide +kernel)
  obtain ⟨con, htalk⟩ := exists_talk (p := p) KVStore.empty_withinLimits hfits (fun _ => 1) (fun _ => 3)
  obtain ⟨hstored, earlier, hout⟩ := session_put_get KVStore.empty_withinLimits hfits hlines (by decide +kernel) hput
    (by decide +kernel) (by decide +kernel) hbetween hget htalk
  exact ⟨_, _, con, _, htalk, hstored, earlier, hout⟩

end Talk

end Cli

end KvStore
