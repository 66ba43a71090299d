/-
One connection of the server (`src/networking/tcp_connection.cpp`, `handleConnection` of
`src/networking/tcp_server.cpp`, `readFrame` and `writeFrame` of `src/protocol/protocol.cpp` as the
calls on the socket make them). The server answers the requests of a stream one by one until the
stream ends, breaks off inside a frame or holds a payload that is no request; behind it the
standalone handler is a map with limits (`connection_refines_map`).
-/
import KvStore.Lib.Socket
import KvStore.Protocol.Protocol
import KvStore.Server.Handler

namespace KvStore

open Bytes Updates Program Protocol Sockets

/-! ## Frames on a socket -/

namespace Protocol

/-- `readFrame(fd, buffer)`. -/
def readFrameFd (fd : Socket UInt8) : Option Str × Socket UInt8 :=
  match fd.readFully 4 with
  | (none, fd) => (none, fd)
  | (some header, fd) => fd.readFully (ofBe header)

/-- `writeFrame(fd, data)`. -/
def writeFrameFd (fd : Socket UInt8) (data : Str) : Bool × Socket UInt8 := fd.writeFully (writeFrame data)

theorem writeFrame_pos (data : Str) : 0 < (writeFrame data).length := by
  rw [writeFrame, length_framed]
  omega

variable {fd : Socket UInt8}

/-- However the reads cut it up, the frame is the first one of the stream. -/
theorem readFrameFd_some {data rest : Str} (h : readFrame fd.input = some (data, rest)) :
    ∃ calls, readFrameFd fd = (some data, { fd with input := rest, calls := calls }) := by
  obtain ⟨⟨header, body⟩, hheader, hbody⟩ := Option.bind_eq_some_iff.1 h
  obtain ⟨hinput, hfour⟩ := takeExact_some hheader
  obtain ⟨hrest, hlen⟩ := takeExact_some hbody
  obtain ⟨calls, hread⟩ := Socket.readFully_append hinput
  obtain ⟨calls', hread'⟩ := Socket.readFully_append (s := { fd with input := body, calls := calls }) hrest
  rw [hfour] at hread
  rw [hlen] at hread'
  refine ⟨calls', ?_⟩
  unfold readFrameFd
  rw [hread]
  exact hread'

theorem readFrameFd_none (h : readFrame fd.input = none) :
    ∃ calls, readFrameFd fd = (none, { fd with input := [], calls := calls }) := by
  have hshort : ∀ {n : Nat} {bs : Str}, takeExact n bs = none → bs.length < n := by
    intro n bs hnone
    by_contra hge
    rw [takeExact, if_pos (by omega)] at hnone
    cases hnone
  unfold readFrameFd
  rcases hheader : takeExact 4 fd.input with _ | ⟨header, body⟩
  · obtain ⟨calls, hread⟩ := Socket.readFully_short (hshort hheader)
    exact ⟨calls, by rw [hread]⟩
  · have hbody : takeExact (ofBe header) body = none := by
      rw [readFrame, hheader] at h
      exact h
    obtain ⟨hinput, hfour⟩ := takeExact_some hheader
    obtain ⟨calls, hread⟩ := Socket.readFully_append hinput
    rw [hfour] at hread
    rw [hread]
    exact Socket.readFully_short (s := { fd with input := body, calls := calls }) (hshort hbody)

end Protocol

/-! ## The connection -/

/-- `TcpConnection`. -/
structure TcpConnection where
  fd : Socket UInt8
  isOpen : Bool

namespace TcpConnection

def close (c : TcpConnection) : TcpConnection := { c with isOpen := false }

/-- `readRequest`; a payload that is no request leaves the connection open. -/
def readRequest (c : TcpConnection) : Option Request × TcpConnection :=
  if c.isOpen then
    match readFrameFd c.fd with
    | (none, fd) => (none, close ⟨fd, c.isOpen⟩)
    | (some buffer, fd) => (deserializeRequest buffer, ⟨fd, c.isOpen⟩)
  else (none, c)

def sendResponse (c : TcpConnection) (resp : Response) : Bool × TcpConnection :=
  if c.isOpen then
    match writeFrameFd c.fd (serializeResponse resp) with
    | (false, fd) => (false, close ⟨fd, c.isOpen⟩)
    | (true, fd) => (true, ⟨fd, c.isOpen⟩)
  else (false, c)

end TcpConnection

section Server

variable {σ : Type}

/-- What the server answers, by its handler if it has one. -/
def respond (handler : Option (Request → σ → Response × σ)) (req : Request) (st : σ) : Response × σ :=
  match handler with
  | some handle => handle req st
  | none => (⟨.error, []⟩, st)

/-- The loop of `handleConnection`; no result when the fuel runs out. -/
def handleLoop (handler : Option (Request → σ → Response × σ)) :
    Nat → TcpConnection → σ → Option (TcpConnection × σ)
  | 0, _, _ => none
  | fuel + 1, conn, st =>
    if conn.isOpen then
      match conn.readRequest with
      | (none, conn) => some (conn, st)
      | (some req, conn) =>
        let (resp, st) := respond handler req st
        match conn.sendResponse resp with
        | (false, conn) => some (conn, st)
        | (true, conn) => handleLoop handler fuel conn st
    else some (conn, st)

/-- `handleConnection`, with the destructor of the connection at its end. Every turn of the loop
that goes on has read a frame, so the length of the stream bounds their number. -/
def handleConnection (handler : Option (Request → σ → Response × σ)) (fd : Socket UInt8) (st : σ) :
    Option (TcpConnection × σ) :=
  (handleLoop handler (fd.input.length + 1) ⟨fd, true⟩ st).map fun r => (r.1.close, r.2)

end Server

/-- The frames of some requests. -/
def requestFrames (reqs : List Request) : Str := reqs.flatMap fun req => writeFrame (serializeRequest req)

/-- The frames of some responses. -/
def responseFrames (resps : List Response) : Str := resps.flatMap fun resp => writeFrame (serializeResponse resp)

/-- The stream ends, breaks off inside a frame, or goes on with a payload that is no request. -/
def Unanswerable (stream : Str) : Prop :=
  ∀ data rest, readFrame stream = some (data, rest) → deserializeRequest data = none

namespace TcpConnection

variable {fd : Socket UInt8}

theorem readRequest_sent {req : Request} (hfit : req.FitsFrame) {rest : Str}
    (h : fd.input = writeFrame (serializeRequest req) ++ rest) :
    ∃ calls, readRequest ⟨fd, true⟩ = (some req, ⟨{ fd with input := rest, calls := calls }, true⟩) := by
  have hlen : (serializeRequest req).length < 2 ^ 32 := by
    rw [length_serializeRequest]
    exact hfit
  have hframe : readFrame fd.input = some (serializeRequest req, rest) := by
    rw [h]
    exact readFrame_writeFrame hlen rest
  obtain ⟨calls, hread⟩ := readFrameFd_some hframe
  refine ⟨calls, ?_⟩
  simp only [readRequest, if_true, hread, deserializeRequest_serialize hfit]

/-- Nothing is written when no request is read. -/
theorem readRequest_unanswerable (h : Unanswerable fd.input) :
    ∃ conn, readRequest ⟨fd, true⟩ = (none, conn) ∧ conn.fd.output = fd.output := by
  rcases hframe : readFrame fd.input with _ | ⟨data, rest⟩
  · obtain ⟨calls, hread⟩ := readFrameFd_none hframe
    exact ⟨close ⟨{ fd with input := [], calls := calls }, true⟩, by simp only [readRequest, if_true, hread], rfl⟩
  · obtain ⟨calls, hread⟩ := readFrameFd_some hframe
    refine ⟨⟨{ fd with input := rest, calls := calls }, true⟩, ?_, rfl⟩
    simp only [readRequest, if_true, hread, h data rest hframe]

theorem sendResponse_eq (fd : Socket UInt8) (resp : Response) :
    ∃ calls, sendResponse ⟨fd, true⟩ resp =
      (true, ⟨{ fd with output := fd.output ++ writeFrame (serializeResponse resp), calls := calls }, true⟩) := by
  obtain ⟨calls, hwrite⟩ := fd.writeFully_eq (writeFrame (serializeResponse resp))
  refine ⟨calls, ?_⟩
  simp only [sendResponse, if_true, writeFrameFd, hwrite]

end TcpConnection

/-! ## The answers to a stream -/

/-- Requests handled one after another by any handler: the responses, and what is left of it. -/
def respondAll {σ : Type} (handle : Request → σ → Response × σ) : List Request → σ → List Response × σ
  | [], st => ([], st)
  | req :: reqs, st =>
    let (resp, st) := handle req st
    let (resps, st) := respondAll handle reqs st
    (resp :: resps, st)

theorem length_respondAll {σ : Type} (handle : Request → σ → Response × σ) : ∀ (reqs : List Request) (st : σ),
    (respondAll handle reqs st).1.length = reqs.length
  | [], _ => rfl
  | req :: reqs, st => by
    show (respondAll handle reqs (handle req st).2).1.length + 1 = _
    rw [length_respondAll handle reqs, List.length_cons]

/-- The loop answers the requests in order and stops behind them. -/
theorem handleLoop_requests {σ : Type} (handle : Request → σ → Response × σ) {tail : Str}
    (htail : Unanswerable tail) : ∀ (reqs : List Request) (fuel : Nat) (fd : Socket UInt8) (st : σ),
      (∀ req ∈ reqs, req.FitsFrame) → fd.input = requestFrames reqs ++ tail → reqs.length < fuel →
      ∃ conn, handleLoop (some handle) fuel ⟨fd, true⟩ st = some (conn, (respondAll handle reqs st).2) ∧
        conn.fd.output = fd.output ++ responseFrames (respondAll handle reqs st).1
  | [], fuel + 1, fd, st, _, hinput, _ => by
    have hend : Unanswerable fd.input := by
      rw [hinput]
      exact htail
    obtain ⟨conn, hread, hout⟩ := TcpConnection.readRequest_unanswerable hend
    refine ⟨conn, ?_, ?_⟩
    · simp only [handleLoop, if_true, hread, respondAll]
    · rw [hout]
      simp [respondAll, responseFrames]
  | req :: reqs, fuel + 1, fd, st, hfits, hinput, hfuel => by
    obtain ⟨hfit, hfits⟩ := List.forall_mem_cons.1 hfits
    have hfirst : fd.input = writeFrame (serializeRequest req) ++ (requestFrames reqs ++ tail) := by
      rw [hinput, ← List.append_assoc]
      rfl
    obtain ⟨calls, hread⟩ := TcpConnection.readRequest_sent hfit hfirst
    obtain ⟨calls', hsend⟩ := TcpConnection.sendResponse_eq
      { fd with input := requestFrames reqs ++ tail, calls := calls } (handle req st).1
    obtain ⟨conn, hrest, hout⟩ := handleLoop_requests handle htail reqs fuel
      { fd with
        input := requestFrames reqs ++ tail
        output := fd.output ++ writeFrame (serializeResponse (handle req st).1)
        calls := calls' } (handle req st).2 hfits rfl (by simpa using hfuel)
    refine ⟨conn, ?_, ?_⟩
    · simp only [handleLoop, if_true, hread, respond, hsend]
      exact hrest
    · rw [hout]
      simp [respondAll, responseFrames]

/-- A connection ends: it is closed, and its output is the frames of the responses. -/
theorem handleConnection_requests {σ : Type} (handle : Request → σ → Response × σ) {reqs : List Request}
    (hfits : ∀ req ∈ reqs, req.FitsFrame) {tail : Str} (htail : Unanswerable tail) (sizes : Nat → Nat) (st : σ) :
    ∃ conn, handleConnection (some handle) (.start (requestFrames reqs ++ tail) sizes) st =
        some (conn, (respondAll handle reqs st).2) ∧
      conn.isOpen = false ∧ conn.fd.output = responseFrames (respondAll handle reqs st).1 := by
  have hlen : reqs.length < (requestFrames reqs ++ tail).length + 1 := by
    have hle : reqs.length ≤ (requestFrames reqs).length := length_le_flatMap (fun req => writeFrame_pos _) reqs
    rw [List.length_append]
    omega
  obtain ⟨conn, hloop, hout⟩ := handleLoop_requests handle htail reqs _ (.start (requestFrames reqs ++ tail) sizes) st
    hfits rfl hlen
  refine ⟨conn.close, ?_, rfl, hout⟩
  unfold handleConnection
  rw [show (Socket.start (requestFrames reqs ++ tail) sizes).input = requestFrames reqs ++ tail from rfl, hloop]
  rfl

/-! ## The client -/

/-- A client that writes its requests with `writeFrame`. -/
def sendRequests (reqs : List Request) (fd : Socket UInt8) : Socket UInt8 :=
  reqs.foldl (fun fd req => (writeFrameFd fd (serializeRequest req)).2) fd

/-- A client that reads with `readFrame` and `deserializeResponse` as long as that succeeds. -/
def receiveLoop : Nat → Socket UInt8 → List Response
  | 0, _ => []
  | fuel + 1, fd =>
    match readFrameFd fd with
    | (none, _) => []
    | (some data, fd) =>
      match deserializeResponse data with
      | none => []
      | some resp => resp :: receiveLoop fuel fd

def receiveResponses (fd : Socket UInt8) : List Response := receiveLoop (fd.input.length + 1) fd

theorem sendRequests_output : ∀ (reqs : List Request) (fd : Socket UInt8),
    (sendRequests reqs fd).output = fd.output ++ requestFrames reqs
  | [], fd => by simp [sendRequests, requestFrames]
  | req :: reqs, fd => by
    obtain ⟨calls, hwrite⟩ := fd.writeFully_eq (writeFrame (serializeRequest req))
    show (sendRequests reqs (fd.writeFully (writeFrame (serializeRequest req))).2).output = _
    rw [hwrite, sendRequests_output reqs]
    simp [requestFrames]

theorem receiveLoop_frames : ∀ (resps : List Response) (fuel : Nat) (fd : Socket UInt8),
    (∀ resp ∈ resps, 5 + resp.value.length < 2 ^ 32) → fd.input = responseFrames resps → resps.length < fuel →
    receiveLoop fuel fd = resps
  | [], fuel + 1, fd, _, hinput, _ => by
    have hend : readFrame fd.input = none := by
      rw [hinput]
      rfl
    obtain ⟨calls, hread⟩ := readFrameFd_none hend
    simp only [receiveLoop, hread]
  | resp :: resps, fuel + 1, fd, hfits, hinput, hfuel => by
    obtain ⟨hfit, hfits⟩ := List.forall_mem_cons.1 hfits
    have hlen : (serializeResponse resp).length < 2 ^ 32 := by
      simp only [serializeResponse, List.length_cons, List.length_append, length_be32]
      omega
    have hframe : readFrame fd.input = some (serializeResponse resp, responseFrames resps) := by
      rw [hinput]
      exact readFrame_writeFrame hlen _
    obtain ⟨calls, hread⟩ := readFrameFd_some hframe
    simp only [receiveLoop, hread, deserializeResponse_serialize hfit]
    rw [receiveLoop_frames resps fuel _ hfits rfl (by simpa using hfuel)]

/-- However the reads cut them up, the responses are those of the stream. -/
theorem receiveResponses_frames {resps : List Response} (hfits : ∀ resp ∈ resps, 5 + resp.value.length < 2 ^ 32)
    (sizes : Nat → Nat) : receiveResponses (.start (responseFrames resps) sizes) = resps := by
  have hlen : resps.length ≤ (responseFrames resps).length := length_le_flatMap (fun resp => writeFrame_pos _) resps
  exact receiveLoop_frames resps _ _ hfits rfl (Nat.lt_succ_of_le hlen)

/-! ## The reference map -/

namespace LimitedMap

/-- What a request does to a map with limits, and its answer. -/
def step (req : Request) (m : Key → Option Value) : Response × (Key → Option Value) :=
  match req.command with
  | .put =>
    if 256 < req.key.length then (⟨.keyTooLarge, []⟩, m)
    else if 65536 < req.value.length then (⟨.valueTooLarge, []⟩, m)
    else (⟨.ok, []⟩, Function.update m req.key (some req.value))
  | .get =>
    match m req.key with
    | some v => (⟨.ok, v⟩, m)
    | none => (⟨.notFound, []⟩, m)
  | .delete =>
    match m req.key with
    | some _ => (⟨.ok, []⟩, Function.update m req.key none)
    | none => (⟨.notFound, []⟩, m)
  | .ping => (⟨.ok, pong⟩, m)
  | .other _ _ => (⟨.invalidRequest, []⟩, m)

end LimitedMap

/-- What a process stores, as a map. -/
def Process.contents (p : Process) (key : Key) : Option Value := p.store.data.lookup key

theorem contents_write (d : Map Key Value) (disk : Disk) (key : Key) (o : Option Value) :
    Process.contents ⟨⟨write d (key, o)⟩, disk⟩ = Function.update (Process.contents ⟨⟨d⟩, disk⟩) key o := by
  funext k
  show (write d (key, o)).lookup k = _
  rw [lookup_write, Function.update_apply]
  simp only [eq_comm]
  rfl

/-- The standalone handler refines the map. -/
theorem serve_refines (req : Request) (p : Process) :
    (serve req p).1 = (LimitedMap.step req p.contents).1 ∧
      (serve req p).2.contents = (LimitedMap.step req p.contents).2 := by
  unfold serve LimitedMap.step
  cases hc : req.command with
  | put =>
    rw [standaloneHandler_put hc]
    simp only [Prog.exec_call, StoreCall.exec]
    by_cases hk : 256 < req.key.length
    · have hput : p.store.put req.key req.value = (⟨.keyTooLarge, []⟩, p.store) := if_pos hk
      simp [hput, hk, logAndReply]
    · by_cases hv : 65536 < req.value.length
      · have hput : p.store.put req.key req.value = (⟨.valueTooLarge, []⟩, p.store) := by
          unfold KVStore.put maxKeySize maxValueSize
          rw [if_neg hk, if_pos hv]
        simp [hput, hk, hv, logAndReply]
      · have hacc : KVStore.Accepts req.key req.value := ⟨Nat.not_lt.1 hk, Nat.not_lt.1 hv⟩
        simp only [KVStore.put_ok hacc, logAndReply, if_true, Prog.exec_call, StoreCall.exec, Prog.exec_ret,
          if_neg hk, if_neg hv, contents_write]
        exact ⟨trivial, rfl⟩
  | get =>
    rw [standaloneHandler_get hc]
    rcases hl : p.store.data.lookup req.key with _ | v
    · simp [StoreCall.exec, KVStore.get_none hl, Process.contents, hl]
    · simp [StoreCall.exec, KVStore.get_some hl, Process.contents, hl]
  | delete =>
    rw [standaloneHandler_delete hc]
    simp only [Prog.exec_call, StoreCall.exec]
    rcases hl : p.store.data.lookup req.key with _ | v
    · simp [KVStore.del_absent hl, logAndReply, show p.contents req.key = none from hl]
    · simp only [KVStore.del_present hl, logAndReply, if_true, Prog.exec_call, StoreCall.exec, Prog.exec_ret,
        contents_write, show p.contents req.key = some v from hl]
      exact ⟨trivial, rfl⟩
  | ping =>
    unfold standaloneHandler
    rw [hc]
    exact ⟨rfl, rfl⟩
  | other b hb =>
    unfold standaloneHandler
    rw [hc]
    exact ⟨rfl, rfl⟩

theorem serve_withinLimits {p : Process} (h : p.store.WithinLimits) (req : Request) :
    (serve req p).2.store.WithinLimits := by
  by_cases hm : Mutates p.store req
  · obtain ⟨e, -, hserve⟩ := serve_mutates hm
    rw [hserve]
    exact Wal.applyEntry_withinLimits h e
  · rw [(serve_not_mutates hm).1]
    exact h

/-- Every answer fits a frame. -/
theorem serve_fits {p : Process} (h : p.store.WithinLimits) (req : Request) :
    5 + (serve req p).1.value.length < 2 ^ 32 := by
  have hval : (serve req p).1.value.length ≤ 65536 := by
    rw [(serve_refines req p).1]
    unfold LimitedMap.step
    cases req.command with
    | put =>
      simp only
      split
      · simp
      · split <;> simp
    | get =>
      rcases hl : p.contents req.key with _ | v
      · simp
      · have hv : v.length ≤ maxValueSize := (h _ _ hl).2
        exact hv
    | delete => cases p.contents req.key <;> simp
    | ping => simp [pong]
    | other => simp
  omega

/-- Requests handled one after another refine the map, and every answer fits a frame. -/
theorem respondAll_refines : ∀ (reqs : List Request) {p : Process}, p.store.WithinLimits →
    (respondAll serve reqs p).1 = (respondAll LimitedMap.step reqs p.contents).1 ∧
      (respondAll serve reqs p).2.contents = (respondAll LimitedMap.step reqs p.contents).2 ∧
      ∀ resp ∈ (respondAll serve reqs p).1, 5 + resp.value.length < 2 ^ 32
  | [], p, _ => ⟨rfl, rfl, by simp [respondAll]⟩
  | req :: reqs, p, hp => by
    obtain ⟨hresp, hcontents⟩ := serve_refines req p
    obtain ⟨ih, ihcontents, ihfits⟩ := respondAll_refines reqs (serve_withinLimits hp req)
    rw [hcontents] at ih ihcontents
    refine ⟨?_, ihcontents, List.forall_mem_cons.2 ⟨serve_fits hp req, ihfits⟩⟩
    simp only [respondAll, hresp, ih]

/-- A standalone connection is a map with limits. Whatever the client's writes, the server's calls
and the client's reads transfer at a time: the requests of the client are answered in order with the
responses of the map, nothing else is sent, whatever else is in the stream, and at the end the
connection is closed and the store holds what the map holds. -/
theorem connection_refines_map {p : Process} (hp : p.store.WithinLimits) {reqs : List Request}
    (hfits : ∀ req ∈ reqs, req.FitsFrame) {tail : Str} (htail : Unanswerable tail)
    (clientWrites server clientReads : Nat → Nat) :
    let stream := (sendRequests reqs (.start [] clientWrites)).output ++ tail
    let reference := respondAll LimitedMap.step reqs p.contents
    ∃ conn p', handleConnection (some serve) (.start stream server) p = some (conn, p') ∧
      receiveResponses (.start conn.fd.output clientReads) = reference.1 ∧
      conn.fd.output = responseFrames reference.1 ∧ reference.1.length = reqs.length ∧
      conn.isOpen = false ∧ p'.contents = reference.2 := by
  intro stream reference
  have hstream : stream = requestFrames reqs ++ tail := by
    show (sendRequests reqs _).output ++ tail = _
    rw [sendRequests_output]
    rfl
  obtain ⟨hresps, hcontents, hfit⟩ := respondAll_refines reqs hp
  obtain ⟨conn, hconn, hclosed, hout⟩ := handleConnection_requests serve hfits htail server p
  refine ⟨conn, _, ?_, ?_, ?_, ?_, hclosed, hcontents⟩
  · rw [hstream]
    exact hconn
  · rw [hout, receiveResponses_frames hfit, hresps]
  · rw [hout, hresps]
  · exact length_respondAll _ _ _

/-- Byte by byte to and from an empty server, and then half a header. -/
theorem connection_refines_map_bytewise :
    let reqs : List Request := [⟨.put, [107], [118]⟩, ⟨.get, [107], []⟩, ⟨.delete, [106], []⟩, ⟨.ping, [], []⟩]
    ∃ conn p', handleConnection (some serve) (.start
        ((sendRequests reqs (.start [] fun _ => 1)).output ++ [0, 0]) fun _ => 1) ⟨KVStore.empty, Disk.empty⟩ =
          some (conn, p') ∧
      receiveResponses (.start conn.fd.output fun _ => 1) = [⟨.ok, []⟩, ⟨.ok, [118]⟩, ⟨.notFound, []⟩, ⟨.ok, pong⟩] ∧
      conn.isOpen = false ∧ p'.contents [107] = some [118] := by
  intro reqs
  have hfits : ∀ req ∈ reqs, req.FitsFrame := by decide
  have htail : Unanswerable [0, 0] := by
    intro data rest h
    have hnone : readFrame [0, 0] = none := by decide
    rw [hnone] at h
    cases h
  obtain ⟨conn, p', hconn, hresps, -, -, hclosed, hcontents⟩ :=
    connection_refines_map (p := ⟨KVStore.empty, Disk.empty⟩) KVStore.empty_withinLimits hfits htail
      (fun _ => 1) (fun _ => 1) (fun _ => 1)
  refine ⟨conn, p', hconn, ?_, hclosed, ?_⟩
  · rw [hresps]
    decide +kernel
  · rw [hcontents]
    decide +kernel

end KvStore
