/-
What the clients of the standalone server see, with any number of connections and workers, is
linearizable: a request takes effect at its store operation, whatever becomes of its connection
(`service_linearizable`).
-/
import KvStore.Server.Session

namespace KvStore

open Bytes Program Protocol Machine Linear Function Duplex

/-! ## All connections -/

namespace Served

/-- A call is answered. -/
theorem Numbered.answer {ids : Nat → Option Nat} {count : Nat}
    {history : List (Linear.Event Request Response)} (h : Numbered ids count history) (c id : Nat)
    (resp : Response) : Numbered (update ids c none) count (history ++ [.respond id resp]) := by
  have hids : ∀ d id', update ids c none d = some id' → ids d = some id' := by
    intro d id' hd
    rcases Custody.update_eq_iff.1 hd with ⟨-, heq⟩ | ⟨-, hd⟩
    · cases heq
    · exact hd
  refine ⟨fun d id' hd => h.below d id' (hids d id' hd), ?_, ?_⟩
  · intro id' req hmem
    rcases List.mem_append.1 hmem with hmem | hmem
    · exact h.invoked id' req hmem
    · cases List.mem_singleton.1 hmem
  · intro d e id' hd he
    exact h.apart d e id' (hids d id' hd) (hids e id' he)

end Served

theorem StoreCall.exec_withinLimits (op : StoreCall) {p : Process} (h : p.store.WithinLimits) :
    (op.exec p).2.store.WithinLimits := by
  cases op with
  | put key value => exact KVStore.put_withinLimits h key value
  | del key => exact KVStore.del_withinLimits h key
  | get | append => exact h

namespace Service

/-- The calls that are not answered yet, by their connections. -/
def ids (s : Service) (c : Nat) : Option Nat := (s.conns c).client.call.map Prod.fst

/-- The history is linearized by an order that leaves what the store holds, and every call that is not
answered is at one of its stages. -/
structure Sound (p₀ : Process) (s : Service) (order : List (Effect Request Response)) : Prop where
  linearized : Linearized LimitedMap.step p₀.contents s.history order s.process.contents
  limits : s.process.store.WithinLimits
  fits : ∀ e ∈ order, 5 + e.result.value.length < 2 ^ 32
  regular : ∀ c, (s.conns c).Regular
  placed : ∀ c id req, (s.conns c).client.call = some (id, req) → (s.conns c).Placed s.history order id req
  numbered : Served.Numbered s.ids s.count s.history

variable {p₀ : Process} {s s' : Service} {order : List (Effect Request Response)} {c : Nat}

theorem Sound.start {n : Nat} (hp : p₀.store.WithinLimits) : Sound p₀ (.start p₀ n) [] where
  linearized := .start _ _
  limits := hp
  fits _ h := by cases h
  regular _ := .start
  placed _ _ _ h := by cases h
  numbered := ⟨fun _ _ h => (by cases h), fun _ _ h => (by cases h), fun _ _ _ h => (by cases h)⟩

theorem conns_setConn (s : Service) (c d : Nat) (conn : Conn) :
    (s.setConn c conn).conns d = if d = c then conn else s.conns d := update_apply ..

theorem ids_setConn (s : Service) (c : Nat) (conn : Conn) :
    (s.setConn c conn).ids = update s.ids c (conn.client.call.map Prod.fst) := by
  funext d
  unfold ids
  rw [conns_setConn, update_apply]
  split <;> rfl

/-- One connection goes on, and perhaps its call is made, takes effect or is answered. -/
theorem Sound.change (h : Sound p₀ s order) {conn : Conn} {process : Process} {count : Nat}
    {history : List (Linear.Event Request Response)} {order' : List (Effect Request Response)}
    (hlin : Linearized LimitedMap.step p₀.contents history order' process.contents)
    (hlimits : process.store.WithinLimits) (hfits : ∀ e ∈ order', 5 + e.result.value.length < 2 ^ 32)
    (hreg : conn.Regular) (hplaced : ∀ id req, conn.client.call = some (id, req) → conn.Placed history order' id req)
    (hnum : Served.Numbered (update s.ids c (conn.client.call.map Prod.fst)) count history)
    (hhist : ∀ e ∈ s.history, e ∈ history) (horder : ∀ e ∈ order, e ∈ order')
    (hothers : ∀ d id, d ≠ c → s.ids d = some id → id ∈ order'.map Effect.id → id ∈ order.map Effect.id) :
    Sound p₀ { s.setConn c conn with process := process, count := count, history := history } order' := by
  refine ⟨hlin, hlimits, hfits, ?_, ?_, ?_⟩
  · intro d
    show ((s.setConn c conn).conns d).Regular
    rw [conns_setConn]
    split
    · exact hreg
    · exact h.regular d
  · intro d id req hcall
    show ((s.setConn c conn).conns d).Placed history order' id req
    replace hcall : ((s.setConn c conn).conns d).client.call = some (id, req) := hcall
    rw [conns_setConn] at hcall ⊢
    by_cases hd : d = c
    · rw [if_pos hd] at hcall ⊢
      exact hplaced id req hcall
    · rw [if_neg hd] at hcall ⊢
      refine (h.placed d id req hcall).mono hhist horder (hothers d id hd ?_)
      unfold ids
      rw [hcall]
      rfl
  · show Served.Numbered (s.setConn c conn).ids count history
    rw [ids_setConn]
    exact hnum

/-- One connection goes on, and its call does not. -/
theorem Sound.setConn (h : Sound p₀ s order) {conn : Conn} (hreg : conn.Regular)
    (hcall : conn.client.call = (s.conns c).client.call)
    (hplaced : ∀ id req, conn.client.call = some (id, req) → conn.Placed s.history order id req) :
    Sound p₀ (s.setConn c conn) order := by
  have hsame : update s.ids c (conn.client.call.map Prod.fst) = s.ids := by
    rw [hcall]
    exact update_eq_self c s.ids
  refine h.change h.linearized h.limits h.fits hreg hplaced ?_ (fun _ he => he) (fun _ he => he)
    fun _ _ _ _ hid => hid
  rw [hsame]
  exact h.numbered

/-- A step that neither the process nor the clients see. -/
theorem Sound.move (h : Sound p₀ s order) {conn : Conn} (hm : (s.conns c).Moves conn) :
    Sound p₀ (s.setConn c conn) order := by
  refine h.setConn ((h.regular c).move hm) hm.call ?_
  intro id req hcall
  obtain ⟨hinv, hfit, hlast, hstage⟩ := h.placed c id req (hm.call ▸ hcall)
  exact ⟨hinv, hfit, by rw [hm.sent]; exact hlast, hstage.move (h.regular c) hm⟩

/-- The queue and the workers of the pool are nothing to the clients. -/
theorem Sound.pool (h : Sound p₀ s order) (opened : Nat) (queue : List Nat) (free : Nat) :
    Sound p₀ { s with opened := opened, queue := queue, free := free } order :=
  ⟨h.linearized, h.limits, h.fits, h.regular, h.placed, h.numbered⟩

theorem Sound.request (h : Sound p₀ s order) {req : Request} (hclient : (s.conns c).client = .ready)
    (hpc : ((s.conns c).link.ends false).pc = .idle) (hfit : req.FitsFrame) :
    Sound p₀ { s.setConn c { s.conns c with
        link := (s.conns c).link.send false (serializeRequest req), client := .sending s.count req } with
      count := s.count + 1, history := s.history ++ [.invoke s.count req] } order := by
  obtain ⟨hlink, hfits, hcaller, hserver⟩ := h.regular c
  obtain ⟨-, -, hreqs, -⟩ := (h.regular c).counts
  have hnew : ∀ op, .invoke s.count op ∉ s.history :=
    fun op hmem => absurd (h.numbered.invoked _ _ hmem) (lt_irrefl _)
  have hid : s.count ∉ order.map Effect.id := by
    intro hmem
    obtain ⟨e, he, heq⟩ := List.mem_map.1 hmem
    exact hnew e.op (heq ▸ h.linearized.invoked e he)
  refine h.change (h.linearized.invoke hnew req) h.limits h.fits ⟨hlink.send hpc _, ?_, ⟨?_, ?_⟩, hserver⟩ ?_
    (h.numbered.next c req) (fun _ => List.mem_append_left _) (fun _ he => he) fun _ _ _ _ hmem => hmem
  · rintro (_ | _) data hdata
    · rcases List.mem_append.1 hdata with hdata | hdata
      · exact hfits false data hdata
      · rw [List.mem_singleton.1 hdata, length_serializeRequest]
        exact hfit
    · exact hfits true data hdata
  · rintro r ⟨⟩
  · have hasked := hcaller.asked
    rw [hclient] at hasked
    show (((s.conns c).link.ends false).sent ++ [serializeRequest req]).length = _ + 1
    rw [List.length_append, hasked]
    rfl
  · rintro id req' ⟨⟩
    refine ⟨by simp, hfit, List.getLast?_concat, .underway ?_ hid⟩
    show _ < (((s.conns c).link.ends false).sent ++ [serializeRequest req]).length
    rw [List.length_append]
    exact Nat.lt_succ_of_le hreqs

/-- The answer that a client finds is the one its request has had. -/
theorem Sound.answer (h : Sound p₀ s order) {id : Nat} {req : Request}
    (hclient : (s.conns c).client = .waiting id req) (hpc : ((s.conns c).link.ends false).pc = .idle) :
    ∃ resp, ((s.conns c).link.ends false).got.getLast?.bind deserializeResponse = some resp ∧
      ⟨id, req, resp⟩ ∈ order := by
  obtain ⟨hgot, hreplied⟩ := (h.regular c).answered_of_idle hclient hpc
  obtain ⟨-, hheard, hreqs, -⟩ := (h.regular c).counts
  cases (h.placed c id req (by rw [hclient]; rfl)).stage with
  | underway hlt => omega
  | received _ _ hlt => omega
  | handling _ hlt => omega
  | replied hlast _ hmem =>
    refine ⟨_, ?_, hmem⟩
    rw [hgot, hlast]
    exact deserializeResponse_serialize (h.fits _ hmem)

theorem Sound.answered (h : Sound p₀ s order) {id : Nat} {req : Request} {resp : Response}
    (hclient : (s.conns c).client = .waiting id req) (hpc : ((s.conns c).link.ends false).pc = .idle)
    (hmem : ⟨id, req, resp⟩ ∈ order) :
    Sound p₀ { s.setConn c { s.conns c with client := .ready } with history := s.history ++ [.respond id resp] }
      order := by
  obtain ⟨hlink, hfits, hcaller, hserver⟩ := h.regular c
  have hasked := hcaller.asked
  rw [hclient, hpc] at hasked
  refine h.change (h.linearized.respond hmem) h.limits h.fits ⟨hlink, hfits, ⟨.inl hpc, hasked⟩, hserver⟩ ?_
    (h.numbered.answer c id resp) (fun _ => List.mem_append_left _) (fun _ he => he) fun _ _ _ _ hid => hid
  rintro id' req' ⟨⟩

/-- The call of a connection takes effect. -/
theorem Sound.commit (h : Sound p₀ s order) {conn : Conn} {process : Process} {id : Nat} {req : Request}
    {resp : Response} (hcall : (s.conns c).client.call = some (id, req)) (hnew : id ∉ order.map Effect.id)
    (hstep : LimitedMap.step req s.process.contents = (resp, process.contents)) (hlimits : process.store.WithinLimits)
    (hreg : conn.Regular) (hconn : conn.client = (s.conns c).client)
    (hstage : ∀ order', ⟨id, req, resp⟩ ∈ order' → conn.Placed s.history order' id req) :
    ∃ order', Sound p₀ { s.setConn c conn with process := process } order' := by
  have hids : s.ids c = some id := by
    unfold ids
    rw [hcall]
    rfl
  have hlin := h.linearized.commit (h.placed c id req hcall).invoked hnew
  rw [hstep] at hlin
  have hmem : ⟨id, req, resp⟩ ∈ order ++ [⟨id, req, resp⟩] := List.mem_append_right _ List.mem_cons_self
  have hsame : update s.ids c (conn.client.call.map Prod.fst) = s.ids := by
    rw [hconn]
    exact update_eq_self c s.ids
  refine ⟨_, h.change hlin hlimits ?_ hreg ?_ (by rw [hsame]; exact h.numbered) (fun _ he => he)
    (fun _ => List.mem_append_left _) ?_⟩
  · intro e he
    rcases List.mem_append.1 he with he | he
    · exact h.fits e he
    · rw [List.mem_singleton.1 he]
      have hfit := serve_fits h.limits req
      rw [(serve_refines req s.process).1, hstep] at hfit
      exact hfit
  · intro id' req' hcall'
    rw [hconn, hcall] at hcall'
    cases hcall'
    exact hstage _ hmem
  · intro d id' hd hid' hin
    rw [List.map_append, List.mem_append] at hin
    rcases hin with hin | hin
    · exact hin
    · -- another client has made another call
      have heq : id' = id := List.mem_singleton.1 hin
      exact absurd (h.numbered.apart d c id' hid' (heq ▸ hids)) hd

/-- The worker has received a request, and begins to handle it. -/
theorem Sound.dispatch (h : Sound p₀ s order) {req : Request} (hserver : (s.conns c).server = .receiving)
    (hpc : ((s.conns c).link.ends true).pc = .idle)
    (hreq : ((s.conns c).link.ends true).got.getLast?.bind deserializeRequest = some req) :
    ∃ order', Sound p₀ (s.setConn c { s.conns c with server := .handling (standaloneHandler req) }) order' := by
  have hreg := h.regular c
  obtain ⟨id, req', hcall, hall, hlt⟩ := hreg.pending_of_held (by rw [hserver, hpc]; rfl)
  have hplaced := h.placed c id req' hcall
  obtain rfl : req' = req := Option.some.inj ((hplaced.decode hall).symm.trans hreq)
  have hreg' : Conn.Regular { s.conns c with server := .handling (standaloneHandler req') } := by
    have hheard := hreg.server.heard
    rw [hserver, hpc] at hheard
    exact ⟨hreg.link, hreg.fits, hreg.client, hpc, hheard⟩
  have hnew : id ∉ order.map Effect.id := by
    cases hplaced.stage with
    | underway hunder => exact absurd hunder (by rw [hall]; exact lt_irrefl _)
    | received _ _ _ hnew => exact hnew
    | handling hs => cases hs.symm.trans hserver
    | replied _ heq => exact absurd heq hlt.ne
  cases hprog : standaloneHandler req' with
  | call op next =>
    rw [hprog] at hreg'
    refine ⟨order, h.setConn hreg' rfl ?_⟩
    intro id' req'' hcall'
    cases hcall.symm.trans hcall'
    exact ⟨hplaced.invoked, hplaced.fits, hplaced.last,
      .handling rfl hlt (.received hprog hplaced.invoked hnew)⟩
  | ret resp =>
    -- a request that needs no store operation takes effect at once
    rw [hprog] at hreg'
    refine h.commit hcall hnew (Served.step_of_ret hprog _) h.limits hreg' rfl ?_
    intro order' hmem
    exact ⟨hplaced.invoked, hplaced.fits, hplaced.last, .handling rfl hlt (.decided (.inl rfl) hmem)⟩

/-- The stage of the request that a worker handles. -/
theorem Sound.handling (h : Sound p₀ s order) {rest : Handler Response}
    (hserver : (s.conns c).server = .handling rest) :
    ∃ id req, (s.conns c).client.call = some (id, req) ∧ (s.conns c).Placed s.history order id req ∧
      ((s.conns c).link.ends true).sent.length < ((s.conns c).link.ends false).sent.length ∧
      Served.WorkerFits s.history order id (.busy req rest) := by
  obtain ⟨id, req, hcall, hall, hlt⟩ := (h.regular c).pending_of_held (by rw [hserver]; rfl)
  refine ⟨id, req, hcall, h.placed c id req hcall, hlt, ?_⟩
  cases (h.placed c id req hcall).stage with
  | underway hunder => exact absurd hunder (by rw [hall]; exact lt_irrefl _)
  | received hs => cases hs.symm.trans hserver
  | handling hs _ hfit =>
    cases hs.symm.trans hserver
    exact hfit
  | replied _ heq => exact absurd heq hlt.ne

theorem Sound.operate (h : Sound p₀ s order) {op : StoreCall} {next : op.Res → Handler Response}
    (hserver : (s.conns c).server = .handling (.call op next)) :
    ∃ order', Sound p₀ { s.setConn c { s.conns c with server := .handling (next (op.exec s.process).1) } with
      process := (op.exec s.process).2 } order' := by
  obtain ⟨id, req, hcall, hplaced, hlt, hfit⟩ := h.handling hserver
  have hreg := h.regular c
  have hreg' : Conn.Regular { s.conns c with server := .handling (next (op.exec s.process).1) } := by
    obtain ⟨hat, hheard⟩ := hreg.server
    rw [hserver] at hat hheard
    exact ⟨hreg.link, hreg.fits, hreg.client, hat, hheard⟩
  cases hfit with
  | received hprog hinv hnew =>
    obtain ⟨resp, hdec, hstep⟩ := Served.step_of_call hprog s.process
    refine h.commit hcall hnew hstep (op.exec_withinLimits h.limits) hreg' rfl ?_
    intro order' hmem
    exact ⟨hplaced.invoked, hplaced.fits, hplaced.last, .handling rfl hlt (.decided hdec hmem)⟩
  | decided hdec hmem =>
    rcases hdec with heq | ⟨e, heq⟩
    · cases heq
    · -- the append
      cases heq
      refine ⟨order, h.change h.linearized h.limits h.fits hreg' ?_ ?_ (fun _ he => he) (fun _ he => he)
        fun _ _ _ _ hid => hid⟩
      · intro id' req' hcall'
        cases hcall.symm.trans hcall'
        exact ⟨hplaced.invoked, hplaced.fits, hplaced.last, .handling rfl hlt (.decided (.inl rfl) hmem)⟩
      · show Served.Numbered (update s.ids c (s.ids c)) s.count s.history
        rw [update_eq_self]
        exact h.numbered

theorem Sound.reply (h : Sound p₀ s order) {resp : Response} (hserver : (s.conns c).server = .handling (.ret resp))
    (hpc : ((s.conns c).link.ends true).pc = .idle) :
    Sound p₀ (s.setConn c { s.conns c with
      link := (s.conns c).link.send true (serializeResponse resp), server := .replying }) order := by
  obtain ⟨id, req, hcall, hplaced, hlt, hfit⟩ := h.handling hserver
  have hmem : ⟨id, req, resp⟩ ∈ order := by
    cases hfit with
    | decided hdec hmem =>
      rcases hdec with heq | ⟨e, heq⟩
      · cases heq
        exact hmem
      · cases heq
  obtain ⟨hlink, hfits, hclient, hserver'⟩ := h.regular c
  obtain ⟨hanswered, -, hreqs, hasked⟩ := (h.regular c).counts
  have hheard := hserver'.heard
  rw [hserver] at hheard
  simp only [Serving.held] at hheard
  refine h.setConn ⟨hlink.send hpc _, ?_, hclient, by rintro r ⟨⟩, ?_⟩ rfl ?_
  · rintro (_ | _) data hdata
    · exact hfits false data hdata
    · rcases List.mem_append.1 hdata with hdata | hdata
      · exact hfits true data hdata
      · have hvalue : 5 + resp.value.length < 2 ^ 32 := h.fits _ hmem
        rw [List.mem_singleton.1 hdata]
        simp only [serializeResponse, List.length_cons, List.length_append, length_be32]
        omega
  · show ((s.conns c).link.ends true).got.length = (((s.conns c).link.ends true).sent ++ [_]).length + 0
    rw [List.length_append, hheard]
    rfl
  · intro id' req' hcall'
    cases hcall.symm.trans hcall'
    refine ⟨hplaced.invoked, hplaced.fits, hplaced.last, .replied List.getLast?_concat ?_ hmem⟩
    show (((s.conns c).link.ends true).sent ++ [_]).length = ((s.conns c).link.ends false).sent.length
    rw [List.length_append, List.length_singleton]
    omega

/-! ## The pool -/

/-- The queue holds the connections that are waiting for a worker, and every worker is idle or has one. -/
structure Pooled (n : Nat) (s : Service) : Prop where
  nodup : s.queue.Nodup
  waiting : ∀ c, c ∈ s.queue ↔ c < s.opened ∧ (s.conns c).place = .queue
  unopened : ∀ c, s.opened ≤ c → (s.conns c).place = .queue ∧ (s.conns c).client.call = none
  workers : s.free + ((Finset.range s.opened).filter fun c => (s.conns c).place = .worker).card = n

theorem Pooled.start (p : Process) (n : Nat) : Pooled n (.start p n) where
  nodup := .nil
  waiting c := by simp [Service.start]
  unopened c _ := ⟨rfl, rfl⟩
  workers := rfl

theorem queued_of_place {conn : Conn} (h : conn.place = .queue) : conn.server = .queued := by
  unfold Conn.place at h
  cases hs : conn.server with
  | queued => rfl
  | listening | receiving | handling | replying | done =>
    rw [hs] at h
    cases h

/-- The number of workers with a connection, after one connection has changed hands. -/
theorem busy_setConn (hc : c < s.opened) (conn : Conn) :
    ((Finset.range s.opened).filter fun d => ((s.setConn c conn).conns d).place = .worker).card +
        (if (s.conns c).place = .worker then 1 else 0) =
      ((Finset.range s.opened).filter fun d => (s.conns d).place = .worker).card +
        (if conn.place = .worker then 1 else 0) := by
  rw [Finset.card_filter, Finset.card_filter]
  exact sum_update_add (w := fun conn : Conn => if conn.place = .worker then 1 else 0) (Finset.mem_range.2 hc) conn

theorem place_setConn (d : Nat) (conn : Conn) :
    ((s.setConn c conn).conns d).place = if d = c then conn.place else (s.conns d).place := by
  rw [conns_setConn]
  split <;> rfl

variable {n : Nat}

/-- A connection goes on in the same hands. -/
theorem Pooled.setConn (h : Pooled n s) {conn : Conn} (hplace : conn.place = (s.conns c).place)
    (hcall : s.opened ≤ c → conn.client.call = none) (process : Process) (count : Nat)
    (history : List (Linear.Event Request Response)) :
    Pooled n { s.setConn c conn with process := process, count := count, history := history } := by
  have hsame : ∀ d, ((s.setConn c conn).conns d).place = (s.conns d).place := by
    intro d
    rw [place_setConn]
    split
    · rename_i hd
      rw [hplace, hd]
    · rfl
  refine ⟨h.nodup, ?_, ?_, ?_⟩
  · intro d
    show d ∈ s.queue ↔ d < s.opened ∧ ((s.setConn c conn).conns d).place = .queue
    rw [hsame]
    exact h.waiting d
  · intro d hd
    refine ⟨(hsame d).trans (h.unopened d hd).1, ?_⟩
    show ((s.setConn c conn).conns d).client.call = none
    rw [conns_setConn]
    split
    · rename_i hdc
      exact hcall (hdc ▸ hd)
    · exact (h.unopened d hd).2
  · show s.free + ((Finset.range s.opened).filter fun d => ((s.setConn c conn).conns d).place = .worker).card = n
    simp only [hsame]
    exact h.workers

theorem Pooled.connect (h : Pooled n s) :
    Pooled n { s with opened := s.opened + 1, queue := s.queue ++ [s.opened] } := by
  have hnew := h.unopened s.opened le_rfl
  refine ⟨?_, ?_, fun d hd => h.unopened d (Nat.le_of_succ_le hd), ?_⟩
  · rw [← List.concat_eq_append]
    exact h.nodup.concat fun hmem => lt_irrefl _ ((h.waiting _).1 hmem).1
  · intro d
    rw [List.mem_append, List.mem_singleton, h.waiting]
    constructor
    · rintro (⟨hd, hplace⟩ | rfl)
      · exact ⟨Nat.lt_succ_of_lt hd, hplace⟩
      · exact ⟨Nat.lt_succ_self _, hnew.1⟩
    · rintro ⟨hd, hplace⟩
      rcases Nat.lt_succ_iff_lt_or_eq.1 hd with hd | rfl
      · exact .inl ⟨hd, hplace⟩
      · exact .inr rfl
  · show s.free + ((Finset.range (s.opened + 1)).filter fun d => (s.conns d).place = .worker).card = n
    rw [Finset.range_add_one, Finset.filter_insert, if_neg (by rw [hnew.1]; decide)]
    exact h.workers

theorem Pooled.take (h : Pooled n s) {queue : List Nat} {free : Nat} (hqueue : s.queue = c :: queue)
    (hfree : s.free = free + 1) :
    Pooled n { s.setConn c { s.conns c with server := .listening } with queue := queue, free := free } := by
  obtain ⟨hopened, hplace⟩ := (h.waiting c).1 (by rw [hqueue]; exact List.mem_cons_self)
  obtain ⟨hnotin, hnodup⟩ := List.nodup_cons.1 (hqueue ▸ h.nodup)
  refine ⟨hnodup, ?_, ?_, ?_⟩
  · intro d
    show d ∈ queue ↔ d < s.opened ∧ ((s.setConn c _).conns d).place = .queue
    rw [place_setConn]
    by_cases hd : d = c
    · subst hd
      rw [if_pos rfl]
      exact ⟨fun hmem => absurd hmem hnotin, fun hcontra => absurd hcontra.2 (by simp [Conn.place])⟩
    · rw [if_neg hd, ← h.waiting, hqueue, List.mem_cons]
      exact ⟨.inr, fun hmem => hmem.resolve_left hd⟩
  · intro d hd
    have hne : d ≠ c := by
      rintro rfl
      exact absurd hopened (Nat.not_lt.2 hd)
    show ((s.setConn c _).conns d).place = .queue ∧ ((s.setConn c _).conns d).client.call = none
    rw [conns_setConn, if_neg hne]
    exact h.unopened d hd
  · have hbusy := busy_setConn hopened { s.conns c with server := .listening }
    rw [if_neg (by rw [hplace]; decide), if_pos (by rfl)] at hbusy
    have hworkers := h.workers
    show free + ((Finset.range s.opened).filter fun d => ((s.setConn c _).conns d).place = .worker).card = n
    omega

theorem Pooled.opened_of_worker (h : Pooled n s) (hplace : (s.conns c).place = .worker) : c < s.opened := by
  by_contra hc
  rw [(h.unopened c (Nat.not_lt.1 hc)).1] at hplace
  cases hplace

theorem Pooled.finish (h : Pooled n s)
    (hserver : (s.conns c).server = .receiving ∨ (s.conns c).server = .replying) :
    Pooled n { s.setConn c { s.conns c with server := .done } with free := s.free + 1 } := by
  have hplace : (s.conns c).place = .worker := by
    unfold Conn.place
    rcases hserver with hserver | hserver <;> rw [hserver]
  have hopened := h.opened_of_worker hplace
  refine ⟨h.nodup, ?_, ?_, ?_⟩
  · intro d
    show d ∈ s.queue ↔ d < s.opened ∧ ((s.setConn c _).conns d).place = .queue
    rw [place_setConn, h.waiting]
    by_cases hd : d = c
    · subst hd
      rw [if_pos rfl, hplace]
      simp [Conn.place]
    · rw [if_neg hd]
  · intro d hd
    have hne : d ≠ c := by
      rintro rfl
      exact absurd hopened (Nat.not_lt.2 hd)
    show ((s.setConn c _).conns d).place = .queue ∧ ((s.setConn c _).conns d).client.call = none
    rw [conns_setConn, if_neg hne]
    exact h.unopened d hd
  · have hbusy := busy_setConn hopened { s.conns c with server := .done }
    rw [if_pos hplace, if_neg (by simp [Conn.place])] at hbusy
    have hworkers := h.workers
    show s.free + 1 + ((Finset.range s.opened).filter fun d => ((s.setConn c _).conns d).place = .worker).card = n
    omega

theorem Pooled.takes (h : Pooled n s) (ht : Takes s s') : Pooled n s' := by
  -- on a connection that has not been made there is no call
  have hcall : ∀ c, s.opened ≤ c → (s.conns c).client.call = none := fun c hc => (h.unopened c hc).2
  cases ht with
  | connect => exact h.connect
  | take hqueue hfree => exact h.take hqueue hfree
  | finish hs hpc => exact h.finish hs
  | move hm hplace => exact h.setConn hplace (fun hc => hm.call.trans (hcall _ hc)) _ _ _
  | request hclient hpc hopened hfit =>
    refine h.setConn ?_ ?_ _ _ _
    · rfl
    · exact fun hc => absurd hopened (Nat.not_lt.2 hc)
  | answered | giveUp =>
    refine h.setConn ?_ ?_ _ _ _
    · rfl
    · exact fun _ => rfl
  | dispatch hs | reject hs | operate hs | reply hs =>
    refine h.setConn ?_ ?_ _ _ _
    · simp [Conn.place, hs]
    · exact hcall _

theorem Sound.takes (h : Sound p₀ s order) (hpool : Pooled n s) (ht : Takes s s') : ∃ order', Sound p₀ s' order' := by
  cases ht with
  | connect => exact ⟨order, h.pool _ _ _⟩
  | take hqueue hfree =>
    have hplace := ((hpool.waiting _).1 (by rw [hqueue]; exact List.mem_cons_self)).2
    exact ⟨order, (h.move (.take (queued_of_place hplace))).pool _ _ _⟩
  | finish hs hpc => exact ⟨order, (h.move (.finish hs hpc)).pool _ _ _⟩
  | move hm => exact ⟨order, h.move hm⟩
  | request hclient hpc hopened hfit => exact ⟨order, h.request hclient hpc hfit⟩
  | answered hclient hpc hresp =>
    obtain ⟨resp, hresp', hmem⟩ := h.answer hclient hpc
    cases hresp.symm.trans hresp'
    exact ⟨order, h.answered hclient hpc hmem⟩
  | giveUp hclient hpc hnone =>
    obtain ⟨resp, hresp, -⟩ := h.answer hclient hpc
    cases hnone.symm.trans hresp
  | dispatch hserver hpc hreq => exact h.dispatch hserver hpc hreq
  | reject hserver hpc hnone =>
    obtain ⟨id, req, hcall, hall, -⟩ := (h.regular _).pending_of_held (by rw [hserver, hpc]; rfl)
    cases hnone.symm.trans ((h.placed _ id req hcall).decode hall)
  | operate hserver => exact h.operate hserver
  | reply hserver hpc => exact ⟨order, h.reply hserver hpc⟩

theorem sound_of_runs {p : Process} (hp : p.store.WithinLimits) {evs : List ServiceEvent}
    (h : Runs step (fun _ _ => True) (start p n) evs s) : Pooled n s ∧ ∃ order, Sound p s order := by
  refine h.invariant (I := fun s => Pooled n s ∧ ∃ order, Sound p s order) ?_ ⟨.start p n, [], .start hp⟩
  rintro s₁ e s₂ ⟨hpool, order, hs⟩ - hstep
  exact ⟨hpool.takes (step_takes hstep), hs.takes hpool (step_takes hstep)⟩

/-- What the clients of the standalone server see is linearizable: whatever the calls on the sockets transfer
at a time, whichever of them fail, and in whatever order the clients and the workers go on, the answers are those of
a map with limits that takes the requests one by one. -/
theorem service_linearizable {p : Process} (hp : p.store.WithinLimits) {evs : List ServiceEvent}
    (h : Runs step (fun _ _ => True) (start p n) evs s) : Linearizable LimitedMap.step p.contents s.history := by
  obtain ⟨-, order, hs⟩ := sound_of_runs hp h
  exact hs.linearized.linearizable

/-- Two connections: the answer to a GET has the value of a PUT whose client loses its connection. -/
def lostPut : List ServiceEvent :=
  [.connect, .connect, .take, .take, .server 0, .server 1, .request 0 ⟨.put, [107], [118]⟩,
    .request 1 ⟨.get, [107], []⟩, .io 0 (.write false 7), .io 1 (.write false 14), .io 0 (.read true 3),
    .io 0 (.write false 8), .io 0 (.read true 1),
    .io 0 (.read true 11), .client 0, .io 0 (.fail false), .server 0, .server 0, .io 1 (.read true 4),
    .io 1 (.read true 10), .server 1, .server 1, .server 1, .client 1, .io 1 (.write true 10), .io 1 (.read false 4),
    .io 1 (.read false 6), .client 1]

theorem service_linearizable_lostPut :
    ∃ s, Runs step (fun _ _ => True) (start ⟨KVStore.empty, Disk.empty⟩ 2) lostPut s ∧
      s.history = [.invoke 0 ⟨.put, [107], [118]⟩, .invoke 1 ⟨.get, [107], []⟩, .respond 1 ⟨.ok, [118]⟩] ∧
      Linearizable LimitedMap.step (Process.contents ⟨KVStore.empty, Disk.empty⟩) s.history := by
  obtain ⟨s, hr, hs⟩ : ∃ s, Runs step (fun _ _ => True) (start ⟨KVStore.empty, Disk.empty⟩ 2) lostPut s ∧
      s.history = [.invoke 0 ⟨.put, [107], [118]⟩, .invoke 1 ⟨.get, [107], []⟩, .respond 1 ⟨.ok, [118]⟩] :=
    exists_runs (by decide +kernel)
  exact ⟨s, hr, hs, service_linearizable KVStore.empty_withinLimits hr⟩

end Service

end KvStore
