/-
The standalone server at rest. When nothing moves any more, only those clients are left waiting whose
connections no worker has taken, and then every worker has the connection of a client that is connected
and silent (`service_quiet`): a connection occupies its worker until it ends.
-/
import KvStore.Server.Service

namespace KvStore

open Bytes Program Protocol Machine Linear Function Duplex

namespace Service

variable {s : Service} {c n : Nat}

/-- What happens by itself: no new client, no new request, no client that hangs up and no call that fails. -/
def Internal : ServiceEvent → Prop
  | .take | .client _ | .server _ => True
  | .io _ e => ∀ s, e ≠ .fail s
  | .connect | .request _ _ | .hangUp _ => False

def Quiet (s : Service) : Prop := ∀ e, Internal e → s.step e = none

theorem Quiet.io (hq : Quiet s) (hc : c < s.opened) {e : Duplex.Event} (he : ∀ t, e ≠ .fail t)
    (h : ∃ link, (s.conns c).link.step e = some link) : False := by
  obtain ⟨link, hlink⟩ := h
  have hnone : s.step (.io c e) = none := hq (.io c e) he
  simp only [step, if_pos hc, hlink] at hnone
  cases hnone

/-- An end at rest writes nothing, and one that waits has nothing to read. -/
theorem Quiet.socket (hq : Quiet s) (hc : c < s.opened) {t : Bool} (hs : (s.conns c).link.Sound) :
    (∀ rest, ((s.conns c).link.ends t).pc ≠ .writing rest) ∧
      ∀ r, ((s.conns c).link.ends t).pc = .reading r →
        (s.conns c).link.available t = 0 ∧ ((s.conns c).link.ends !t).pc ≠ .closed := by
  constructor
  · intro rest hpc
    exact hq.io hc (by rintro _ ⟨⟩) (hs.exists_write hpc)
  · intro r hpc
    have hnone : (s.conns c).link.available t = 0 := by
      by_contra hpos
      exact hq.io hc (by rintro _ ⟨⟩) (hs.exists_read hpc (Nat.pos_of_ne_zero hpos))
    refine ⟨hnone, fun hclosed => ?_⟩
    exact hq.io hc (by rintro _ ⟨⟩) (Link.exists_eof hpc hclosed hnone)

/-- A client at rest is between two requests, waiting, or gone. -/
theorem Quiet.caller (hq : Quiet s) (hc : c < s.opened) (hr : (s.conns c).Regular) {id : Nat} {req : Request}
    (hcall : (s.conns c).client.call = some (id, req)) :
    ((s.conns c).link.ends false).pc = .closed ∨ ∃ r, ((s.conns c).link.ends false).pc = .reading r := by
  have hstep : s.clientStep c = none := (if_pos hc).symm.trans (hq (.client c) trivial)
  have hwrite := (hq.socket hc hr.link (t := false)).1
  cases hpc : ((s.conns c).link.ends false).pc with
  | closed => exact .inl rfl
  | reading r => exact .inr ⟨r, rfl⟩
  | writing rest => exact absurd hpc (hwrite rest)
  | idle =>
    cases hclient : (s.conns c).client with
    | ready =>
      rw [hclient] at hcall
      cases hcall
    | sending id' req' =>
      simp only [clientStep, hclient, hpc] at hstep
      cases hstep
    | waiting id' req' =>
      simp only [clientStep, hclient, hpc] at hstep
      split at hstep <;> cases hstep

/-- A worker at rest waits for a request. -/
theorem Quiet.worker (hq : Quiet s) (hc : c < s.opened) (hr : (s.conns c).Regular)
    (hplace : (s.conns c).place = .worker) :
    (s.conns c).server = .receiving ∧ ∃ r, ((s.conns c).link.ends true).pc = .reading r := by
  have hstep : s.serverStep c = none := (if_pos hc).symm.trans (hq (.server c) trivial)
  have hwrite := (hq.socket hc hr.link (t := true)).1
  have hat := hr.server.isAt
  cases hserver : (s.conns c).server with
  | queued | done => simp [Conn.place, hserver] at hplace
  | listening =>
    rw [hserver] at hat
    simp only [serverStep, hserver, show ((s.conns c).link.ends true).pc = .idle from hat] at hstep
    cases hstep
  | handling rest =>
    rw [hserver] at hat
    cases rest with
    | ret resp =>
      simp only [serverStep, hserver, show ((s.conns c).link.ends true).pc = .idle from hat] at hstep
      cases hstep
    | call op next =>
      simp only [serverStep, hserver, show ((s.conns c).link.ends true).pc = .idle from hat] at hstep
      cases hstep
  | replying =>
    rw [hserver] at hat
    cases hpc : ((s.conns c).link.ends true).pc with
    | writing rest => exact absurd hpc (hwrite rest)
    | reading r => exact absurd hpc (hat r)
    | idle | closed =>
      simp only [serverStep, hserver, hpc] at hstep
      cases hstep
  | receiving =>
    cases hpc : ((s.conns c).link.ends true).pc with
    | writing rest => exact absurd hpc (hwrite rest)
    | reading r => exact ⟨rfl, r, rfl⟩
    | idle =>
      simp only [serverStep, hserver, hpc] at hstep
      split at hstep <;> cases hstep
    | closed =>
      simp only [serverStep, hserver, hpc] at hstep
      cases hstep

/-- The client of a worker at rest is open, and has no call that is not answered. -/
theorem Quiet.silent (hq : Quiet s) (hc : c < s.opened) (hr : (s.conns c).Regular)
    (hplace : (s.conns c).place = .worker) :
    (s.conns c).client.call = none ∧ ((s.conns c).link.ends false).pc = .idle := by
  obtain ⟨hserver, r, hpc⟩ := hq.worker hc hr hplace
  obtain ⟨havail, hopen⟩ := (hq.socket hc hr.link (t := true)).2 r hpc
  have hheard := hr.server.heard
  rw [hserver, hpc] at hheard
  have hwrite := (hq.socket hc hr.link (t := false)).1
  have hrest : ((s.conns c).link.ends !true).pc.rest = some [] := by
    cases hclient : ((s.conns c).link.ends !true).pc with
    | idle | reading => rfl
    | writing rest => exact absurd hclient (hwrite rest)
    | closed => exact absurd hclient hopen
  -- the worker has every request, and has answered it
  have hall : ((s.conns c).link.ends true).got = ((s.conns c).link.ends false).sent :=
    hr.link.received_all (hr.fits false) hpc hrest havail
  have hcall : (s.conns c).client.call = none := by
    cases hcall : (s.conns c).client.call with
    | none => rfl
    | some call =>
      rcases hq.caller hc hr hcall with hclosed | ⟨r', hpc'⟩
      · exact absurd hclosed hopen
      · obtain ⟨havail', -⟩ := (hq.socket hc hr.link (t := false)).2 r' hpc'
        have hresps : ((s.conns c).link.ends false).got = ((s.conns c).link.ends true).sent := by
          refine hr.link.received_all (hr.fits true) hpc' ?_ havail'
          rw [show ((s.conns c).link.ends !false).pc = _ from hpc]
          rfl
        have hasked := hr.client.asked
        have hone : (s.conns c).client.outstanding ((s.conns c).link.ends false).pc = 1 := by
          cases hclient : (s.conns c).client with
          | ready =>
            rw [hclient] at hcall
            cases hcall
          | sending => rfl
          | waiting => exact Caller.outstanding_waiting (by rw [hpc']; rintro ⟨⟩)
        rw [hone, ← hall, hheard, hresps] at hasked
        simp [Serving.held] at hasked
  refine ⟨hcall, ?_⟩
  have hat := hr.client.isAt
  cases hclient : (s.conns c).client with
  | ready =>
    rw [hclient] at hat
    exact hat.resolve_right hopen
  | sending | waiting =>
    rw [hclient] at hcall
    cases hcall

/-- When nothing moves any more, a client that still waits has a connection that no worker has taken, and all
workers have one, each with a client that is connected and asks for nothing. -/
theorem service_quiet {p : Process} (hp : p.store.WithinLimits) {evs : List ServiceEvent}
    (h : Runs step (fun _ _ => True) (start p n) evs s) (hq : Quiet s) {id : Nat} {req : Request}
    (hcall : (s.conns c).client.call = some (id, req)) (hopen : ((s.conns c).link.ends false).pc ≠ .closed) :
    (s.conns c).place = .queue ∧
      ((Finset.range s.opened).filter fun d => (s.conns d).place = .worker).card = n ∧
      ∀ d, (s.conns d).place = .worker →
        (s.conns d).client.call = none ∧ ((s.conns d).link.ends false).pc = .idle := by
  obtain ⟨hpool, order, hs⟩ := sound_of_runs hp h
  have hopened : c < s.opened := by
    by_contra hc
    rw [(hpool.unopened c (Nat.not_lt.1 hc)).2] at hcall
    cases hcall
  have hplace : (s.conns c).place = .queue := by
    cases hplace : (s.conns c).place with
    | queue => rfl
    | worker =>
      rw [(hq.silent hopened (hs.regular c) hplace).1] at hcall
      cases hcall
    | gone =>
      -- the worker has closed its end
      rcases hq.caller hopened (hs.regular c) hcall with hclosed | ⟨r, hpc⟩
      · exact absurd hclosed hopen
      · have hat := (hs.regular c).server.isAt
        have hdone : (s.conns c).server = .done := by
          cases hserver : (s.conns c).server with
          | done => rfl
          | queued | listening | receiving | handling | replying => simp [Conn.place, hserver] at hplace
        rw [hdone] at hat
        exact absurd hat ((hq.socket hopened (hs.regular c).link (t := false)).2 r hpc).2
  have hfree : s.free = 0 := by
    have hmem := (hpool.waiting c).2 ⟨hopened, hplace⟩
    have htake : s.step .take = none := hq .take trivial
    cases hqueue : s.queue with
    | nil =>
      rw [hqueue] at hmem
      cases hmem
    | cons d queue =>
      cases hfree : s.free with
      | zero => rfl
      | succ free =>
        simp only [step, hqueue, hfree] at htake
        cases htake
  have hworkers := hpool.workers
  rw [hfree, Nat.zero_add] at hworkers
  exact ⟨hplace, hworkers, fun d hd => hq.silent (hpool.opened_of_worker hd) (hs.regular d) hd⟩

/-- One worker and two connections: the second client waits as long as the first one is connected. -/
def secondWaits : List ServiceEvent :=
  [.connect, .connect, .take, .server 0, .request 1 ⟨.get, [107], []⟩, .io 1 (.write false 14), .client 1]

/-- No call can be made where each end is between two calls, or waits with nothing to read. -/
theorem link_step_none {l : Link} (h : ∀ t, (l.ends t).pc = .idle ∨
    (∃ r, (l.ends t).pc = .reading r) ∧ l.available t = 0 ∧ (l.ends !t).pc ≠ .closed) {e : Duplex.Event}
    (he : ∀ t, e ≠ .fail t) : l.step e = none := by
  cases e with
  | write t k =>
    rcases h t with hpc | ⟨⟨r, hpc⟩, -⟩
    · simp [Link.step, hpc]
    · simp [Link.step, hpc]
  | read t k =>
    rcases h t with hpc | ⟨⟨r, hpc⟩, havail, -⟩
    · simp [Link.step, hpc]
    · simp only [Link.step, hpc, havail]
      rw [if_neg (by omega)]
  | eof t =>
    rcases h t with hpc | ⟨⟨r, hpc⟩, -, hopen⟩
    · simp [Link.step, hpc]
    · simp [Link.step, hpc, hopen]
  | fail t => exact absurd rfl (he t)

theorem service_quiet_secondWaits :
    ∃ s, Runs step (fun _ _ => True) (start ⟨KVStore.empty, Disk.empty⟩ 1) secondWaits s ∧ Quiet s ∧
      (s.conns 1).place = .queue := by
  obtain ⟨s, hr, ⟨hqueue, hfree, hopened⟩, ⟨hidle, hnone, hpc, havail⟩, hcall, hpc', havail', hidle', hplace⟩ :
      ∃ s, Runs step (fun _ _ => True) (start ⟨KVStore.empty, Disk.empty⟩ 1) secondWaits s ∧
        (s.queue = [1] ∧ s.free = 0 ∧ s.opened = 2) ∧
        (((s.conns 0).link.ends false).pc = .idle ∧ (s.conns 0).client.call = none ∧
          ((s.conns 0).link.ends true).pc = .reading (.header []) ∧ (s.conns 0).link.available true = 0) ∧
        (s.conns 1).client.call = some (0, ⟨.get, [107], []⟩) ∧
        ((s.conns 1).link.ends false).pc = .reading (.header []) ∧ (s.conns 1).link.available false = 0 ∧
        ((s.conns 1).link.ends true).pc = .idle ∧ (s.conns 1).place = .queue := exists_runs (by decide +kernel)
  have hq : Quiet s := by
    rintro (_ | _ | _ | c | c | c | ⟨c, e⟩) he
    · exact absurd he id
    · simp [step, hqueue, hfree]
    · exact absurd he id
    · rw [step, hopened]
      rcases c with _ | _ | c
      · cases hclient : (s.conns 0).client with
        | ready => simp [clientStep, hclient, hidle]
        | sending | waiting =>
          rw [hclient] at hnone
          cases hnone
      · cases hclient : (s.conns 1).client <;> simp [clientStep, hclient, hpc']
      · exact if_neg (by omega)
    · rw [step, hopened]
      rcases c with _ | _ | c
      · cases hserver : (s.conns 0).server with
        | handling rest => cases rest <;> simp [serverStep, hserver, hpc]
        | queued | listening | receiving | replying | done => simp [serverStep, hserver, hpc]
      · simp [serverStep, queued_of_place hplace, hidle']
      · exact if_neg (by omega)
    · exact absurd he id
    · rw [step, hopened]
      rcases c with _ | _ | c
      · rw [link_step_none ?_ he]
        · rfl
        · rintro (_ | _)
          · exact .inl hidle
          · exact .inr ⟨⟨_, hpc⟩, havail, by rw [show ((s.conns 0).link.ends !true).pc = _ from hidle]; rintro ⟨⟩⟩
      · rw [link_step_none ?_ he]
        · rfl
        · rintro (_ | _)
          · exact .inr ⟨⟨_, hpc'⟩, havail', by rw [show ((s.conns 1).link.ends !false).pc = _ from hidle']; rintro ⟨⟩⟩
          · exact .inl hidle'
      · exact if_neg (by omega)
  exact ⟨s, hr, hq, (service_quiet KVStore.empty_withinLimits hr hq hcall (by rw [hpc']; rintro ⟨⟩)).1⟩

end Service

end KvStore
