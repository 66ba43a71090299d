/-
The clients of the standalone server. The workers of the pool handle requests at the same time, each
its store operation, then its append, then its reply; what the clients see is linearizable: every
answer is the one that a map with limits, asked one request after the other, gives. A request takes
effect at its store operation, and before its record is in the log.
-/
import KvStore.Lib.Custody
import KvStore.Lib.Linearizable
import KvStore.Networking.Connection
import KvStore.Server.Pool

namespace KvStore

open Bytes Program Machine Linear Function

/-- The pool with what its clients see: the number of the call each worker handles or has handled last,
the number of calls so far, and the history. -/
structure Served where
  pool : Pool
  ids : Nat → Option Nat
  count : Nat
  history : List (Event Request Response)

namespace Served

def start (p : Process) (n : Nat) : Served := ⟨Pool.start p n, fun _ => none, 0, []⟩

/-- The answer that worker `t` is about to send. -/
def replying (s : Served) (t : Nat) : Option (Event Request Response) :=
  match s.ids t, s.pool.workers[t]? with
  | some id, some (.busy _ (.ret resp)) => some (.respond id resp)
  | _, _ => none

def step (s : Served) (ev : PoolEvent) : Option Served :=
  (s.pool.step ev).map fun pool =>
    match ev with
    | .arrive t req =>
      { pool, ids := update s.ids t (some s.count), count := s.count + 1,
        history := s.history ++ [.invoke s.count req] }
    | .step _ => { s with pool }
    | .reply t => { s with pool, history := s.history ++ (s.replying t).toList }

/-- Everything a step can do. -/
inductive Takes (s : Served) : Served → Prop
  | arrive {t : Nat} {req : Request} : s.pool.workers[t]? = some .idle →
      Takes s
        { pool := { s.pool with workers := s.pool.workers.set t (.busy req (standaloneHandler req)) }
          ids := update s.ids t (some s.count), count := s.count + 1
          history := s.history ++ [.invoke s.count req] }
  | step {t : Nat} {req : Request} {c : StoreCall} {next : c.Res → Handler Response} :
      s.pool.workers[t]? = some (.busy req (.call c next)) →
      Takes s { s with pool := { s.pool with
        process := (c.exec s.pool.process).2
        workers := s.pool.workers.set t (.busy req (next (c.exec s.pool.process).1)) } }
  | reply {t : Nat} {req : Request} {resp : Response} : s.pool.workers[t]? = some (.busy req (.ret resp)) →
      Takes s { s with
        pool := { s.pool with workers := s.pool.workers.set t .idle, sent := s.pool.sent ++ [(req, resp)] }
        history := s.history ++ (s.replying t).toList }

theorem step_takes {s s' : Served} {ev : PoolEvent} (h : s.step ev = some s') : Takes s s' := by
  obtain ⟨pool, hpool, rfl⟩ := Option.map_eq_some_iff.1 h
  cases ev with
  | arrive t req =>
    simp only [Pool.step] at hpool
    split at hpool
    · rename_i hw
      obtain ⟨-, heq⟩ := Option.ite_none_right_eq_some.1 hpool
      cases heq
      exact .arrive hw
    · cases hpool
  | step t =>
    simp only [Pool.step] at hpool
    split at hpool
    · rename_i req c next hw
      cases hpool
      exact .step hw
    · cases hpool
  | reply t =>
    simp only [Pool.step] at hpool
    split at hpool
    · rename_i req resp hw
      cases hpool
      exact .reply hw
    · cases hpool

/-! ## The moment of effect -/

/-- The answer of a request that does not look at the store. -/
theorem step_of_ret {req : Request} {resp : Response} (h : standaloneHandler req = .ret resp)
    (m : Key → Option Value) :
    LimitedMap.step req m = (resp, m) := by
  cases hc : req.command with
  | put =>
    rw [standaloneHandler_put hc] at h
    cases h
  | get =>
    rw [standaloneHandler_get hc] at h
    cases h
  | delete =>
    rw [standaloneHandler_delete hc] at h
    cases h
  | ping | other =>
    unfold standaloneHandler at h
    unfold LimitedMap.step
    rw [hc] at h ⊢
    cases h
    rfl

/-- What is left of a handler once the store operation has decided its answer. -/
def Decided (resp : Response) (rest : Handler Response) : Prop :=
  rest = .ret resp ∨ ∃ e, rest = .call (.append e) fun _ => .ret resp

/-- The first operation does to the store what the request does to the map, and decides its answer. -/
theorem step_of_call {req : Request} {c : StoreCall} {next : c.Res → Handler Response}
    (h : standaloneHandler req = .call c next) (p : Process) :
    ∃ resp, Decided resp (next (c.exec p).1) ∧ LimitedMap.step req p.contents = (resp, (c.exec p).2.contents) := by
  have hrefines := serve_refines req p
  rw [serve, h, Prog.exec_call] at hrefines
  have hdecided : ∃ resp, Decided resp (next (c.exec p).1) := by
    rcases first_operation h p with ⟨e, -, -, hnext, -⟩ | ⟨⟨resp, hnext, -⟩, -⟩
    · exact ⟨_, .inr ⟨e, hnext⟩⟩
    · exact ⟨resp, .inl hnext⟩
  obtain ⟨resp, hresp⟩ := hdecided
  refine ⟨resp, hresp, ?_⟩
  -- an append changes nothing that the map has
  rcases hresp with hnext | ⟨e, hnext⟩
  · rw [hnext] at hrefines
    exact Prod.ext hrefines.1.symm hrefines.2.symm
  · rw [hnext] at hrefines
    exact Prod.ext hrefines.1.symm hrefines.2.symm

/-- What is known of a worker that handles call `id`: it has made no operation yet and the call has not
taken effect, or the call has taken effect with the answer it will give. -/
inductive WorkerFits (history : List (Event Request Response)) (order : List (Effect Request Response)) (id : Nat) :
    Worker → Prop
  | received {req : Request} {c : StoreCall} {next : c.Res → Handler Response} :
      standaloneHandler req = .call c next → .invoke id req ∈ history → id ∉ order.map Effect.id →
      WorkerFits history order id (.busy req (.call c next))
  | decided {req : Request} {resp : Response} {rest : Handler Response} :
      Decided resp rest → ⟨id, req, resp⟩ ∈ order → WorkerFits history order id (.busy req rest)

theorem WorkerFits.mono {history history' : List (Event Request Response)}
    {order order' : List (Effect Request Response)}
    {id : Nat} {w : Worker} (h : WorkerFits history order id w) (hhist : ∀ e ∈ history, e ∈ history')
    (horder : ∀ e ∈ order, e ∈ order') (hid : id ∈ order'.map Effect.id → id ∈ order.map Effect.id) :
    WorkerFits history' order' id w := by
  cases h with
  | received hreq hinv hnew => exact .received hreq (hhist _ hinv) fun hmem => hnew (hid hmem)
  | decided hresp hmem => exact .decided hresp (horder _ hmem)

/-- The calls are numbered from zero on, and two workers never handle the same one. -/
structure Numbered (ids : Nat → Option Nat) (count : Nat) (history : List (Event Request Response)) : Prop where
  below : ∀ t id, ids t = some id → id < count
  invoked : ∀ id req, .invoke id req ∈ history → id < count
  apart : ∀ t u id, ids t = some id → ids u = some id → t = u

theorem Numbered.next {ids : Nat → Option Nat} {count : Nat} {history : List (Event Request Response)}
    (h : Numbered ids count history) (t : Nat) (req : Request) :
    Numbered (update ids t (some count)) (count + 1) (history ++ [.invoke count req]) := by
  have hids : ∀ u id, update ids t (some count) u = some id → u = t ∧ count = id ∨ ids u = some id := by
    intro u id hu
    rcases Custody.update_eq_iff.1 hu with ⟨hut, heq⟩ | ⟨-, hu⟩
    · exact .inl ⟨hut, Option.some.inj heq⟩
    · exact .inr hu
  refine ⟨?_, ?_, ?_⟩
  · intro u id hu
    rcases hids u id hu with ⟨-, rfl⟩ | hold
    · exact Nat.lt_succ_self _
    · exact (h.below u id hold).trans (Nat.lt_succ_self _)
  · intro id req' hmem
    rcases List.mem_append.1 hmem with hmem | hmem
    · exact (h.invoked id req' hmem).trans (Nat.lt_succ_self _)
    · cases List.mem_singleton.1 hmem
      exact Nat.lt_succ_self _
  · intro u v id hu hv
    rcases hids u id hu with ⟨hut, rfl⟩ | hold <;> rcases hids v _ hv with ⟨hvt, heq⟩ | hold'
    · exact hut.trans hvt.symm
    · exact absurd (h.below v _ hold') (lt_irrefl _)
    · exact absurd (h.below u _ hold) (heq ▸ lt_irrefl _)
    · exact h.apart u v id hold hold'

/-- The history is linearized by an order that leaves what the store holds. -/
structure Sound (p₀ : Process) (s : Served) (order : List (Effect Request Response)) : Prop where
  linearized : Linearized LimitedMap.step p₀.contents s.history order s.pool.process.contents
  fits : ∀ t w, s.pool.workers[t]? = some w → w ≠ .idle → ∃ id, s.ids t = some id ∧ WorkerFits s.history order id w
  numbered : Numbered s.ids s.count s.history

theorem Sound.start (p₀ : Process) (n : Nat) : Sound p₀ (.start p₀ n) [] where
  linearized := .start _ _
  fits t w hw hne := absurd (List.eq_of_mem_replicate (List.mem_of_getElem? hw)) hne
  numbered := ⟨fun _ _ h => (by cases h), fun _ _ h => (by cases h), fun _ _ _ h => (by cases h)⟩

/-- A worker of the row after one of them has moved. -/
theorem getElem?_set_cases {row : List Worker} {t u : Nat} {w w' : Worker} (h : (row.set t w')[u]? = some w) :
    u = t ∧ w = w' ∨ u ≠ t ∧ row[u]? = some w := by
  by_cases hu : u = t
  · subst hu
    rw [List.getElem?_set_self'] at h
    obtain ⟨x, -, rfl⟩ := Option.map_eq_some_iff.1 h
    exact .inl ⟨rfl, rfl⟩
  · rw [List.getElem?_set_ne (Ne.symm hu)] at h
    exact .inr ⟨hu, h⟩

theorem Sound.arrive {p₀ : Process} {s : Served} {order : List (Effect Request Response)} (h : Sound p₀ s order)
    {t : Nat} (req : Request) :
    ∃ order', Sound p₀
      { pool := { s.pool with workers := s.pool.workers.set t (.busy req (standaloneHandler req)) }
        ids := update s.ids t (some s.count), count := s.count + 1
        history := s.history ++ [.invoke s.count req] } order' := by
  have hnew : ∀ op, .invoke s.count op ∉ s.history :=
    fun op hmem => absurd (h.numbered.invoked _ _ hmem) (lt_irrefl _)
  have hid : s.count ∉ order.map Effect.id := by
    intro hmem
    obtain ⟨e, he, heq⟩ := List.mem_map.1 hmem
    exact hnew e.op (heq ▸ h.linearized.invoked e he)
  have hlin := h.linearized.invoke hnew req
  have hinv : .invoke s.count req ∈ s.history ++ [.invoke s.count req] := by simp
  -- the other workers see a longer history, and perhaps one more effect that is not theirs
  have hfits : ∀ order', (∀ e ∈ order, e ∈ order') →
      (∀ id, id ∈ order'.map Effect.id → id ∈ order.map Effect.id ∨ id = s.count) →
      WorkerFits (s.history ++ [.invoke s.count req]) order' s.count (.busy req (standaloneHandler req)) →
      ∀ u w, (s.pool.workers.set t (.busy req (standaloneHandler req)))[u]? = some w → w ≠ .idle →
        ∃ id, update s.ids t (some s.count) u = some id ∧
          WorkerFits (s.history ++ [.invoke s.count req]) order' id w := by
    intro order' hsub hmem hself u w hw hne
    rcases getElem?_set_cases hw with ⟨rfl, rfl⟩ | ⟨hu, hw⟩
    · exact ⟨s.count, update_self .., hself⟩
    · obtain ⟨id, hid', hfit⟩ := h.fits u w hw hne
      refine ⟨id, by rw [update_of_ne hu]; exact hid', hfit.mono (fun _ => List.mem_append_left _) hsub ?_⟩
      intro hin
      rcases hmem id hin with hin | rfl
      · exact hin
      · exact absurd (h.numbered.below u _ hid') (lt_irrefl _)
  cases hreq : standaloneHandler req with
  | call c next =>
    rw [hreq] at hfits
    exact ⟨order, hlin, hfits order (fun _ he => he) (fun _ hm => .inl hm) (.received hreq hinv hid),
      h.numbered.next t req⟩
  | ret resp =>
    -- a request that needs no store operation takes effect at once
    rw [hreq] at hfits
    have hcommit := hlin.commit hinv hid
    rw [step_of_ret hreq] at hcommit
    refine ⟨_, hcommit, hfits _ (fun _ => List.mem_append_left _) ?_ ?_, h.numbered.next t req⟩
    · intro id hm
      rw [List.map_append, List.mem_append] at hm
      exact hm.imp_right List.mem_singleton.1
    · exact .decided (.inl rfl) (List.mem_append_right _ List.mem_cons_self)

theorem Sound.operate {p₀ : Process} {s : Served} {order : List (Effect Request Response)} (h : Sound p₀ s order)
    {t : Nat} {req : Request} {c : StoreCall} {next : c.Res → Handler Response}
    (hw : s.pool.workers[t]? = some (.busy req (.call c next))) :
    ∃ order', Sound p₀ { s with pool := { s.pool with
      process := (c.exec s.pool.process).2
      workers := s.pool.workers.set t (.busy req (next (c.exec s.pool.process).1)) } } order' := by
  obtain ⟨id, hid, hfit⟩ := h.fits t _ hw (by simp)
  cases hfit with
  | received hreq hinv hnew =>
    obtain ⟨resp, hdec, hstep⟩ := step_of_call hreq s.pool.process
    have hcommit := h.linearized.commit hinv hnew
    rw [hstep] at hcommit
    refine ⟨_, hcommit, ?_, h.numbered⟩
    intro u w hu hne
    rcases getElem?_set_cases hu with ⟨rfl, rfl⟩ | ⟨hut, hu⟩
    · exact ⟨id, hid, .decided hdec (List.mem_append_right _ List.mem_cons_self)⟩
    · obtain ⟨id', hid', hfit'⟩ := h.fits u w hu hne
      refine ⟨id', hid', hfit'.mono (fun _ he => he) (fun _ => List.mem_append_left _) ?_⟩
      intro hin
      rw [List.map_append, List.mem_append] at hin
      rcases hin with hin | hin
      · exact hin
      · -- another worker handles another call
        have heq : id' = id := List.mem_singleton.1 hin
        exact absurd (h.numbered.apart u t id' hid' (heq ▸ hid)) hut
  | decided hdec hmem =>
    rcases hdec with heq | ⟨e, heq⟩
    · cases heq
    · -- the append
      cases heq
      refine ⟨order, h.linearized, ?_, h.numbered⟩
      intro u w hu hne
      rcases getElem?_set_cases hu with ⟨rfl, rfl⟩ | ⟨-, hu⟩
      · exact ⟨id, hid, .decided (.inl rfl) hmem⟩
      · exact h.fits u w hu hne

theorem Sound.reply {p₀ : Process} {s : Served} {order : List (Effect Request Response)} (h : Sound p₀ s order)
    {t : Nat} {req : Request} {resp : Response} (hw : s.pool.workers[t]? = some (.busy req (.ret resp))) :
    Sound p₀ { s with
      pool := { s.pool with workers := s.pool.workers.set t .idle, sent := s.pool.sent ++ [(req, resp)] }
      history := s.history ++ (s.replying t).toList } order := by
  obtain ⟨id, hid, hfit⟩ := h.fits t _ hw (by simp)
  have hmem : ⟨id, req, resp⟩ ∈ order := by
    cases hfit with
    | decided hdec hmem =>
      rcases hdec with heq | ⟨e, heq⟩
      · cases heq
        exact hmem
      · cases heq
  have hreply : (s.replying t).toList = [.respond id resp] := by simp [replying, hid, hw]
  rw [hreply]
  refine ⟨h.linearized.respond hmem, ?_, h.numbered.below, ?_, h.numbered.apart⟩
  · intro u w hu hne
    rcases getElem?_set_cases hu with ⟨-, rfl⟩ | ⟨-, hu⟩
    · exact absurd rfl hne
    · obtain ⟨id', hid', hfit'⟩ := h.fits u w hu hne
      exact ⟨id', hid', hfit'.mono (fun _ => List.mem_append_left _) (fun _ he => he) fun hin => hin⟩
  · intro id' req' hin
    rcases List.mem_append.1 hin with hin | hin
    · exact h.numbered.invoked id' req' hin
    · cases List.mem_singleton.1 hin

/-- What the clients of the standalone server see is linearizable, with a map with limits as the
sequential object, in every run of any number of workers. -/
theorem standalone_linearizable {p : Process} {n : Nat} {evs : List PoolEvent} {s : Served}
    (h : Runs Served.step (fun _ _ => True) (.start p n) evs s) :
    Linearizable LimitedMap.step p.contents s.history := by
  have hsound : ∃ order, Sound p s order := by
    refine h.invariant (I := fun s => ∃ order, Sound p s order) ?_ ⟨[], .start p n⟩
    rintro s₁ ev s₂ ⟨order, hs⟩ - hstep
    cases step_takes hstep with
    | arrive hw => exact hs.arrive _
    | step hw => exact hs.operate hw
    | reply hw => exact ⟨order, hs.reply hw⟩
  obtain ⟨order, hs⟩ := hsound
  exact hs.linearized.linearizable

/-- Two PUTs and a GET overlap: the GET is answered by the second PUT before the second PUT itself. -/
theorem standalone_linearizable_overlapping :
    ∃ s, Runs Served.step (fun _ _ => True) (.start ⟨KVStore.empty, Disk.empty⟩ 3)
        [.arrive 0 ⟨.put, [107], [97]⟩, .arrive 1 ⟨.put, [107], [98]⟩, .arrive 2 ⟨.get, [107], []⟩, .step 0, .step 1,
          .step 2, .reply 2, .step 1, .reply 1, .step 0, .reply 0] s ∧
      s.history = [.invoke 0 ⟨.put, [107], [97]⟩, .invoke 1 ⟨.put, [107], [98]⟩, .invoke 2 ⟨.get, [107], []⟩,
        .respond 2 ⟨.ok, [98]⟩, .respond 1 ⟨.ok, []⟩, .respond 0 ⟨.ok, []⟩] ∧
      Linearizable LimitedMap.step (Process.contents ⟨KVStore.empty, Disk.empty⟩) s.history := by
  obtain ⟨s, hr, hs⟩ : ∃ s, Runs Served.step (fun _ _ => True) (.start ⟨KVStore.empty, Disk.empty⟩ 3)
        [.arrive 0 ⟨.put, [107], [97]⟩, .arrive 1 ⟨.put, [107], [98]⟩, .arrive 2 ⟨.get, [107], []⟩, .step 0, .step 1,
          .step 2, .reply 2, .step 1, .reply 1, .step 0, .reply 0] s ∧
      s.history = [.invoke 0 ⟨.put, [107], [97]⟩, .invoke 1 ⟨.put, [107], [98]⟩, .invoke 2 ⟨.get, [107], []⟩,
        .respond 2 ⟨.ok, [98]⟩, .respond 1 ⟨.ok, []⟩, .respond 0 ⟨.ok, []⟩] :=
    exists_runs (by decide +kernel)
  exact ⟨s, hr, hs, standalone_linearizable hr⟩

end Served

end KvStore
