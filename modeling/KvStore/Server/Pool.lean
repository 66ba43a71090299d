/-
The worker threads of the standalone server. Each worker takes a request, makes its operations one
at a time, interleaved in any way with those of the others, and sends the response. The store and
the log have a lock each, so the order of two store operations and the order of their appends can
differ: the log replays to the store in the runs in which no worker changes a key while the append
of another change of it is outstanding (`replay_eq_store`), and it does not in the shortest run
that breaks this (`appends_swapped`).
-/
import KvStore.Lib.Machine
import KvStore.Lib.Slots
import KvStore.Server.Handler

namespace KvStore

open Bytes Updates Program Wal Machine Slots

/-! ## The machine -/

/-- A worker: waiting for a request, or handling one with these operations still to make. -/
inductive Worker
  | idle
  | busy (req : Request) (rest : Handler Response)

/-- The entry of the append the worker makes next. -/
def Worker.pending : Worker → Option Entry
  | .busy _ (.call (.append e) _) => some e
  | _ => none

/-- The key of the store mutation the worker makes next. -/
def Worker.mutating : Worker → Option Key
  | .busy _ (.call (.put k _) _) => some k
  | .busy _ (.call (.del k) _) => some k
  | _ => none

/-- The mutation that is in the store and not yet acknowledged: its append is outstanding, or the
response OK is. -/
def Worker.inFlight : Worker → Option Entry
  | .busy _ (.call (.append e) _) => some e
  | .busy req (.ret resp) => if resp.status = .ok then req.entry else none
  | _ => none

/-- The process with its workers and the responses sent so far. -/
structure Pool where
  process : Process
  workers : List Worker
  sent : List (Request × Response)

inductive PoolEvent
  /-- worker `t` reads a request from its connection -/
  | arrive (t : Nat) (req : Request)
  /-- worker `t` makes its next operation -/
  | step (t : Nat)
  /-- worker `t` sends its response -/
  | reply (t : Nat)

def Pool.step (s : Pool) : PoolEvent → Option Pool
  | .arrive t req =>
    match s.workers[t]? with
    | some .idle =>
      if req.FitsFrame then some { s with workers := s.workers.set t (.busy req (standaloneHandler req)) } else none
    | _ => none
  | .step t =>
    match s.workers[t]? with
    | some (.busy req (.call c next)) =>
      some { s with
        process := (c.exec s.process).2
        workers := s.workers.set t (.busy req (next (c.exec s.process).1)) }
    | _ => none
  | .reply t =>
    match s.workers[t]? with
    | some (.busy req (.ret resp)) =>
      some { s with workers := s.workers.set t .idle, sent := s.sent ++ [(req, resp)] }
    | _ => none

/-- A process that has recovered, with `n` idle workers. -/
def Pool.start (p : Process) (n : Nat) : Pool := ⟨p, List.replicate n .idle, []⟩

/-- The entries for a key that the workers hold, seen through a view of a worker. -/
def Pool.on (s : Pool) (v : Worker → Option Entry) (k : Key) : List Entry := itemsOf Entry.key v k s.workers

/-- The outstanding appends for a key. -/
abbrev Pool.pendingOn (s : Pool) (k : Key) : List Entry := s.on Worker.pending k

/-- The unacknowledged mutations of a key. -/
abbrev Pool.inFlightOn (s : Pool) (k : Key) : List Entry := s.on Worker.inFlight k

/-- The entry that an event appends to the log. -/
def Pool.appending (s : Pool) : PoolEvent → Option Entry
  | .step t => s.workers[t]?.bind Worker.pending
  | _ => none

/-- The key that an event changes in the store, unless it is refused there. -/
def Pool.mutating (s : Pool) : PoolEvent → Option Key
  | .step t => s.workers[t]?.bind Worker.mutating
  | _ => none

/-! ## What an event does -/

/-- A worker of the standalone server is idle, at the start of its handler, between the store and
the append, or at its response. -/
def Worker.Reached (w : Worker) : Prop :=
  w = .idle ∨ (∃ req, req.FitsFrame ∧ w = .busy req (standaloneHandler req)) ∨
    (∃ req e, req.entry = some e ∧ Loggable e ∧ w = .busy req (.call (.append e) fun _ => .ret ⟨.ok, []⟩)) ∨
    ∃ req resp, w = .busy req (.ret resp)

/-- What an event does to the process, to the acknowledged mutations and to the worker `w` that
takes it and is `w'` afterwards. -/
inductive Move (s s' : Pool) (ev : PoolEvent) (w w' : Worker) : Prop
  | quiet (logs : s.appending ev = none) (process : s'.process = s.process)
      (acked : ackedEntries s'.sent = ackedEntries s.sent)
      (before : w.pending = none ∧ w.inFlight = none) (after : w'.pending = none ∧ w'.inFlight = none)
  | store (e : Entry) (logs : s.appending ev = none) (changes : s.mutating ev = some e.key)
      (process : s'.process = { s.process with store := applyEntry s.process.store e })
      (acked : ackedEntries s'.sent = ackedEntries s.sent)
      (before : w.pending = none ∧ w.inFlight = none) (after : w'.pending = some e ∧ w'.inFlight = some e)
  | append (e : Entry) (logs : s.appending ev = some e) (loggable : Loggable e)
      (process : s'.process = { s.process with
        disk := { s.process.disk with wal := s.process.disk.wal ++ record e } })
      (acked : ackedEntries s'.sent = ackedEntries s.sent)
      (before : w.pending = some e ∧ w.inFlight = some e) (after : w'.pending = none ∧ w'.inFlight = some e)
  | acknowledge (e : Entry) (logs : s.appending ev = none) (process : s'.process = s.process)
      (acked : ackedEntries s'.sent = ackedEntries s.sent ++ [e])
      (before : w.pending = none ∧ w.inFlight = some e) (after : w'.pending = none ∧ w'.inFlight = none)

theorem received_view (req : Request) : (Worker.busy req (standaloneHandler req)).pending = none ∧
    (Worker.busy req (standaloneHandler req)).inFlight = none := by
  cases hc : req.command with
  | put =>
    rw [standaloneHandler_put hc]
    exact ⟨rfl, rfl⟩
  | delete =>
    rw [standaloneHandler_delete hc]
    exact ⟨rfl, rfl⟩
  | get | ping | other =>
    unfold standaloneHandler
    rw [hc]
    simp [storeGet, Worker.pending, Worker.inFlight, Request.entry, hc]

theorem ackedEntries_snoc (acks : List (Request × Response)) (req : Request) (resp : Response) :
    ackedEntries (acks ++ [(req, resp)]) =
      ackedEntries acks ++ (if resp.status = .ok then req.entry else none).toList := by
  unfold ackedEntries
  rw [List.filterMap_append]
  cases h : (if resp.status = .ok then req.entry else none) <;> simp [h]

/-- The first operation of a request: the store takes the mutation and its append is next, or
nothing changes and the response is next. -/
theorem first_operation {req : Request} {c : StoreCall} {next : c.Res → Handler Response}
    (h : standaloneHandler req = .call c next) (p : Process) :
    (∃ e, req.entry = some e ∧ (Worker.busy req (.call c next)).mutating = some e.key ∧
      next (c.exec p).1 = .call (.append e) (fun _ => .ret ⟨.ok, []⟩) ∧
      (c.exec p).2 = { p with store := applyEntry p.store e }) ∨
    ((∃ resp, next (c.exec p).1 = .ret resp ∧ (if resp.status = .ok then req.entry else none) = none) ∧
      (c.exec p).2 = p) := by
  cases hc : req.command with
  | put =>
    rw [standaloneHandler_put hc] at h
    cases h
    by_cases ha : KVStore.Accepts req.key req.value
    · left
      refine ⟨⟨.put, req.key, req.value⟩, by unfold Request.entry; rw [hc], rfl, ?_, ?_⟩
      · simp [StoreCall.exec, KVStore.put_ok ha, logAndReply]
      · simp [StoreCall.exec, applyEntry]
    · right
      obtain ⟨hs, -, hst⟩ := KVStore.put_refused ha p.store
      refine ⟨⟨(p.store.put req.key req.value).1, ?_, if_neg hs⟩, ?_⟩
      · exact if_neg hs
      · simp only [StoreCall.exec, hst]
  | delete =>
    rw [standaloneHandler_delete hc] at h
    cases h
    cases hl : p.store.data.lookup req.key with
    | some v =>
      left
      refine ⟨⟨.delete, req.key, []⟩, by unfold Request.entry; rw [hc], rfl, ?_, ?_⟩
      · simp [StoreCall.exec, KVStore.del_present hl, logAndReply]
      · simp [StoreCall.exec, applyEntry]
    | none =>
      right
      refine ⟨⟨⟨.notFound, []⟩, ?_, rfl⟩, ?_⟩
      · simp [StoreCall.exec, KVStore.del_absent hl, logAndReply]
      · simp [StoreCall.exec, KVStore.del_absent hl]
  | get =>
    rw [standaloneHandler_get hc] at h
    cases h
    right
    refine ⟨⟨_, rfl, ?_⟩, rfl⟩
    unfold Request.entry
    rw [hc, ite_self]
  | ping | other =>
    unfold standaloneHandler at h
    rw [hc] at h
    cases h

/-- Every event moves one worker, in one of the four ways. -/
theorem Pool.step_move {s s' : Pool} {ev : PoolEvent} (hR : ∀ w ∈ s.workers, w.Reached)
    (h : s.step ev = some s') : ∃ t w w', s.workers[t]? = some w ∧ s'.workers = s.workers.set t w' ∧
      w'.Reached ∧ Move s s' ev w w' := by
  cases ev with
  | arrive t req =>
    simp only [Pool.step] at h
    split at h
    · rename_i hw
      split at h
      · rename_i hf
        cases h
        exact ⟨t, _, _, hw, rfl, Or.inr (Or.inl ⟨req, hf, rfl⟩), .quiet rfl rfl rfl ⟨rfl, rfl⟩ (received_view req)⟩
      · cases h
    · cases h
  | step t =>
    simp only [Pool.step] at h
    split at h
    · rename_i req c next hw
      cases h
      have hlogs : s.appending (.step t) = (Worker.busy req (.call c next)).pending := by
        simp only [Pool.appending, hw, Option.bind_some]
      have hchanges : s.mutating (.step t) = (Worker.busy req (.call c next)).mutating := by
        simp only [Pool.mutating, hw, Option.bind_some]
      refine ⟨t, _, _, hw, rfl, ?_⟩
      rcases hR _ (List.mem_of_getElem? hw) with hx | ⟨req', hf, hx⟩ | ⟨req', e, he, hl, hx⟩ | ⟨req', resp, hx⟩
      · cases hx
      · injection hx with hreq hx
        subst hreq
        have hview := received_view req
        rw [← hx] at hview
        rcases first_operation hx.symm s.process with ⟨e, he, hkey, hnext, hexec⟩ | ⟨⟨resp, hnext, hnone⟩, hexec⟩
        · rw [hnext, hexec]
          exact ⟨Or.inr (Or.inr (Or.inl ⟨req, e, he, hf.loggable he, rfl⟩)),
            .store e (hlogs.trans hview.1) (hchanges.trans hkey) rfl rfl hview ⟨rfl, rfl⟩⟩
        · rw [hnext, hexec]
          exact ⟨Or.inr (Or.inr (Or.inr ⟨req, resp, rfl⟩)),
            .quiet (hlogs.trans hview.1) rfl rfl hview ⟨rfl, hnone⟩⟩
      · injection hx with hreq hx
        subst hreq
        cases hx
        refine ⟨Or.inr (Or.inr (Or.inr ⟨req, _, rfl⟩)), .append e hlogs hl rfl rfl ⟨rfl, rfl⟩ ⟨rfl, ?_⟩⟩
        simp only [Worker.inFlight, if_true, he]
      · cases hx
    · cases h
  | reply t =>
    simp only [Pool.step] at h
    split at h
    · rename_i req resp hw
      cases h
      refine ⟨t, _, _, hw, rfl, Or.inl rfl, ?_⟩
      have hacked := ackedEntries_snoc s.sent req resp
      cases hsome : (if resp.status = .ok then req.entry else none) with
      | none =>
        rw [hsome] at hacked
        exact .quiet rfl rfl (by simpa using hacked) ⟨rfl, hsome⟩ ⟨rfl, rfl⟩
      | some e =>
        rw [hsome] at hacked
        exact .acknowledge e rfl rfl hacked ⟨rfl, hsome⟩ ⟨rfl, rfl⟩
    · cases h

/-! ## One key -/

theorem lookup_applyEntry_ne {e : Entry} {k : Key} (h : e.key ≠ k) (s : KVStore) :
    (applyEntry s e).data.lookup k = s.data.lookup k := by
  cases hu : e.update with
  | none => rw [applyEntry_none hu]
  | some u => rw [applyEntry_some hu, lookup_write_ne _ (by rw [update_key hu]; exact h)]

/-- The effect of entries on a key depends on the store only through that key. -/
theorem lookup_applyAll_congr {s t : KVStore} {k : Key} (h : s.data.lookup k = t.data.lookup k) (es : List Entry) :
    (applyAll s es).data.lookup k = (applyAll t es).data.lookup k := by
  rw [lookup_applyAll, lookup_applyAll, h]

theorem applyAll_snoc (s : KVStore) (es : List Entry) (e : Entry) :
    applyAll s (es ++ [e]) = applyEntry (applyAll s es) e := by
  rw [applyAll_append, applyAll_cons, applyAll_nil]

/-- An entry of another key in the middle makes no difference. -/
theorem lookup_applyAll_skip {e : Entry} {k : Key} (h : e.key ≠ k) (s : KVStore) (es fs : List Entry) :
    (applyAll s (es ++ [e] ++ fs)).data.lookup k = (applyAll s (es ++ fs)).data.lookup k := by
  rw [applyAll_append, applyAll_snoc, applyAll_append]
  exact lookup_applyAll_congr (lookup_applyEntry_ne h _) fs

/-- Seen through `v`, the workers hold at most one entry for the key `k`, and the store holds what
the entries `es` and that one make of `base`. -/
structure Pool.Follows (v : Worker → Option Entry) (base : KVStore) (es : List Entry) (k : Key)
    (s : Pool) : Prop where
  single : (s.on v k).length ≤ 1
  agrees : s.process.store.data.lookup k = (applyAll base (es ++ s.on v k)).data.lookup k

/-- With no entry held for the key, the store holds what the entries make of `base`. -/
theorem Pool.Follows.lookup_of_idle {v : Worker → Option Entry} {base : KVStore} {es : List Entry} {k : Key}
    {s : Pool} (h : s.Follows v base es k) (hidle : s.on v k = []) :
    s.process.store.data.lookup k = (applyAll base es).data.lookup k := by
  have hagrees := h.agrees
  rw [hidle, List.append_nil] at hagrees
  exact hagrees

section View

variable {s s' : Pool} {t : Nat} {w w' : Worker} (hw : s.workers[t]? = some w) (hs : s'.workers = s.workers.set t w')
variable {v : Worker → Option Entry}
include hw hs

theorem on_same (h : v w' = v w) (k : Key) : s'.on v k = s.on v k := by
  unfold Pool.on
  rw [hs]
  exact itemsOf_set_same hw h k

theorem on_other {e : Entry} {k : Key} (hk : e.key ≠ k) (h : v w = none ∨ v w = some e)
    (h' : v w' = none ∨ v w' = some e) : s'.on v k = s.on v k := by
  have hkey : ∀ {x : Worker}, v x = none ∨ v x = some e → ∀ f, v x = some f → f.key ≠ k := by
    rintro x (hx | hx) f hf
    · rw [hx] at hf
      cases hf
    · rw [hx] at hf
      cases hf
      exact hk
  unfold Pool.on
  rw [hs]
  exact itemsOf_set_other hw (hkey h) (hkey h')

theorem on_put {e : Entry} (h : v w' = some e) (hnone : s.on v e.key = []) : s'.on v e.key = [e] := by
  unfold Pool.on
  rw [hs]
  exact itemsOf_set_put hw h hnone

theorem on_take {e : Entry} (h : v w = some e) (h' : v w' = none) (hone : (s.on v e.key).length ≤ 1) :
    s.on v e.key = [e] ∧ s'.on v e.key = [] := by
  unfold Pool.on
  rw [hs]
  exact itemsOf_set_take hw h h' hone

section Follows

variable {base : KVStore} {es : List Entry} {k : Key} (h : s.Follows v base es k)
include h

theorem Pool.Follows.same (hv : v w' = v w) (hp : s'.process.store = s.process.store) : s'.Follows v base es k := by
  have hon : s'.on v k = s.on v k := on_same hw hs hv k
  constructor
  · rw [hon]
    exact h.single
  · rw [hon, hp]
    exact h.agrees

/-- The store takes `e`, and the worker holds it from then on. -/
theorem Pool.Follows.put {e : Entry} (hbefore : v w = none) (hafter : v w' = some e)
    (hfree : e.key = k → s.on v k = []) (hp : s'.process.store = applyEntry s.process.store e) :
    s'.Follows v base es k := by
  obtain ⟨hsingle, hagrees⟩ := h
  by_cases hk : e.key = k
  · subst hk
    have hnone := hfree rfl
    have hon : s'.on v e.key = [e] := on_put hw hs hafter hnone
    rw [hnone, List.append_nil] at hagrees
    refine ⟨by rw [hon]; rfl, ?_⟩
    rw [hon, hp, applyAll_snoc]
    exact lookup_applyAll_congr hagrees [e]
  · -- neither side of the equation sees an entry of another key
    have hon : s'.on v k = s.on v k := on_other hw hs hk (Or.inl hbefore) (Or.inr hafter)
    refine ⟨by rw [hon]; exact hsingle, ?_⟩
    rw [hon, hp, ← hagrees]
    exact lookup_applyEntry_ne hk _

/-- The worker lets go of `e`, which becomes the last of the entries. -/
theorem Pool.Follows.take {e : Entry} (hbefore : v w = some e) (hafter : v w' = none)
    (hp : s'.process.store = s.process.store) : s'.Follows v base (es ++ [e]) k := by
  obtain ⟨hsingle, hagrees⟩ := h
  by_cases hk : e.key = k
  · subst hk
    obtain ⟨hone, hon⟩ : s.on v e.key = [e] ∧ s'.on v e.key = [] := on_take hw hs hbefore hafter hsingle
    refine ⟨by rw [hon]; exact Nat.zero_le 1, ?_⟩
    rw [hon, hp, List.append_nil, ← hone]
    exact hagrees
  · have hon : s'.on v k = s.on v k := on_other hw hs hk (Or.inr hbefore) (Or.inl hafter)
    refine ⟨by rw [hon]; exact hsingle, ?_⟩
    rw [hon, hp, lookup_applyAll_skip hk]
    exact hagrees

end Follows

end View

/-- What an event that appends `s.appending ev` does to the file. -/
theorem Move.wal {s s' : Pool} {ev : PoolEvent} {w w' : Worker} (h : Move s s' ev w w') :
    s'.process.disk.wal = s.process.disk.wal ++ log (s.appending ev).toList ∧
      ∀ e ∈ (s.appending ev).toList, Loggable e := by
  cases h with
  | quiet hlogs hp => simp [hlogs, hp]
  | store e hlogs _ hp => simp [hlogs, hp]
  | append e hlogs hl hp => simp [hlogs, hp, hl]
  | acknowledge e hlogs hp => simp [hlogs, hp]

theorem Move.snapshot {s s' : Pool} {ev : PoolEvent} {w w' : Worker} (h : Move s s' ev w w') :
    s'.process.disk.snapshot = s.process.disk.snapshot := by
  cases h with
  | quiet _ hp => rw [hp]
  | store e _ _ hp => rw [hp]
  | append e _ _ hp => rw [hp]
  | acknowledge e _ hp => rw [hp]

/-- One event keeps a key in step with its log, if it changes the key only when no append for it
is outstanding. -/
theorem Pool.Follows.move {base : KVStore} {es : List Entry} {k : Key} {s s' : Pool} {ev : PoolEvent} {t : Nat}
    {w w' : Worker} (h : s.Follows Worker.pending base es k) (hd : s.mutating ev = some k → s.pendingOn k = [])
    (hw : s.workers[t]? = some w) (hs : s'.workers = s.workers.set t w') (hm : Move s s' ev w w') :
    s'.Follows Worker.pending base (es ++ (s.appending ev).toList) k := by
  cases hm with
  | quiet hlogs hp _ hbefore hafter =>
    rw [hlogs, Option.toList_none, List.append_nil]
    exact h.same hw hs (hafter.1.trans hbefore.1.symm) (by rw [hp])
  | acknowledge e hlogs hp _ hbefore hafter =>
    -- the append was made before, so the reply is nothing to the log
    rw [hlogs, Option.toList_none, List.append_nil]
    exact h.same hw hs (hafter.1.trans hbefore.1.symm) (by rw [hp])
  | store e hlogs hchanges hp _ hbefore hafter =>
    rw [hlogs, Option.toList_none, List.append_nil]
    exact h.put hw hs hbefore.1 hafter.1 (fun hk => hd (hk ▸ hchanges)) (by rw [hp])
  | append e hlogs _ hp _ hbefore hafter =>
    rw [hlogs, Option.toList_some]
    exact h.take hw hs hbefore.1 hafter.1 (by rw [hp])

/-! ## The log against the store -/

/-- The discipline under which log order and store order agree: a key is changed only when no
append for it is outstanding. -/
def OneAtATime (s : Pool) (ev : PoolEvent) : Prop := ∀ k ∈ s.mutating ev, s.pendingOn k = []

instance (s : Pool) (ev : PoolEvent) : Decidable (OneAtATime s ev) :=
  inferInstanceAs (Decidable (∀ k ∈ s.mutating ev, s.pendingOn k = []))

/-- The log is `es`, and the key `k` is in step with it: at most one append for it is outstanding, and
the store holds what the log and that append make of `base`. -/
structure LoggedOn (base : KVStore) (k : Key) (s : Pool) (es : List Entry) : Prop where
  reached : ∀ w ∈ s.workers, w.Reached
  loggable : ∀ e ∈ es, Loggable e
  wal : s.process.disk.wal = log es
  follows : s.Follows Worker.pending base es k

theorem LoggedOn.step {base : KVStore} {k : Key} {s s' : Pool} {es : List Entry} {ev : PoolEvent}
    (h : LoggedOn base k s es) (hd : s.mutating ev = some k → s.pendingOn k = []) (hs : s.step ev = some s') :
    LoggedOn base k s' (es ++ (s.appending ev).toList) := by
  obtain ⟨t, w, w', hw, hset, hR, hm⟩ := Pool.step_move h.reached hs
  obtain ⟨hwal, hl⟩ := hm.wal
  refine ⟨?_, List.forall_mem_append.2 ⟨h.loggable, hl⟩, ?_, h.follows.move hd hw hset hm⟩
  · rw [hset]
    exact all_set h.reached hR
  · rw [hwal, h.wal, log_append]

theorem Pool.start_pendingOn (p : Process) (n : Nat) (k : Key) : (Pool.start p n).on Worker.pending k = [] := by
  simp [Pool.on, Pool.start, itemsOf, Worker.pending]

/-- A recovered server starts in step with its log, since replaying a log twice is harmless. -/
theorem LoggedOn.start {d : Disk} {s₀ : KVStore} (hrec : d.recover = some s₀) (hlog : CompleteLog d.wal) (n : Nat) :
    ∃ es, ∀ k, LoggedOn s₀ k (Pool.start ⟨s₀, d⟩ n) es := by
  obtain ⟨es, hes, hwal⟩ := hlog
  refine ⟨es, fun k => ⟨fun w hw => Or.inl (List.eq_of_mem_replicate hw), hes, hwal, ?_⟩⟩
  have hnone := Pool.start_pendingOn ⟨s₀, d⟩ n k
  refine ⟨by rw [hnone]; simp, ?_⟩
  rw [Disk.recover_of_entries (by rw [hwal]; exact entriesOf_log hes), Option.some.injEq] at hrec
  have habsorb := applyAll_absorb d.loaded es []
  rw [List.append_nil, hrec] at habsorb
  rw [hnone, List.append_nil, habsorb]
  rfl

/-- Log order agrees with store order: in every run in which a key is changed only while no append
for it is outstanding, whenever no append at all is outstanding, replaying the log on top of the
store the server started with gives the store. -/
theorem replay_eq_store {d : Disk} {s₀ : KVStore} (hrec : d.recover = some s₀) (hlog : CompleteLog d.wal)
    {n : Nat} {evs : List PoolEvent} {s : Pool} (h : Runs Pool.step OneAtATime (Pool.start ⟨s₀, d⟩ n) evs s)
    (hidle : ∀ w ∈ s.workers, w.pending = none) :
    (replay s.process.disk.wal s₀).map Prod.fst = some s.process.store := by
  have hinv : ∃ es, ∀ k, LoggedOn s₀ k s es := by
    refine h.invariant (I := fun s => ∃ es, ∀ k, LoggedOn s₀ k s es) ?_ (LoggedOn.start hrec hlog n)
    rintro s ev s' ⟨es, hes⟩ hd hs
    exact ⟨_, fun k => (hes k).step (hd k) hs⟩
  obtain ⟨es, hes⟩ := hinv
  rw [replay_eq, (hes []).wal, entriesOf_log (hes []).loggable]
  simp only [Option.map_some, Option.some.injEq]
  apply KVStore.ext
  intro k
  have hnone : s.on Worker.pending k = [] := by
    unfold Pool.on itemsOf
    rw [List.filterMap_eq_nil_iff]
    intro w hw
    rw [hidle w hw]
    rfl
  exact ((hes k).follows.lookup_of_idle hnone).symm

/-- Two PUTs of `"k"` by two workers, the second one stored after the first was logged. -/
def orderedRun : List PoolEvent :=
  [.arrive 0 ⟨.put, [107], [97]⟩, .arrive 1 ⟨.put, [107], [98]⟩, .step 0, .step 0, .step 1, .reply 0, .step 1]

theorem replay_eq_store_orderedRun :
    ∃ s, Runs Pool.step OneAtATime (Pool.start ⟨KVStore.empty, Disk.empty⟩ 2) orderedRun s ∧
      (replay s.process.disk.wal KVStore.empty).map Prod.fst = some s.process.store := by
  obtain ⟨s, hrun, hidle⟩ : ∃ s, Runs Pool.step OneAtATime (Pool.start ⟨KVStore.empty, Disk.empty⟩ 2) orderedRun s ∧
      ∀ w ∈ s.workers, w.pending = none := exists_runs (by decide +kernel)
  exact ⟨s, hrun, replay_eq_store rfl ⟨[], by simp, rfl⟩ hrun hidle⟩

/-- The same PUTs, stored in one order and logged in the other. -/
def swappedRun : List PoolEvent :=
  [.arrive 0 ⟨.put, [107], [97]⟩, .arrive 1 ⟨.put, [107], [98]⟩, .step 0, .step 1, .step 1, .step 0]

/-- The store holds `"b"`, and the log replays to `"a"`. -/
theorem appends_swapped :
    ∃ s, Runs Pool.step (fun _ _ => True) (Pool.start ⟨KVStore.empty, Disk.empty⟩ 2) swappedRun s ∧
      (∀ w ∈ s.workers, w.pending = none) ∧
      (replay s.process.disk.wal KVStore.empty).map Prod.fst ≠ some s.process.store :=
  exists_runs (by decide +kernel)

end KvStore
