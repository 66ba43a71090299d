/-
Graceful shutdown (`main` of `src/server/server_main.cpp`) with the worker pool still running:
`start` returns once `stop` has been called, and the main thread takes the snapshot, saves it and
truncates the log while the workers go on. A mutation stored after the snapshot was taken and
appended before the log is truncated is in neither file (`shutdown_loses_put`); in the runs without
one, a recovery gives every key the effect of its last acknowledged mutation
(`recover_shutdown`).
-/
import KvStore.Server.Pool

namespace KvStore

open Bytes Updates Program Wal Machine Slots

/-! ## The machine -/

/-- Where the main thread is. It keeps the snapshot it took until the log is truncated. -/
inductive Main
  | serving
  | taken (m : Map Key Value)
  | saved (m : Map Key Value)
  | done
  deriving DecidableEq

structure Server where
  pool : Pool
  main : Main

inductive ServerEvent
  | worker (ev : PoolEvent)
  /-- `store.snapshot()` -/
  | takeSnapshot
  /-- `snapshot_mgr.save(...)`, visiting the map in this order -/
  | save (order : List (Key × Value))
  /-- `wal.truncate()` -/
  | truncate

/-- Replace the files under a running pool. -/
def Pool.withDisk (s : Pool) (d : Disk) : Pool := { s with process := { s.process with disk := d } }

def Server.step (s : Server) : ServerEvent → Option Server
  | .worker ev => (s.pool.step ev).map fun p => { s with pool := p }
  | .takeSnapshot =>
    match s.main with
    | .serving => some { s with main := .taken s.pool.process.store.snapshot }
    | _ => none
  | .save order =>
    match s.main with
    | .taken m =>
      if KVStore.Enumerates order m then
        some ⟨s.pool.withDisk { s.pool.process.disk with snapshot := some (Snapshot.save order) }, .saved m⟩
      else none
    | _ => none
  | .truncate =>
    match s.main with
    | .saved _ => some ⟨s.pool.withDisk { s.pool.process.disk with wal := [] }, .done⟩
    | _ => none

/-- A server that has recovered its store from the files. -/
def Server.start (store : KVStore) (d : Disk) (n : Nat) : Server := ⟨Pool.start ⟨store, d⟩ n, .serving⟩

/-- The snapshot that has been taken while the log it replaces is not yet truncated. -/
def Main.window : Main → Option (Map Key Value)
  | .taken m => some m
  | .saved m => some m
  | _ => none

/-! ## The discipline -/

/-- The mutations of `k` do not overlap: one is stored only when no other is in flight. -/
def Alone (k : Key) (s : Server) : ServerEvent → Prop
  | .worker ev => s.pool.mutating ev = some k → s.pool.inFlightOn k = []
  | _ => True

/-- Between snapshot and truncation only such mutations of `k` are appended as the snapshot
already shows; and the snapshot has fewer pairs than its 32-bit header can count. -/
def InSnapshot (k : Key) (s : Server) : ServerEvent → Prop
  | .worker ev => ∀ m ∈ s.main.window, ∀ e ∈ s.pool.appending ev, e.key = k →
      (applyEntry ⟨m⟩ e).data.lookup k = m.lookup k
  | .save order => order.length < 2 ^ 32
  | _ => True

instance (k : Key) (s : Server) (ev : ServerEvent) : Decidable (Alone k s ev) := by
  cases ev <;> unfold Alone <;> infer_instance

instance (k : Key) (s : Server) (ev : ServerEvent) : Decidable (InSnapshot k s ev) := by
  cases ev <;> unfold InSnapshot <;> infer_instance

/-- A recovery from the files gives `k` the effect of its last acknowledged mutation, or leaves it
as it was in the first store if there is none. -/
def KeepsAcked (s₀ : KVStore) (k : Key) (s : Server) : Prop :=
  s.pool.process.disk.recover.map (fun store => store.data.lookup k) =
    some ((lastOf k (updates (ackedEntries s.pool.sent))).getD (s₀.data.lookup k))

instance (s₀ : KVStore) (k : Key) (s : Server) : Decidable (KeepsAcked s₀ k s) :=
  inferInstanceAs (Decidable (_ = _))

/-! ## The invariant -/

/-- The workers' side: at most one mutation of `k` is in flight, and the store holds what it and
the acknowledged ones make of the first store. -/
structure Tracked (s₀ : KVStore) (k : Key) (s : Pool) : Prop where
  reached : ∀ w ∈ s.workers, w.Reached
  storable : s.process.store.Storable
  follows : s.Follows Worker.inFlight s₀ (ackedEntries s.sent) k

/-- The files' side: from the snapshot on the store differs from it at `k` by the outstanding
append at most, and after the truncation by the log and that append. -/
def OnFile (k : Key) (s : Server) : Prop :=
  match s.main with
  | .serving => True
  | .taken m => KVStore.Storable ⟨m⟩ ∧ s.pool.Follows Worker.pending ⟨m⟩ [] k
  | .saved m => s.pool.process.disk.loaded = ⟨m⟩ ∧ s.pool.Follows Worker.pending ⟨m⟩ [] k
  | .done => ∃ es, (∀ e ∈ es, Loggable e) ∧ s.pool.process.disk.wal = log es ∧
      s.pool.Follows Worker.pending s.pool.process.disk.loaded es k

theorem pendingOn_sublist (s : Pool) (k : Key) :
    (s.on Worker.pending k).Sublist (s.on Worker.inFlight k) := by
  apply itemsOf_sublist
  intro w e h
  unfold Worker.pending at h
  split at h
  · cases h
    rfl
  · cases h

theorem pendingOn_nil {s : Pool} {k : Key} (h : s.inFlightOn k = []) : s.pendingOn k = [] := by
  exact List.sublist_nil.1 (h ▸ pendingOn_sublist s k)

theorem Tracked.move {s₀ : KVStore} {k : Key} {s s' : Pool} {ev : PoolEvent} {t : Nat} {w w' : Worker}
    (h : Tracked s₀ k s) (hd : s.mutating ev = some k → s.inFlightOn k = [])
    (hw : s.workers[t]? = some w) (hs : s'.workers = s.workers.set t w') (hR : w'.Reached)
    (hm : Move s s' ev w w') : Tracked s₀ k s' := by
  have hreached : ∀ w ∈ s'.workers, w.Reached := by
    rw [hs]
    exact all_set h.reached hR
  obtain ⟨hstorable, hfollows⟩ :
      s'.process.store.Storable ∧ s'.Follows Worker.inFlight s₀ (ackedEntries s'.sent) k := by
    cases hm with
    | quiet _ hp hacked hbefore hafter =>
      rw [hp, hacked]
      exact ⟨h.storable, h.follows.same hw hs (hafter.2.trans hbefore.2.symm) (by rw [hp])⟩
    | append e _ _ hp hacked hbefore hafter =>
      -- the mutation stays in flight until its reply
      rw [hp, hacked]
      exact ⟨h.storable, h.follows.same hw hs (hafter.2.trans hbefore.2.symm) (by rw [hp])⟩
    | store e _ hchanges hp hacked hbefore hafter =>
      rw [hp, hacked]
      exact ⟨applyAll_storable [e] h.storable,
        h.follows.put hw hs hbefore.2 hafter.2 (fun hk => hd (hk ▸ hchanges)) (by rw [hp])⟩
    | acknowledge e _ hp hacked hbefore hafter =>
      rw [hp, hacked]
      exact ⟨h.storable, h.follows.take hw hs hbefore.2 hafter.2 (by rw [hp])⟩
  exact ⟨hreached, hstorable, hfollows⟩

/-- The snapshot is taken in step: the mutation whose append is outstanding, if any, is in it. -/
theorem Tracked.follows_snapshot {s₀ : KVStore} {k : Key} {s : Pool} (h : Tracked s₀ k s) :
    s.Follows Worker.pending ⟨s.process.store.snapshot⟩ [] k := by
  have hsub := pendingOn_sublist s k
  refine ⟨le_trans hsub.length_le h.follows.single, ?_⟩
  rw [List.nil_append]
  by_cases hnone : s.on Worker.pending k = []
  · rw [hnone]
    rfl
  · have hlen : 0 < (s.on Worker.pending k).length := List.length_pos_iff.2 hnone
    have heq : s.on Worker.pending k = s.on Worker.inFlight k := hsub.eq_of_length_le (le_trans h.follows.single hlen)
    -- the store already shows the entry, so applying it again changes nothing
    have hagrees := h.follows.agrees
    rw [← heq, applyAll_append, lookup_applyAll] at hagrees
    rw [lookup_applyAll]
    cases hl : lastOf k (updates (s.on Worker.pending k)) with
    | none => rfl
    | some o => rw [hagrees, hl]; rfl

/-- An entry that the base already shows can be left out of the log. -/
theorem Pool.Follows.drop {base : KVStore} {es : List Entry} {k : Key} {s : Pool}
    (h : s.Follows Worker.pending base es k) (hes : (applyAll base es).data.lookup k = base.data.lookup k) :
    s.Follows Worker.pending base [] k := by
  refine ⟨h.single, ?_⟩
  rw [h.agrees, applyAll_append, List.nil_append]
  exact lookup_applyAll_congr hes _

/-- The files may change under the pool. -/
theorem Pool.Follows.withDisk {base : KVStore} {es : List Entry} {k : Key} {s : Pool}
    (h : s.Follows Worker.pending base es k) (d : Disk) :
    (s.withDisk d).Follows Worker.pending base es k := ⟨h.single, h.agrees⟩

theorem Tracked.withDisk {s₀ : KVStore} {k : Key} {s : Pool} (h : Tracked s₀ k s) (d : Disk) :
    Tracked s₀ k (s.withDisk d) := ⟨h.reached, h.storable, ⟨h.follows.single, h.follows.agrees⟩⟩

/-- A worker's event keeps the files' side. -/
theorem OnFile.worker {s₀ : KVStore} {k : Key} {s : Server} {p : Pool} {ev : PoolEvent} (ht : Tracked s₀ k s.pool)
    (h : OnFile k s) (ha : Alone k s (.worker ev)) (hi : InSnapshot k s (.worker ev))
    (hs : s.pool.step ev = some p) : OnFile k { s with pool := p } := by
  obtain ⟨t, w, w', hw, hset, -, hm⟩ := Pool.step_move ht.reached hs
  obtain ⟨hwal, hl⟩ := hm.wal
  have hsnap := hm.snapshot
  have hmove : ∀ {base : KVStore} {es : List Entry}, s.pool.Follows Worker.pending base es k →
      p.Follows Worker.pending base (es ++ (s.pool.appending ev).toList) k := by
    intro base es hstep
    exact hstep.move (fun hch => pendingOn_nil (ha hch)) hw hset hm
  -- until the truncation an appended entry is one that the snapshot shows
  have hdrop : ∀ {m : Map Key Value}, s.main.window = some m → s.pool.Follows Worker.pending ⟨m⟩ [] k →
      p.Follows Worker.pending ⟨m⟩ [] k := by
    intro m hwin hstep
    refine (hmove hstep).drop ?_
    rw [List.nil_append]
    cases hlogs : s.pool.appending ev with
    | none => rfl
    | some e =>
      by_cases hk : e.key = k
      · exact hi m hwin e hlogs hk
      · exact lookup_applyEntry_ne hk _
  unfold OnFile at h ⊢
  cases hmain : s.main with
  | serving => trivial
  | taken m =>
    rw [hmain] at h
    exact ⟨h.1, hdrop (by rw [hmain]; rfl) h.2⟩
  | saved m =>
    rw [hmain] at h
    refine ⟨?_, hdrop (by rw [hmain]; rfl) h.2⟩
    unfold Disk.loaded at h ⊢
    rw [hsnap]
    exact h.1
  | done =>
    rw [hmain] at h
    obtain ⟨es, hes, hw, hstep⟩ := h
    have hloaded : p.process.disk.loaded = s.pool.process.disk.loaded := by
      unfold Disk.loaded
      rw [hsnap]
    rw [hloaded]
    exact ⟨_, List.forall_mem_append.2 ⟨hes, hl⟩, by rw [hwal, hw, log_append], hmove hstep⟩

/-- The invariant of the whole server is kept by every event of the discipline. -/
theorem OnFile.step {s₀ : KVStore} {k : Key} {s s' : Server} {ev : ServerEvent} (ht : Tracked s₀ k s.pool)
    (h : OnFile k s) (ha : Alone k s ev) (hi : InSnapshot k s ev) (hs : s.step ev = some s') :
    Tracked s₀ k s'.pool ∧ OnFile k s' := by
  cases ev with
  | worker ev =>
    obtain ⟨p, hp, rfl⟩ := Option.map_eq_some_iff.1 hs
    obtain ⟨t, w, w', hw, hset, hR, hm⟩ := Pool.step_move ht.reached hp
    exact ⟨ht.move ha hw hset hR hm, h.worker ht ha hi hp⟩
  | takeSnapshot =>
    simp only [Server.step] at hs
    split at hs
    · cases hs
      exact ⟨ht, ht.storable, ht.follows_snapshot⟩
    · cases hs
  | save order =>
    simp only [Server.step] at hs
    split at hs
    · rename_i m hmain
      split at hs
      · rename_i henum
        cases hs
        unfold OnFile at h
        rw [hmain] at h
        obtain ⟨hstorable, hstep⟩ := h
        have hload : Snapshot.load (Snapshot.save order) = m :=
          Snapshot.load_save henum (fun p hp => hstorable p.1 p.2 ((henum.mem p.1 p.2).1 hp)) hi
        refine ⟨ht.withDisk _, ?_, hstep.withDisk _⟩
        show KVStore.mk (Snapshot.load (Snapshot.save order)) = ⟨m⟩
        rw [hload]
      · cases hs
    · cases hs
  | truncate =>
    simp only [Server.step] at hs
    split at hs
    · rename_i m hmain
      cases hs
      unfold OnFile at h
      rw [hmain] at h
      obtain ⟨hloaded, hstep⟩ := h
      refine ⟨ht.withDisk _, [], by simp, rfl, ?_⟩
      show Pool.Follows Worker.pending s.pool.process.disk.loaded [] k _
      rw [hloaded]
      exact hstep.withDisk _
    · cases hs

theorem Tracked.start {d : Disk} {s₀ : KVStore} (hrec : d.recover = some s₀) (k : Key) (n : Nat) :
    Tracked s₀ k (Server.start s₀ d n).pool := by
  have hnone : (Server.start s₀ d n).pool.on Worker.inFlight k = [] := by
    simp [Pool.on, Server.start, Pool.start, itemsOf, Worker.inFlight]
  refine ⟨fun w hw => Or.inl (List.eq_of_mem_replicate hw), Disk.recover_storable hrec, ⟨by rw [hnone]; simp, ?_⟩⟩
  rw [hnone]
  rfl

/-- Graceful shutdown loses no acknowledged write: in every run in which the mutations of `k` do
not overlap and none that the snapshot lacks is appended before the log is truncated, once the
sequence has completed and no mutation of `k` is in flight, a recovery gives `k` the effect of its
last acknowledged mutation. -/
theorem recover_shutdown {d : Disk} {s₀ : KVStore} (hrec : d.recover = some s₀) {n : Nat} {k : Key}
    {evs : List ServerEvent} {s : Server}
    (h : Runs Server.step (fun s ev => Alone k s ev ∧ InSnapshot k s ev) (Server.start s₀ d n) evs s)
    (hdone : s.main = .done) (hfree : s.pool.inFlightOn k = []) : KeepsAcked s₀ k s := by
  obtain ⟨ht, hf⟩ : Tracked s₀ k s.pool ∧ OnFile k s := by
    refine h.invariant (I := fun s => Tracked s₀ k s.pool ∧ OnFile k s) ?_ ⟨Tracked.start hrec k n, trivial⟩
    rintro s ev s' ⟨ht, hf⟩ ⟨ha, hi⟩ hs
    exact hf.step ht ha hi hs
  unfold OnFile at hf
  rw [hdone] at hf
  obtain ⟨es, hes, hwal, hstep⟩ := hf
  -- the files give what the store holds, and the store what was acknowledged
  have hfiles := hstep.lookup_of_idle (pendingOn_nil hfree)
  have hacked := ht.follows.lookup_of_idle hfree
  rw [lookup_applyAll] at hacked
  unfold KeepsAcked
  rw [Disk.recover_of_entries (by rw [hwal]; exact entriesOf_log hes), Option.map_some, ← hfiles, hacked]

/-- A PUT that is stored, caught by the snapshot and logged before the truncation, and a DELETE of
the same key afterwards. -/
def cleanShutdown : List ServerEvent :=
  [.worker (.arrive 0 ⟨.put, [107], [118]⟩), .worker (.step 0), .takeSnapshot, .worker (.step 0),
    .worker (.reply 0), .save [([107], [118])], .truncate, .worker (.arrive 0 ⟨.delete, [107], []⟩),
    .worker (.step 0), .worker (.step 0), .worker (.reply 0)]

theorem recover_shutdown_clean : ∃ s, Runs Server.step (fun s ev => Alone [107] s ev ∧ InSnapshot [107] s ev)
    (Server.start KVStore.empty Disk.empty 1) cleanShutdown s ∧ KeepsAcked KVStore.empty [107] s := by
  obtain ⟨s, hrun, hdone, hfree⟩ : ∃ s, Runs Server.step (fun s ev => Alone [107] s ev ∧ InSnapshot [107] s ev)
      (Server.start KVStore.empty Disk.empty 1) cleanShutdown s ∧ s.main = .done ∧ s.pool.inFlightOn [107] = [] :=
    exists_runs (by decide +kernel)
  exact ⟨s, hrun, recover_shutdown rfl hrun hdone hfree⟩

/-- A PUT handled from start to end while the snapshot is taken and not yet saved. -/
def lossyShutdown : List ServerEvent :=
  [.takeSnapshot, .worker (.arrive 0 ⟨.put, [107], [118]⟩), .worker (.step 0), .worker (.step 0),
    .worker (.reply 0), .save [], .truncate]

/-- The acknowledged PUT, the only mutation of the run, is in neither file. -/
theorem shutdown_loses_put : ∃ s, Runs Server.step (Alone [107]) (Server.start KVStore.empty Disk.empty 1)
    lossyShutdown s ∧ s.main = .done ∧ s.pool.inFlightOn [107] = [] ∧ ¬ KeepsAcked KVStore.empty [107] s :=
  exists_runs (by decide +kernel)

end KvStore
