/-
Durability of the standalone server over any number of crashes. An incarnation recovers from the
data directory, handles requests one at a time and ends in a crash, possibly in the middle of an
append, of whose record then only a prefix reaches the file. `replay` stops at such a torn record
and the log is opened for appending behind it, so what a later incarnation logs is out of
reach: the acknowledged mutations are all recovered in the runs in which nothing is logged
behind a torn record (`recover_run`), and one acknowledged PUT is lost in the shortest run that
breaks this (`torn_record_hides_put`).
-/
import KvStore.Lib.Machine
import KvStore.Server.Handler

namespace KvStore

open Bytes Updates Program Wal Machine

/-! ## Incarnations -/

/-- One life of the server: the requests it answered, and the one it was handling at the crash,
if any, with the number of bytes of its record that had reached the file. -/
structure Incarnation where
  requests : List Request
  inFlight : Option (Request × Nat)
  deriving DecidableEq

/-- Handle requests one after the other; the requests with their responses, and the process. -/
def serveAll : List Request → Process → List (Request × Response) × Process
  | [], p => ([], p)
  | req :: reqs, p =>
    let (resp, p) := serve req p
    let (acks, p) := serveAll reqs p
    ((req, resp) :: acks, p)

theorem serveAll_cons (req : Request) (reqs : List Request) (p : Process) : serveAll (req :: reqs) p =
    ((req, (serve req p).1) :: (serveAll reqs (serve req p).2).1, (serveAll reqs (serve req p).2).2) := rfl

/-- The entry of the first append a handler reaches on a process, if it reaches one. -/
def firstAppend {α : Type} : Handler α → Process → Option Entry
  | .ret _, _ => none
  | .call (.append e) _, _ => some e
  | .call c next, p => firstAppend (next (c.exec p).1) (c.exec p).2

/-- The log after a crash during a request, of whose record the first `n` bytes are written. -/
def crashedWal (p : Process) : Option (Request × Nat) → Str
  | none => p.disk.wal
  | some (req, n) =>
    match firstAppend (standaloneHandler req) p with
    | none => p.disk.wal
    | some e => p.disk.wal ++ (record e).take n

/-- What one incarnation contributes to the history: the mutations it acknowledged, and the
mutation in flight at its crash. -/
abbrev Contribution := List Entry × Option Entry

/-- The data directory and the history after some incarnations. -/
structure Life where
  disk : Disk
  history : List Contribution
  deriving DecidableEq

/-- One more incarnation; `none` when its recovery runs into undefined behaviour. -/
def Life.step (l : Life) (i : Incarnation) : Option Life :=
  l.disk.recover.map fun store =>
    let (acks, p) := serveAll i.requests ⟨store, l.disk⟩
    ⟨{ p.disk with wal := crashedWal p i.inFlight },
      l.history ++ [(ackedEntries acks, i.inFlight.bind (·.1.entry))]⟩

/-- An empty data directory and no history. -/
def Life.fresh : Life := ⟨Disk.empty, []⟩

/-- `es` are the acknowledged mutations in order, each mutation in flight at a crash either left
out or kept at its place. -/
inductive Explains : List Contribution → List Entry → Prop
  | nil : Explains [] []
  | lost {h : List Contribution} {es acked : List Entry} {inFlight : Option Entry} :
      Explains h es → Explains (h ++ [(acked, inFlight)]) (es ++ acked)
  | kept {h : List Contribution} {es acked : List Entry} {e : Entry} :
      Explains h es → Explains (h ++ [(acked, some e)]) (es ++ acked ++ [e])

/-- The store recovered next is the one that the acknowledged mutations explain. -/
def Durable (l : Life) : Prop := ∃ es, Explains l.history es ∧ l.disk.recover = some (applyAll KVStore.empty es)

/-- An incarnation that writes nothing to the log of a process with this store. -/
def Quiet (store : KVStore) (i : Incarnation) : Prop :=
  (∀ req ∈ i.requests, ¬ Mutates store req) ∧ ∀ req n, i.inFlight = some (req, n) → Mutates store req → n = 0

/-- The discipline under which the log stays readable: an incarnation starts on a log of complete
records, or writes nothing to it. -/
def NothingBehindTorn (l : Life) (i : Incarnation) : Prop :=
  CompleteLog l.disk.wal ∨ ∀ store, l.disk.recover = some store → Quiet store i

/-! ## Requests handled alone -/

theorem firstAppend_mutates {req : Request} {p : Process} (h : Mutates p.store req) :
    ∃ e, req.entry = some e ∧ firstAppend (standaloneHandler req) p = some e := by
  unfold Request.entry
  rcases h with ⟨hc, ha⟩ | ⟨hc, v, hv⟩
  · refine ⟨⟨.put, req.key, req.value⟩, by rw [hc], ?_⟩
    rw [standaloneHandler_put hc]
    simp [firstAppend, StoreCall.exec, KVStore.put_ok ha, logAndReply]
  · refine ⟨⟨.delete, req.key, []⟩, by rw [hc], ?_⟩
    rw [standaloneHandler_delete hc]
    simp [firstAppend, StoreCall.exec, KVStore.del_present hv, logAndReply]

theorem firstAppend_not_mutates {req : Request} {p : Process} (h : ¬ Mutates p.store req) :
    firstAppend (standaloneHandler req) p = none := by
  unfold Mutates at h
  push Not at h
  cases hc : req.command with
  | put =>
    obtain ⟨hs, -, -⟩ := KVStore.put_refused (h.1 hc) p.store
    rw [standaloneHandler_put hc]
    simp [firstAppend, StoreCall.exec, logAndReply, hs]
  | delete =>
    have hnone : p.store.data.lookup req.key = none := Option.eq_none_iff_forall_ne_some.2 (h.2 hc)
    rw [standaloneHandler_delete hc]
    simp [firstAppend, StoreCall.exec, KVStore.del_absent hnone, logAndReply]
  | get => unfold standaloneHandler; rw [hc]; rfl
  | ping => unfold standaloneHandler; rw [hc]; rfl
  | other b hb => unfold standaloneHandler; rw [hc]; rfl

/-- The entry of a mutation fits the log, if the store is within the limits. -/
theorem Mutates.loggable {store : KVStore} (hs : store.WithinLimits) {req : Request} (h : Mutates store req)
    {e : Entry} (he : req.entry = some e) : Loggable e := by
  unfold Request.entry at he
  rcases h with ⟨hc, hacc⟩ | ⟨hc, v, hv⟩
  · rw [hc] at he
    cases he
    exact loggable_of_accepts hacc
  · rw [hc] at he
    cases he
    exact loggable_of_accepts ⟨(hs _ _ hv).1, Nat.zero_le _⟩

/-- The answer to a request that does not mutate acknowledges no mutation. -/
theorem ackedEntries_not_mutates {req : Request} {p : Process} (h : ¬ Mutates p.store req)
    (acks : List (Request × Response)) : ackedEntries ((req, (serve req p).1) :: acks) = ackedEntries acks := by
  obtain ⟨-, hresp⟩ := serve_not_mutates h
  have hnone : (if (serve req p).1.status = .ok then req.entry else none) = none := by
    split
    · rename_i hok
      by_contra hne
      exact hresp hne hok
    · rfl
  simp only [ackedEntries, List.filterMap_cons, hnone]

/-- Requests handled one after the other log exactly the mutations they acknowledge. -/
theorem serveAll_spec : ∀ (reqs : List Request) {p : Process}, p.store.WithinLimits →
    (∀ e ∈ ackedEntries (serveAll reqs p).1, Loggable e) ∧
    (serveAll reqs p).2 = ⟨applyAll p.store (ackedEntries (serveAll reqs p).1),
      { p.disk with wal := p.disk.wal ++ log (ackedEntries (serveAll reqs p).1) }⟩
  | [], p, _ => by simp [serveAll, ackedEntries]
  | req :: reqs, p, hp => by
    by_cases hm : Mutates p.store req
    · obtain ⟨e, he, hserve⟩ := serve_mutates hm
      have hloggable := hm.loggable hp he
      obtain ⟨ih1, ih2⟩ := serveAll_spec reqs
        (p := ⟨applyEntry p.store e, { p.disk with wal := p.disk.wal ++ record e }⟩) (applyEntry_withinLimits hp e)
      have hacked : ackedEntries (serveAll (req :: reqs) p).1 = e :: ackedEntries (serveAll reqs
          ⟨applyEntry p.store e, { p.disk with wal := p.disk.wal ++ record e }⟩).1 := by
        simp [serveAll, hserve, ackedEntries, he]
      rw [hacked]
      refine ⟨List.forall_mem_cons.2 ⟨hloggable, ih1⟩, ?_⟩
      simp only [serveAll, hserve]
      rw [ih2]
      simp
    · obtain ⟨hst, -⟩ := serve_not_mutates hm
      simp only [serveAll, hst, ackedEntries_not_mutates hm]
      exact serveAll_spec reqs hp

/-- A quiet incarnation acknowledges no mutation and leaves the process as it was. -/
theorem serveAll_quiet : ∀ (reqs : List Request) {p : Process}, (∀ req ∈ reqs, ¬ Mutates p.store req) →
    ackedEntries (serveAll reqs p).1 = [] ∧ (serveAll reqs p).2 = p
  | [], _, _ => ⟨rfl, rfl⟩
  | req :: reqs, p, h => by
    have hm := h req List.mem_cons_self
    obtain ⟨hst, -⟩ := serve_not_mutates hm
    simp only [serveAll, hst, ackedEntries_not_mutates hm]
    exact serveAll_quiet reqs fun r hr => h r (List.mem_cons_of_mem _ hr)

/-! ## The run -/

/-- A log of complete records with at most one torn record behind them. -/
inductive TornLog (es : List Entry) : Str → Prop
  | complete : TornLog es (log es)
  | torn {e : Entry} {n : Nat} : Loggable e → n < (record e).length → TornLog es (log es ++ (record e).take n)

/-- The invariant of a disciplined run: the complete records of the log explain the history. -/
structure Readable (l : Life) (es : List Entry) : Prop where
  loggable : ∀ e ∈ es, Loggable e
  explains : Explains l.history es
  noSnapshot : l.disk.snapshot = none
  wal : TornLog es l.disk.wal

theorem TornLog.entries {es : List Entry} {wal : Str} (h : TornLog es wal) (hes : ∀ e ∈ es, Loggable e) :
    entriesOf wal = some es := by
  cases h with
  | complete => exact entriesOf_log hes
  | torn he hn => exact entriesOf_torn hes he hn

theorem Readable.recover {l : Life} {es : List Entry} (h : Readable l es) :
    l.disk.recover = some (applyAll KVStore.empty es) := by
  rw [Disk.recover_of_entries (h.wal.entries h.loggable)]
  unfold Disk.loaded
  rw [h.noSnapshot]

/-- A log that is complete has the entries it is read back with. -/
theorem TornLog.of_complete {es : List Entry} {wal : Str} (h : TornLog es wal) (hes : ∀ e ∈ es, Loggable e)
    (hc : CompleteLog wal) : wal = log es := by
  obtain ⟨fs, hfs, rfl⟩ := hc
  have := h.entries hes
  rw [entriesOf_log hfs] at this
  cases this
  rfl

/-- What a crash leaves of a complete log: the mutation in flight is lost, or kept. -/
theorem crashedWal_spec {p : Process} {es : List Entry} (hwal : p.disk.wal = log es)
    (hs : p.store.WithinLimits) (inFlight : Option (Request × Nat)) :
    TornLog es (crashedWal p inFlight) ∨
      ∃ e, inFlight.bind (·.1.entry) = some e ∧ Loggable e ∧ crashedWal p inFlight = log (es ++ [e]) := by
  cases inFlight with
  | none =>
    left
    show TornLog es p.disk.wal
    rw [hwal]
    exact .complete
  | some rn =>
    obtain ⟨req, n⟩ := rn
    unfold crashedWal
    by_cases hm : Mutates p.store req
    · obtain ⟨e, he, hfirst⟩ := firstAppend_mutates hm
      have hl := hm.loggable hs he
      simp only [hfirst, hwal]
      by_cases hn : n < (record e).length
      · exact Or.inl (.torn hl hn)
      · right
        refine ⟨e, he, hl, ?_⟩
        rw [List.take_of_length_le (by omega), log_snoc]
    · left
      simp only [firstAppend_not_mutates hm, hwal]
      exact .complete

/-- A crash of a process that has nothing to append leaves the log as it is. -/
theorem crashedWal_quiet {p : Process} {inFlight : Option (Request × Nat)}
    (h : ∀ req n, inFlight = some (req, n) → Mutates p.store req → n = 0) : crashedWal p inFlight = p.disk.wal := by
  cases inFlight with
  | none => rfl
  | some rn =>
    obtain ⟨req, n⟩ := rn
    unfold crashedWal
    by_cases hm : Mutates p.store req
    · obtain ⟨e, -, hfirst⟩ := firstAppend_mutates hm
      simp [hfirst, h req n rfl hm]
    · simp [firstAppend_not_mutates hm]

/-- What an incarnation makes of a life that can be read back. -/
theorem Readable.step_eq {l l' : Life} {es : List Entry} {i : Incarnation} {acks : List (Request × Response)}
    {p : Process} (h : Readable l es) (hs : l.step i = some l')
    (hserve : serveAll i.requests ⟨applyAll KVStore.empty es, l.disk⟩ = (acks, p)) :
    l' = ⟨{ p.disk with wal := crashedWal p i.inFlight },
      l.history ++ [(ackedEntries acks, i.inFlight.bind (·.1.entry))]⟩ := by
  unfold Life.step at hs
  rw [h.recover, Option.map_some, Option.some.injEq] at hs
  simp only [hserve] at hs
  exact hs.symm

/-- An incarnation on complete records adds the mutations it acknowledges, and what the crash
leaves of the one in flight. -/
theorem Readable.step_complete {l l' : Life} {es : List Entry} {i : Incarnation} (h : Readable l es)
    (hc : CompleteLog l.disk.wal) (hs : l.step i = some l') : ∃ es', Readable l' es' := by
  have hlim : (applyAll KVStore.empty es).WithinLimits := applyAll_withinLimits es KVStore.empty_withinLimits
  have hwal := h.wal.of_complete h.loggable hc
  obtain ⟨hloggable, hend⟩ := serveAll_spec i.requests (p := ⟨applyAll KVStore.empty es, l.disk⟩) hlim
  cases hserve : serveAll i.requests ⟨applyAll KVStore.empty es, l.disk⟩ with
  | mk acks p =>
    rw [hserve] at hloggable hend
    simp only at hloggable hend
    obtain rfl := h.step_eq hs hserve
    have hall : ∀ e ∈ es ++ ackedEntries acks, Loggable e := List.forall_mem_append.2 ⟨h.loggable, hloggable⟩
    have hpwal : p.disk.wal = log (es ++ ackedEntries acks) := by rw [hend, log_append, hwal]
    have hsnap : p.disk.snapshot = none := by rw [hend, h.noSnapshot]
    have hplim : p.store.WithinLimits := by
      rw [hend]
      exact applyAll_withinLimits _ hlim
    rcases crashedWal_spec hpwal hplim i.inFlight with ht | ⟨e, he, hl, hw⟩
    · exact ⟨_, hall, .lost h.explains, hsnap, ht⟩
    · -- the whole record reached the file, so the mutation in flight is kept
      rw [he, hw]
      exact ⟨es ++ ackedEntries acks ++ [e], List.forall_mem_append.2 ⟨hall, List.forall_mem_singleton.2 hl⟩,
        .kept h.explains, hsnap, .complete⟩

/-- An incarnation that writes nothing leaves a torn record the last one. -/
theorem Readable.step_quiet {l l' : Life} {es : List Entry} {i : Incarnation} (h : Readable l es)
    (hq : Quiet (applyAll KVStore.empty es) i) (hs : l.step i = some l') : Readable l' es := by
  obtain ⟨hreqs, hfl⟩ := hq
  obtain ⟨hnone, hp⟩ := serveAll_quiet i.requests (p := ⟨applyAll KVStore.empty es, l.disk⟩) hreqs
  have hlost : Explains (l.history ++ [([], i.inFlight.bind (·.1.entry))]) (es ++ []) := .lost h.explains
  cases hserve : serveAll i.requests ⟨applyAll KVStore.empty es, l.disk⟩ with
  | mk acks p =>
    rw [hserve] at hnone hp
    obtain rfl := h.step_eq hs hserve
    simp only at hnone hp
    subst hp
    rw [List.append_nil] at hlost
    rw [hnone, crashedWal_quiet hfl]
    exact ⟨h.loggable, hlost, h.noSnapshot, h.wal⟩

/-- One more incarnation keeps the invariant, if it starts on complete records or writes nothing. -/
theorem Readable.step {l l' : Life} {es : List Entry} {i : Incarnation} (h : Readable l es)
    (hd : NothingBehindTorn l i) (hs : l.step i = some l') : ∃ es', Readable l' es' := by
  rcases hd with hc | hq
  · exact h.step_complete hc hs
  · exact ⟨es, h.step_quiet (hq _ h.recover) hs⟩

/-- Durability over any number of crashes and restarts: from an empty directory, if no
incarnation writes behind a torn record, the store recovered next holds every acknowledged
mutation of all incarnations, plus possibly those in flight at the crashes. -/
theorem recover_run {is : List Incarnation} {l : Life} (h : Runs Life.step NothingBehindTorn Life.fresh is l) :
    Durable l := by
  have hinv : ∃ es, Readable l es := by
    refine h.invariant (I := fun l => ∃ es, Readable l es) ?_ ⟨[], by simp, .nil, rfl, .complete⟩
    rintro l i l' ⟨es, hes⟩ hd hs
    exact hes.step hd hs
  obtain ⟨es, hes⟩ := hinv
  exact ⟨es, hes.explains, hes.recover⟩

/-- A PUT of `"k"`, and a crash between two requests. -/
def putOnly : Incarnation := ⟨[⟨.put, [107], [118]⟩], none⟩

/-- A DELETE of `"k"`, and a crash three bytes into the record of a PUT of `"a"`. -/
def deleteThenTorn : Incarnation := ⟨[⟨.delete, [107], []⟩], some (⟨.put, [97], [98]⟩, 3)⟩

/-- After the first of these. -/
def afterPut : Life := ⟨⟨none, log [⟨.put, [107], [118]⟩]⟩, [([⟨.put, [107], [118]⟩], none)]⟩

/-- After both of them. -/
def afterCleanRun : Life :=
  ⟨⟨none, log [⟨.put, [107], [118]⟩, ⟨.delete, [107], []⟩] ++ (record ⟨.put, [97], [98]⟩).take 3⟩,
    [([⟨.put, [107], [118]⟩], none), ([⟨.delete, [107], []⟩], some ⟨.put, [97], [98]⟩)]⟩

/-- Both incarnations start on complete records, so the run is durable. -/
theorem recover_run_cleanRun : Durable afterCleanRun := by
  have hput : Life.fresh.step putOnly = some afterPut := by decide +kernel
  have hdel : afterPut.step deleteThenTorn = some afterCleanRun := by decide +kernel
  have h1 : NothingBehindTorn Life.fresh putOnly := Or.inl ⟨[], by simp, rfl⟩
  have h2 : NothingBehindTorn afterPut deleteThenTorn := by
    left
    refine ⟨[⟨.put, [107], [118]⟩], ?_, by simp only [afterPut]⟩
    simp [Loggable]
  exact recover_run (Runs.cons h1 hput (Runs.cons h2 hdel Runs.refl))

/-- The first byte of a record for `"k"` reaches the file; the next server answers a PUT of
`"a"` with OK. -/
def tornRun : List Incarnation :=
  [⟨[], some (⟨.put, [107], [118]⟩, 1)⟩, ⟨[⟨.put, [97], [98]⟩], none⟩]

/-- Where that run ends. -/
def afterTornRun : Life :=
  ⟨⟨none, (record ⟨.put, [107], [118]⟩).take 1 ++ record ⟨.put, [97], [98]⟩⟩,
    [([], some ⟨.put, [107], [118]⟩), ([⟨.put, [97], [98]⟩], none)]⟩

/-- The acknowledged PUT behind the torn record is not recovered. -/
theorem torn_record_hides_put :
    Runs Life.step (fun _ _ => True) Life.fresh tornRun afterTornRun ∧ ¬ Durable afterTornRun := by
  refine ⟨runs_of_runEvents (by decide +kernel), ?_⟩
  rintro ⟨es, hex, hrec⟩
  have hempty : afterTornRun.disk.recover = some KVStore.empty := by decide +kernel
  rw [hempty, Option.some.injEq] at hrec
  -- the acknowledged PUT ends every explanation, so `"a"` should be there
  obtain ⟨es₀, rfl⟩ : ∃ es₀, es = es₀ ++ [⟨.put, [97], [98]⟩] := by
    generalize hh : afterTornRun.history = h at hex
    cases hex with
    | nil => cases hh
    | @lost h es₀ acked inFlight _ =>
      obtain ⟨-, hlast⟩ := List.append_inj' (show [_] ++ [_] = h ++ [_] from hh) rfl
      cases hlast
      exact ⟨es₀, rfl⟩
    | kept _ =>
      obtain ⟨-, hlast⟩ := List.append_inj' (show [_] ++ [_] = _ ++ [_] from hh) rfl
      cases hlast
  have hlookup := congrArg (fun s : KVStore => s.data.lookup [97]) hrec
  rw [applyAll_append] at hlookup
  simp [applyEntry, KVStore.put, KVStore.empty, maxKeySize, maxValueSize] at hlookup

end KvStore
