/-
The data directory over the lifetimes of a server that is also shut down gracefully: an incarnation
recovers, handles requests one at a time, and ends in a crash or in the checkpoint of a shutdown, which
in turn may be cut short or fail to write. A checkpoint that is complete makes up for a torn record
that its incarnation has found in the log, since it replaces the log; one that is not loses what it has not
left on disk.

The acknowledged mutations are recovered in every run in which an incarnation on a torn log writes nothing to it or
is shut down completely, and a checkpoint that is cut short leaves every pair on disk (`recover_lifetimes`).
-/
import KvStore.Server.Checkpoint
import KvStore.Server.Incarnation

namespace KvStore

open Bytes Updates Program Wal Machine Snapshot

/-! ## The machine -/

/-- How an incarnation ends: in a crash, perhaps during a request, or in the checkpoint of a shutdown, with the
order in which the store is saved, to the end or cut short. -/
inductive Ending
  | crash (inFlight : Option (Request × Nat))
  | checkpoint (order : List (Key × Value)) (i : Interruption)

structure Lifetime where
  requests : List Request
  ending : Ending

/-- The data directory that an ending leaves, and the mutation in flight; a checkpoint saves the store. -/
def Ending.leaves (p : Process) : Ending → Option (Disk × Option Entry)
  | .crash inFlight => some ({ p.disk with wal := crashedWal p inFlight }, inFlight.bind (·.1.entry))
  | .checkpoint order i => if KVStore.Enumerates order p.store.data then some (i.disk p.disk order, none) else none

/-- One more incarnation. -/
def Life.next (l : Life) (t : Lifetime) : Option Life :=
  l.disk.recover.bind fun store =>
    let (acks, p) := serveAll t.requests ⟨store, l.disk⟩
    (t.ending.leaves p).map fun (disk, inFlight) => ⟨disk, l.history ++ [(ackedEntries acks, inFlight)]⟩

/-- The checkpoint is complete: the snapshot is written and the log truncated. -/
def Interruption.Complete (order : List (Key × Value)) : Interruption → Prop
  | .crash steps => (checkpointSteps (save order)).length ≤ steps
  | .writeFailed n => (save order).length ≤ n

/-- The discipline: a torn log is not written to unless the log is replaced, and a checkpoint that is not complete
leaves every pair on disk. -/
def Careful (l : Life) (t : Lifetime) : Prop :=
  ∀ store, l.disk.recover = some store →
    match t.ending with
    | .crash inFlight => CompleteLog l.disk.wal ∨ Quiet store ⟨t.requests, inFlight⟩
    | .checkpoint order i =>
      (i.Complete order ∧ order.length < 2 ^ 32) ∨
        (CompleteLog l.disk.wal ∨ ∀ req ∈ t.requests, ¬ Mutates store req) ∧
          StillOnDisk (serveAll t.requests ⟨store, l.disk⟩).2.disk order i

/-! ## What the files hold -/

/-- The snapshot and the complete records of the log make up the store that `es` leads to. -/
def Recovers (d : Disk) (es : List Entry) : Prop :=
  ∃ fs, (∀ e ∈ fs, Loggable e) ∧ TornLog fs d.wal ∧ applyAll d.loaded fs = applyAll KVStore.empty es

theorem Recovers.recover {d : Disk} {es : List Entry} (h : Recovers d es) :
    d.recover = some (applyAll KVStore.empty es) := by
  obtain ⟨fs, hfs, hwal, heq⟩ := h
  rw [Disk.recover_of_entries (hwal.entries hfs), heq]

/-- A recovery from the same log, or from none, tells what is on disk. -/
theorem Recovers.of_recover {d d' : Disk} {es es' : List Entry} (h : Recovers d es)
    (hwal : d'.wal = d.wal ∨ d'.wal = [])
    (hrec : d'.recover = some (applyAll KVStore.empty es')) : Recovers d' es' := by
  rcases hwal with hwal | hwal
  · obtain ⟨fs, hfs, htorn, -⟩ := h
    rw [← hwal] at htorn
    rw [Disk.recover_of_entries (htorn.entries hfs)] at hrec
    exact ⟨fs, hfs, htorn, Option.some.inj hrec⟩
  · have htorn : TornLog [] d'.wal := by
      rw [hwal]
      exact .complete
    rw [Disk.recover_of_entries (htorn.entries (by simp))] at hrec
    exact ⟨[], by simp, htorn, Option.some.inj hrec⟩

theorem disk_wal (i : Interruption) (d : Disk) (order : List (Key × Value)) :
    (i.disk d order).wal = d.wal ∨ (i.disk d order).wal = [] := by
  cases i with
  | writeFailed n =>
    rw [disk_writeFailed]
    exact .inr rfl
  | crash steps =>
    cases steps with
    | zero => exact .inl rfl
    | succ n =>
      rw [disk_crash]
      by_cases hn : n ≤ (save order).length
      · exact .inl (if_pos hn)
      · exact .inr (if_neg hn)

/-- A complete checkpoint leaves the snapshot and an empty log. -/
theorem disk_complete {i : Interruption} {order : List (Key × Value)} (h : i.Complete order) (d : Disk) :
    i.disk d order = ⟨some (save order), []⟩ := by
  cases i with
  | writeFailed n => rw [disk_writeFailed, List.take_of_length_le h]
  | crash steps =>
    have hlen : (save order).length + 1 < steps := by
      simpa [Interruption.Complete, checkpointSteps] using h
    obtain ⟨n, rfl⟩ : ∃ n, steps = n + 1 := ⟨steps - 1, by omega⟩
    rw [disk_crash, List.take_of_length_le (by omega), if_neg (by omega)]

/-! ## One incarnation -/

section Lifetime

variable {l l' : Life} {es : List Entry} {t : Lifetime}

/-- What the requests of an incarnation leave: the store, and the log with their records behind what it held. -/
theorem serveAll_store (l : Life) (es : List Entry) (reqs : List Request) :
    let r := serveAll reqs ⟨applyAll KVStore.empty es, l.disk⟩
    (∀ e ∈ ackedEntries r.1, Loggable e) ∧ r.2.store = applyAll KVStore.empty (es ++ ackedEntries r.1) ∧
      r.2.disk = { l.disk with wal := l.disk.wal ++ log (ackedEntries r.1) } := by
  intro r
  have hlim : (applyAll KVStore.empty es).WithinLimits := applyAll_withinLimits es KVStore.empty_withinLimits
  obtain ⟨hloggable, hend⟩ := serveAll_spec reqs (p := ⟨applyAll KVStore.empty es, l.disk⟩) hlim
  refine ⟨hloggable, ?_, by rw [hend]⟩
  rw [hend, applyAll_append]

/-- Records behind a complete log are on disk. -/
theorem Recovers.append (h : Recovers l.disk es) (hc : CompleteLog l.disk.wal) {acked : List Entry}
    (hacked : ∀ e ∈ acked, Loggable e) :
    Recovers { l.disk with wal := l.disk.wal ++ log acked } (es ++ acked) ∧
      ∃ fs, (∀ e ∈ fs, Loggable e) ∧ l.disk.wal ++ log acked = log fs ∧
        applyAll l.disk.loaded fs = applyAll KVStore.empty (es ++ acked) := by
  obtain ⟨fs, hfs, htorn, heq⟩ := h
  have hwal := htorn.of_complete hfs hc
  have hall : ∀ e ∈ fs ++ acked, Loggable e := List.forall_mem_append.2 ⟨hfs, hacked⟩
  have hlog : l.disk.wal ++ log acked = log (fs ++ acked) := by rw [log_append, hwal]
  have hstore : applyAll l.disk.loaded (fs ++ acked) = applyAll KVStore.empty (es ++ acked) := by
    rw [applyAll_append, applyAll_append, heq]
  refine ⟨⟨fs ++ acked, hall, ?_, hstore⟩, fs ++ acked, hall, hlog, hstore⟩
  show TornLog _ (l.disk.wal ++ log acked)
  rw [hlog]
  exact .complete

/-- A crash on a complete log: the mutation in flight is lost, or kept. -/
theorem Recovers.crash (h : Recovers l.disk es) (hc : CompleteLog l.disk.wal) (hex : Explains l.history es)
    (reqs : List Request) (inFlight : Option (Request × Nat)) :
    let r := serveAll reqs ⟨applyAll KVStore.empty es, l.disk⟩
    ∃ es', Explains (l.history ++ [(ackedEntries r.1, inFlight.bind (·.1.entry))]) es' ∧
      Recovers { r.2.disk with wal := crashedWal r.2 inFlight } es' := by
  intro r
  obtain ⟨hloggable, hstore, hdisk⟩ := serveAll_store l es reqs
  obtain ⟨-, fs, hfs, hlog, heq⟩ := h.append hc hloggable
  have hwal : r.2.disk.wal = log fs := by rw [hdisk, hlog]
  have hlim : r.2.store.WithinLimits := by
    rw [hstore]
    exact applyAll_withinLimits _ KVStore.empty_withinLimits
  have hloaded : Disk.loaded { r.2.disk with wal := crashedWal r.2 inFlight } = l.disk.loaded := by
    unfold Disk.loaded
    rw [show ({ r.2.disk with wal := crashedWal r.2 inFlight } : Disk).snapshot = l.disk.snapshot by rw [hdisk]]
  rcases crashedWal_spec hwal hlim inFlight with htorn | ⟨e, he, hl, hw⟩
  · exact ⟨_, .lost hex, fs, hfs, htorn, by rw [hloaded, heq]⟩
  · -- the whole record reached the file
    rw [he]
    refine ⟨_, .kept hex, fs ++ [e], List.forall_mem_append.2 ⟨hfs, List.forall_mem_singleton.2 hl⟩, ?_, ?_⟩
    · show TornLog _ (crashedWal r.2 inFlight)
      rw [hw]
      exact .complete
    · rw [hloaded, applyAll_append, heq, ← applyAll_append]

/-- A crash of an incarnation that has written nothing. -/
theorem Recovers.crash_quiet (h : Recovers l.disk es) (hex : Explains l.history es) {reqs : List Request}
    {inFlight : Option (Request × Nat)} (hq : Quiet (applyAll KVStore.empty es) ⟨reqs, inFlight⟩) :
    let r := serveAll reqs ⟨applyAll KVStore.empty es, l.disk⟩
    ∃ es', Explains (l.history ++ [(ackedEntries r.1, inFlight.bind (·.1.entry))]) es' ∧
      Recovers { r.2.disk with wal := crashedWal r.2 inFlight } es' := by
  intro r
  obtain ⟨hnone, hp⟩ := serveAll_quiet reqs (p := ⟨applyAll KVStore.empty es, l.disk⟩) hq.1
  have hlost : Explains (l.history ++ [([], inFlight.bind (·.1.entry))]) (es ++ []) := .lost hex
  rw [List.append_nil] at hlost
  rw [show ackedEntries r.1 = [] from hnone, show r.2 = _ from hp, crashedWal_quiet hq.2]
  exact ⟨es, hlost, h⟩

/-- Before a checkpoint the files still lead to the store, if the log was complete or nothing was written to it. -/
theorem Recovers.served (h : Recovers l.disk es) {reqs : List Request}
    (hc : CompleteLog l.disk.wal ∨ ∀ req ∈ reqs, ¬ Mutates (applyAll KVStore.empty es) req) :
    let r := serveAll reqs ⟨applyAll KVStore.empty es, l.disk⟩
    Recovers r.2.disk (es ++ ackedEntries r.1) := by
  intro r
  obtain ⟨hloggable, -, hdisk⟩ := serveAll_store l es reqs
  rcases hc with hc | hq
  · rw [show r.2.disk = _ from hdisk]
    exact (h.append hc hloggable).1
  · obtain ⟨hnone, hp⟩ := serveAll_quiet reqs (p := ⟨applyAll KVStore.empty es, l.disk⟩) hq
    rw [show ackedEntries r.1 = [] from hnone, show r.2 = _ from hp, List.append_nil]
    exact h

/-- The checkpoint of a shutdown leaves the store on disk. -/
theorem Recovers.checkpoint (h : Recovers l.disk es) {reqs : List Request} {order : List (Key × Value)}
    {i : Interruption}
    (he : KVStore.Enumerates order (serveAll reqs ⟨applyAll KVStore.empty es, l.disk⟩).2.store.data)
    (hi : (i.Complete order ∧ order.length < 2 ^ 32) ∨
      (CompleteLog l.disk.wal ∨ ∀ req ∈ reqs, ¬ Mutates (applyAll KVStore.empty es) req) ∧
        StillOnDisk (serveAll reqs ⟨applyAll KVStore.empty es, l.disk⟩).2.disk order i) :
    let r := serveAll reqs ⟨applyAll KVStore.empty es, l.disk⟩
    Recovers (i.disk r.2.disk order) (es ++ ackedEntries r.1) := by
  intro r
  obtain ⟨-, hstore, -⟩ := serveAll_store l es reqs
  rw [hstore] at he
  rcases hi with ⟨hcomplete, hlen⟩ | ⟨hc, hstill⟩
  · -- the snapshot is the store, whatever the log was
    have hlim : (applyAll KVStore.empty (es ++ ackedEntries r.1)).WithinLimits :=
      applyAll_withinLimits _ KVStore.empty_withinLimits
    have hstorable : ∀ p ∈ order, Snapshot.Storable p := by
      intro p hp
      obtain ⟨hk, hv⟩ := hlim p.1 p.2 ((he.mem p.1 p.2).1 hp)
      exact KVStore.Accepts.storable ⟨hk, hv⟩
    rw [disk_complete hcomplete]
    refine ⟨[], by simp, .complete, ?_⟩
    show KVStore.mk (Snapshot.load (save order)) = _
    rw [load_save he hstorable hlen]
  · have hserved := h.served hc
    exact hserved.of_recover (disk_wal i _ order)
      ((recover_interrupted_iff hserved.recover he i).2 hstill)

/-- One more incarnation. -/
theorem Recovers.next (h : Recovers l.disk es) (hex : Explains l.history es) (hd : Careful l t)
    (hs : l.next t = some l') :
    ∃ es', Explains l'.history es' ∧ Recovers l'.disk es' := by
  unfold Life.next at hs
  rw [h.recover] at hs
  obtain ⟨⟨disk, inFlight⟩, hleaves, rfl⟩ := Option.map_eq_some_iff.1 hs
  have hcare := hd _ h.recover
  cases hending : t.ending with
  | crash fl =>
    rw [hending] at hleaves hcare
    cases hleaves
    rcases hcare with hc | hq
    · exact h.crash hc hex t.requests fl
    · exact h.crash_quiet hex hq
  | checkpoint order i =>
    rw [hending] at hleaves hcare
    obtain ⟨he, hleft⟩ := Option.ite_none_right_eq_some.1 hleaves
    cases hleft
    exact ⟨_, .lost hex, h.checkpoint he hcare⟩

end Lifetime

/-- Durability over crashes and shutdowns: from an empty directory, in every run in which no record is written
behind a torn one unless the checkpoint of a shutdown replaces the log, and no checkpoint that is cut short or fails
to write takes a pair off the disk, the store recovered next holds every acknowledged mutation of all
incarnations, plus possibly those in flight at the crashes. -/
theorem recover_lifetimes {ts : List Lifetime} {l : Life}
    (h : Runs Life.next Careful Life.fresh ts l) : Durable l := by
  have hinv : ∃ es, Explains l.history es ∧ Recovers l.disk es := by
    refine h.invariant (I := fun l => ∃ es, Explains l.history es ∧ Recovers l.disk es) ?_
      ⟨[], .nil, [], by simp, .complete, rfl⟩
    rintro l t l' ⟨es, hex, hes⟩ hd hs
    exact hes.next hex hd hs
  obtain ⟨es, hex, hes⟩ := hinv
  exact ⟨es, hex, hes.recover⟩

/-- A crash three bytes into a record, an incarnation that writes behind them and is shut down, and a crash between
two requests. -/
def tornThenSaved : List Lifetime :=
  [⟨[⟨.put, [107], [118]⟩], .crash (some (⟨.put, [97], [98]⟩, 3))⟩,
    ⟨[⟨.put, [99], [100]⟩], .checkpoint [([107], [118]), ([99], [100])] (.crash 100)⟩,
    ⟨[⟨.delete, [107], []⟩], .crash none⟩]

/-- After the first of these, the first two, and all. -/
def afterTorn : Life :=
  ⟨⟨none, log [⟨.put, [107], [118]⟩] ++ (record ⟨.put, [97], [98]⟩).take 3⟩,
    [([⟨.put, [107], [118]⟩], some ⟨.put, [97], [98]⟩)]⟩

def afterSaved : Life :=
  ⟨⟨some (save [([107], [118]), ([99], [100])]), []⟩, afterTorn.history ++ [([⟨.put, [99], [100]⟩], none)]⟩

def afterDelete : Life :=
  ⟨⟨some (save [([107], [118]), ([99], [100])]), log [⟨.delete, [107], []⟩]⟩,
    afterSaved.history ++ [([⟨.delete, [107], []⟩], none)]⟩

theorem recover_lifetimes_tornThenSaved :
    Runs Life.next Careful Life.fresh tornThenSaved afterDelete ∧ Durable afterDelete := by
  have h1 : Careful Life.fresh ⟨[⟨.put, [107], [118]⟩], .crash (some (⟨.put, [97], [98]⟩, 3))⟩ :=
    fun _ _ => .inl ⟨[], by simp, rfl⟩
  have h2 : Careful afterTorn ⟨[⟨.put, [99], [100]⟩], .checkpoint [([107], [118]), ([99], [100])] (.crash 100)⟩ :=
    fun _ _ => .inl ⟨by unfold Interruption.Complete; decide, by decide⟩
  have h3 : Careful afterSaved ⟨[⟨.delete, [107], []⟩], .crash none⟩ := fun _ _ => .inl ⟨[], by simp, rfl⟩
  have hlast : Runs Life.next Careful afterSaved [⟨[⟨.delete, [107], []⟩], .crash none⟩] afterDelete :=
    Runs.cons h3 (by decide +kernel) Runs.refl
  have hsaved : afterTorn.next ⟨[⟨.put, [99], [100]⟩], .checkpoint [([107], [118]), ([99], [100])] (.crash 100)⟩ =
      some afterSaved := by decide +kernel
  have hrun : Runs Life.next Careful Life.fresh tornThenSaved afterDelete :=
    Runs.cons h1 (by decide +kernel) (Runs.cons h2 hsaved hlast)
  exact ⟨hrun, recover_lifetimes hrun⟩

end KvStore
