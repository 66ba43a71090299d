/-
The standalone request handler (`src/server/server_main.cpp`) as a program over the operations of
the server process: the three store methods, each atomic under the store's lock, and the append
to the log, atomic under its own. Executed alone, a PUT that is within the limits and a DELETE of
a present key change the store and log one record; every other request changes nothing.
-/
import KvStore.Lib.Program
import KvStore.Persistence.Recovery

namespace KvStore

open Bytes Updates Program

/-! ## The operations -/

/-- An operation of a server process. -/
inductive StoreCall
  | put (key : Key) (value : Value)
  | get (key : Key)
  | del (key : Key)
  | append (e : Entry)

/-- What an operation answers. -/
abbrev StoreCall.Res : StoreCall → Type
  | .append _ => Unit
  | _ => Response

/-- A server process: the store in memory and the data directory. -/
structure Process where
  store : KVStore
  disk : Disk
  deriving DecidableEq

/-- One operation on a process. -/
def StoreCall.exec : (c : StoreCall) → Process → c.Res × Process
  | .put k v, p => ((p.store.put k v).1, { p with store := (p.store.put k v).2 })
  | .get k, p => (p.store.get k, p)
  | .del k, p => ((p.store.del k).1, { p with store := (p.store.del k).2 })
  | .append e, p => ((), { p with disk := { p.disk with wal := p.disk.wal ++ Wal.record e } })

/-- A handler running on a server process. -/
abbrev Handler := Prog StoreCall StoreCall.Res

def storePut (key : Key) (value : Value) : Handler Response := .call (StoreCall.put key value) .ret
def storeGet (key : Key) : Handler Response := .call (StoreCall.get key) .ret
def storeDel (key : Key) : Handler Response := .call (StoreCall.del key) .ret
def walAppend (e : Entry) : Handler Unit := .call (StoreCall.append e) .ret

/-- The text `"PONG"`. -/
def pong : Value := [0x50, 0x4F, 0x4E, 0x47]

/-- The standalone handler. -/
def standaloneHandler (req : Request) : Handler Response :=
  match req.command with
  | .put => do
    let resp ← storePut req.key req.value
    if resp.status = .ok then
      walAppend ⟨.put, req.key, req.value⟩
    return resp
  | .get => storeGet req.key
  | .delete => do
    let resp ← storeDel req.key
    if resp.status = .ok then
      walAppend ⟨.delete, req.key, []⟩
    return resp
  | .ping => return ⟨.ok, pong⟩
  | .other _ _ => return ⟨.invalidRequest, []⟩

/-- A request handled alone, from its first operation to its response. -/
def serve (req : Request) (p : Process) : Response × Process := (standaloneHandler req).exec StoreCall.exec p

/-! ## What a request does -/

/-- The entry a PUT or DELETE request logs. -/
def Request.entry (req : Request) : Option Entry :=
  match req.command with
  | .put => some ⟨.put, req.key, req.value⟩
  | .delete => some ⟨.delete, req.key, []⟩
  | _ => none

theorem Request.FitsFrame.loggable {req : Request} (h : req.FitsFrame) {e : Entry} (he : req.entry = some e) :
    Wal.Loggable e := by
  unfold FitsFrame at h
  unfold Request.entry at he
  unfold Wal.Loggable
  split at he
  · cases he
    exact h
  · cases he
    simp only [List.length_nil]
    omega
  · cases he

/-- The PUTs and DELETEs that were answered OK. -/
def ackedEntries (acks : List (Request × Response)) : List Entry :=
  acks.filterMap fun a => if a.2.status = .ok then a.1.entry else none

/-- The request is a PUT the store accepts or a DELETE of a key it holds. -/
def Mutates (store : KVStore) (req : Request) : Prop :=
  (req.command = .put ∧ KVStore.Accepts req.key req.value) ∨
    (req.command = .delete ∧ ∃ v, store.data.lookup req.key = some v)

/-- What follows the store operation of a mutation: the append if it was accepted, then the
response. -/
def logAndReply (e : Entry) (resp : Response) : Handler Response :=
  if resp.status = .ok then .call (StoreCall.append e) fun _ => .ret resp else .ret resp

theorem standaloneHandler_put {req : Request} (h : req.command = .put) :
    standaloneHandler req =
      .call (StoreCall.put req.key req.value) (logAndReply ⟨.put, req.key, req.value⟩) := by
  unfold standaloneHandler
  rw [h]
  rfl

theorem standaloneHandler_get {req : Request} (h : req.command = .get) :
    standaloneHandler req = .call (StoreCall.get req.key) .ret := by
  unfold standaloneHandler
  rw [h]
  rfl

theorem standaloneHandler_delete {req : Request} (h : req.command = .delete) :
    standaloneHandler req = .call (StoreCall.del req.key) (logAndReply ⟨.delete, req.key, []⟩) := by
  unfold standaloneHandler
  rw [h]
  rfl

theorem serve_put (key : Key) (value : Value) (p : Process) :
    (serve ⟨.put, key, value⟩ p).1 = (p.store.put key value).1 ∧
      (serve ⟨.put, key, value⟩ p).2.store = (p.store.put key value).2 := by
  unfold serve
  rw [standaloneHandler_put rfl]
  show ((logAndReply _ (p.store.put key value).1).exec _ _).1 = _ ∧ _
  unfold logAndReply
  by_cases hok : (p.store.put key value).1.status = .ok <;> simp [StoreCall.exec, hok]

theorem serve_delete (key : Key) (value : Value) (p : Process) :
    (serve ⟨.delete, key, value⟩ p).1 = (p.store.del key).1 ∧
      (serve ⟨.delete, key, value⟩ p).2.store = (p.store.del key).2 := by
  unfold serve
  rw [standaloneHandler_delete rfl]
  unfold logAndReply
  by_cases hok : (p.store.del key).1.status = .ok <;> simp [StoreCall.exec, hok]

section AnyLog

variable {δ : Type} (append : Entry → δ → δ)

/-- One operation on a store and a log of any kind, given what an append does to the log. -/
def StoreCall.execOn : (c : StoreCall) → KVStore × δ → c.Res × (KVStore × δ)
  | .put k v, p => ((p.1.put k v).1, ((p.1.put k v).2, p.2))
  | .get k, p => (p.1.get k, p)
  | .del k, p => ((p.1.del k).1, ((p.1.del k).2, p.2))
  | .append e, p => ((), (p.1, append e p.2))

/-- A request that mutates the store logs its entry and is answered OK. -/
theorem exec_mutates {req : Request} {store : KVStore} (h : Mutates store req) (d : δ) :
    ∃ e, req.entry = some e ∧ (standaloneHandler req).exec (StoreCall.execOn append) (store, d) =
      (⟨.ok, []⟩, (Wal.applyEntry store e, append e d)) := by
  unfold Request.entry
  rcases h with ⟨hc, ha⟩ | ⟨hc, v, hv⟩
  · refine ⟨⟨.put, req.key, req.value⟩, by rw [hc], ?_⟩
    rw [standaloneHandler_put hc]
    simp only [Prog.exec_call, StoreCall.execOn, KVStore.put_ok ha, logAndReply, if_true, Prog.exec_ret,
      Wal.applyEntry]
  · refine ⟨⟨.delete, req.key, []⟩, by rw [hc], ?_⟩
    rw [standaloneHandler_delete hc]
    simp only [Prog.exec_call, StoreCall.execOn, KVStore.del_present hv, logAndReply, if_true, Prog.exec_ret,
      Wal.applyEntry]

/-- Every other request leaves store and log as they were, and if it is a PUT or a DELETE it is not
answered OK. -/
theorem exec_not_mutates {req : Request} {store : KVStore} (h : ¬ Mutates store req) (d : δ) :
    ∃ resp, (standaloneHandler req).exec (StoreCall.execOn append) (store, d) = (resp, (store, d)) ∧
      (req.entry ≠ none → resp.status ≠ .ok) := by
  unfold Mutates at h
  push Not at h
  unfold Request.entry
  cases hc : req.command with
  | put =>
    obtain ⟨hs, -, hst⟩ := KVStore.put_refused (h.1 hc) store
    refine ⟨(store.put req.key req.value).1, ?_, fun _ => hs⟩
    rw [standaloneHandler_put hc]
    simp only [Prog.exec_call, StoreCall.execOn, logAndReply, if_neg hs, Prog.exec_ret, hst]
  | delete =>
    have hnone : store.data.lookup req.key = none := Option.eq_none_iff_forall_ne_some.2 (h.2 hc)
    refine ⟨⟨.notFound, []⟩, ?_, fun _ => nofun⟩
    rw [standaloneHandler_delete hc]
    simp [StoreCall.execOn, KVStore.del_absent hnone, logAndReply]
  | get | ping | other =>
    unfold standaloneHandler
    rw [hc]
    exact ⟨_, rfl, fun hn => absurd rfl hn⟩

/-- A PUT or DELETE that is answered OK has changed the store and has been appended. -/
theorem exec_ok {req : Request} {e : Entry} (he : req.entry = some e) {store : KVStore} {d : δ}
    (hok : ((standaloneHandler req).exec (StoreCall.execOn append) (store, d)).1.status = .ok) :
    ((standaloneHandler req).exec (StoreCall.execOn append) (store, d)).2 = (Wal.applyEntry store e, append e d) := by
  by_cases hm : Mutates store req
  · obtain ⟨e', he', hexec⟩ := exec_mutates append hm d
    rw [he, Option.some.injEq] at he'
    subst he'
    rw [hexec]
  · obtain ⟨resp, hexec, hresp⟩ := exec_not_mutates append hm d
    rw [hexec] at hok
    exact absurd hok (hresp (by rw [he]; exact nofun))

end AnyLog

/-- A process is a store with a log that every append extends by its record. -/
theorem serve_eq (req : Request) (store : KVStore) (disk : Disk) :
    serve req ⟨store, disk⟩ =
      let r := (standaloneHandler req).exec
        (StoreCall.execOn fun e (d : Disk) => { d with wal := d.wal ++ Wal.record e }) (store, disk)
      (r.1, ⟨r.2.1, r.2.2⟩) := by
  refine Prog.exec_map (f := fun p : KVStore × Disk => (⟨p.1, p.2⟩ : Process)) _ ?_ _ (store, disk)
  intro c p
  cases c <;> rfl

theorem serve_mutates {req : Request} {p : Process} (h : Mutates p.store req) :
    ∃ e, req.entry = some e ∧ serve req p =
      (⟨.ok, []⟩, ⟨Wal.applyEntry p.store e, { p.disk with wal := p.disk.wal ++ Wal.record e }⟩) := by
  obtain ⟨e, he, hexec⟩ := exec_mutates (fun e (d : Disk) => { d with wal := d.wal ++ Wal.record e }) h p.disk
  refine ⟨e, he, ?_⟩
  rw [serve_eq, hexec]

theorem serve_not_mutates {req : Request} {p : Process} (h : ¬ Mutates p.store req) :
    (serve req p).2 = p ∧ (req.entry ≠ none → (serve req p).1.status ≠ .ok) := by
  obtain ⟨resp, hexec, hresp⟩ :=
    exec_not_mutates (fun e (d : Disk) => { d with wal := d.wal ++ Wal.record e }) h p.disk
  rw [serve_eq, hexec]
  exact ⟨rfl, hresp⟩

end KvStore
