/-
The standalone server on a log file that fails (`src/persistence/wal.cpp`). `append` makes three
writes and a flush on an `ofstream` and looks at the state of the stream neither before nor after,
so a mutation is answered OK whether or not its record has reached the file: it has exactly when the
stream was in order and let all of its bytes through (`ok_logged_iff`). After a flush that fails the
server goes on answering OK and logs nothing more (`ok_without_record`).
-/
import KvStore.Lib.Output
import KvStore.Server.Handler

namespace KvStore

open Bytes Updates Program Output

namespace Wal

/-- What becomes of the four operations of an `append` on its stream. -/
structure AppendFaults where
  length : Option Nat
  payload : Option Nat
  checksum : Option Nat
  flush : Option Nat
  deriving DecidableEq, Repr

def noFaults : AppendFaults := ⟨none, none, none, none⟩

/-- The constructor: open the file for appending, which can fail. -/
def openLog (file : Str) (opened : Bool) : OStream UInt8 := ⟨file, [], opened⟩

/-- The three writes of `append`. -/
def chunks (f : AppendFaults) (e : Entry) : List (Str × Option Nat) :=
  [(le32 (entryLen e), f.length), (payload e, f.payload), (le32 (crc32 (payload e)).toNat, f.checksum)]

/-- `append`. -/
def append (f : AppendFaults) (e : Entry) (writer : OStream UInt8) : OStream UInt8 :=
  writer.send (chunks f e) f.flush

/-- All bytes of the record of `e` reach the file. -/
def Reaches (f : AppendFaults) (e : Entry) : Prop := (record e).length ≤ reached 0 (chunks f e) f.flush

instance (f : AppendFaults) (e : Entry) : Decidable (Reaches f e) := inferInstanceAs (Decidable (_ ≤ _))

theorem bytes_chunks (f : AppendFaults) (e : Entry) : bytes (chunks f e) = record e := by
  simp [bytes, chunks, record]

/-- What an `append` adds to the file. -/
theorem append_file {writer : OStream UInt8} (hok : writer.ok = true) (hbuffer : writer.buffer = [])
    (f : AppendFaults) (e : Entry) :
    (append f e writer).file = writer.file ++ (record e).take (reached 0 (chunks f e) f.flush) := by
  unfold append
  rw [OStream.send_file _ _ hok, hbuffer, bytes_chunks]
  rfl

theorem record_ne_nil (e : Entry) : record e ≠ [] := by
  intro hnil
  have hlen := length_record e
  rw [hnil, List.length_nil] at hlen
  omega

theorem append_noFaults (file : Str) (e : Entry) :
    append noFaults e ⟨file, [], true⟩ = ⟨file ++ record e, [], true⟩ := by
  simp [append, chunks, noFaults, OStream.send, OStream.write, OStream.flush, record]

end Wal

/-! ## Requests -/

/-- A request handled alone, its `append` meeting the faults `f`. -/
def serveLogging (req : Request) (f : Wal.AppendFaults) (p : KVStore × OStream UInt8) :
    Response × (KVStore × OStream UInt8) :=
  (standaloneHandler req).exec (StoreCall.execOn (Wal.append f)) p

/-- The store and the log after some requests. -/
def serveAllLogging (steps : List (Request × Wal.AppendFaults)) (p : KVStore × OStream UInt8) :
    KVStore × OStream UInt8 :=
  steps.foldl (fun p x => (serveLogging x.1 x.2 p).2) p

/-- Without faults the stream is the log file of the process. -/
theorem serveLogging_noFaults (req : Request) (p : Process) :
    serveLogging req Wal.noFaults (p.store, ⟨p.disk.wal, [], true⟩) =
      ((serve req p).1, ((serve req p).2.store, ⟨(serve req p).2.disk.wal, [], true⟩)) := by
  refine Prog.exec_map (f := fun p : Process => (p.store, (⟨p.disk.wal, [], true⟩ : OStream UInt8))) _ ?_ _ p
  intro c p
  cases c with
  | append e => simp only [StoreCall.execOn, StoreCall.exec, Wal.append_noFaults]
  | put | get | del => rfl

/-- A stream in order has a log of complete records behind it, and nothing waiting. -/
def InOrder (w : OStream UInt8) : Prop := w.ok = true → Wal.CompleteLog w.file ∧ w.buffer = []

theorem InOrder.append {w : OStream UInt8} (h : InOrder w) (f : Wal.AppendFaults) {e : Entry} (he : Wal.Loggable e) :
    InOrder (Wal.append f e w) := by
  intro hok
  obtain ⟨hbefore, hbuffer, hall⟩ := OStream.send_ok hok
  obtain ⟨⟨es, hes, hfile⟩, hempty⟩ := h hbefore
  rw [hempty, List.length_nil, List.nil_append, Wal.bytes_chunks] at hall
  refine ⟨⟨es ++ [e], ?_, ?_⟩, hbuffer⟩
  · exact List.forall_mem_append.2 ⟨hes, List.forall_mem_singleton.2 he⟩
  · rw [Wal.append_file hbefore hempty, hall, List.take_length, hfile, Wal.log_snoc]

theorem InOrder.serve {p : KVStore × OStream UInt8} (h : InOrder p.2) (f : Wal.AppendFaults) {req : Request}
    (hfit : req.FitsFrame) : InOrder (serveLogging req f p).2.2 := by
  by_cases hm : Mutates p.1 req
  · obtain ⟨e, he, hexec⟩ := exec_mutates (Wal.append f) hm p.2
    rw [serveLogging, hexec]
    exact h.append f (hfit.loggable he)
  · obtain ⟨resp, hexec, -⟩ := exec_not_mutates (Wal.append f) hm p.2
    rw [serveLogging, hexec]
    exact h

theorem InOrder.serveAll {p : KVStore × OStream UInt8} (h : InOrder p.2) :
    ∀ {steps : List (Request × Wal.AppendFaults)}, (∀ x ∈ steps, x.1.FitsFrame) →
      InOrder (serveAllLogging steps p).2 := by
  intro steps
  induction steps using List.reverseRecOn with
  | nil => exact fun _ => h
  | append_singleton steps x ih =>
    intro hfit
    obtain ⟨hsteps, hx⟩ := List.forall_mem_append.1 hfit
    unfold serveAllLogging
    rw [List.foldl_append]
    exact (ih hsteps).serve x.2 (hx x (List.mem_singleton_self x))

/-! ## Answers and records -/

/-- From `file` to `file'` the complete record of `e` is added, and a replay applies it last. -/
def Recorded (e : Entry) (file file' : Str) : Prop :=
  file' = file ++ Wal.record e ∧ ∃ es, Wal.entriesOf file = some es ∧ Wal.entriesOf file' = some (es ++ [e])

/-- A mutation that is answered OK is in the log iff, when it was made, the stream was in order and
let all the bytes of its record through. -/
theorem ok_logged_iff {store : KVStore} {file : Str} (hlog : Wal.CompleteLog file) (opened : Bool)
    {before : List (Request × Wal.AppendFaults)} (hfits : ∀ x ∈ before, x.1.FitsFrame)
    {req : Request} (hfit : req.FitsFrame) {e : Entry} (he : req.entry = some e) (f : Wal.AppendFaults)
    (hok : (serveLogging req f (serveAllLogging before (store, Wal.openLog file opened))).1.status = .ok) :
    let p := serveAllLogging before (store, Wal.openLog file opened)
    Recorded e p.2.file (serveLogging req f p).2.2.file ↔ p.2.ok = true ∧ Wal.Reaches f e := by
  intro p
  have horder : InOrder p.2 := by
    have hstart : InOrder (Wal.openLog file opened) := fun _ => ⟨hlog, rfl⟩
    exact InOrder.serveAll (p := (store, Wal.openLog file opened)) hstart hfits
  have hserve : (serveLogging req f p).2.2 = Wal.append f e p.2 := congrArg Prod.snd (exec_ok (Wal.append f) he hok)
  rw [hserve]
  constructor
  · rintro ⟨hfile, -⟩
    rcases hp : p.2.ok with _ | _
    · -- a failed stream leaves the file as it is
      rw [Wal.append, OStream.send_failed hp] at hfile
      exact absurd (List.append_right_eq_self.1 hfile.symm) (Wal.record_ne_nil e)
    · rw [Wal.append_file hp (horder hp).2, List.append_cancel_left_eq, List.take_eq_self_iff] at hfile
      exact ⟨rfl, hfile⟩
  · rintro ⟨hp, hall⟩
    obtain ⟨⟨es, hes, hfile⟩, hbuffer⟩ := horder hp
    have hadded : (Wal.append f e p.2).file = p.2.file ++ Wal.record e := by
      rw [Wal.append_file hp hbuffer, List.take_of_length_le hall]
    have hes' : ∀ e' ∈ es ++ [e], Wal.Loggable e' :=
      List.forall_mem_append.2 ⟨hes, List.forall_mem_singleton.2 (hfit.loggable he)⟩
    refine ⟨hadded, es, ?_, ?_⟩
    · rw [hfile, Wal.entriesOf_log hes]
    · rw [hadded, hfile, ← Wal.log_snoc, Wal.entriesOf_log hes']

/-- A PUT of `"k"`, and then a DELETE of it whose flush fails once everything is written. -/
theorem ok_logged_iff_deleted :
    let p := serveAllLogging [(⟨.put, [107], [118]⟩, Wal.noFaults)] (KVStore.empty, Wal.openLog [] true)
    let f : Wal.AppendFaults := ⟨none, none, none, some 18⟩
    let p' := serveLogging ⟨.delete, [107], []⟩ f p
    p'.1.status = .ok ∧ Recorded ⟨.delete, [107], []⟩ p.2.file p'.2.2.file := by
  intro p f p'
  have hok : p'.1.status = .ok := by decide +kernel
  have hfits : ∀ x ∈ [((⟨.put, [107], [118]⟩ : Request), Wal.noFaults)], x.1.FitsFrame := by decide
  have hfit : (⟨.delete, [107], []⟩ : Request).FitsFrame := by decide
  have hlogged := ok_logged_iff ⟨[], by simp, rfl⟩ true hfits hfit rfl f hok
  exact ⟨hok, hlogged.2 (by decide +kernel)⟩

/-- A PUT of `"k"` whose flush fails after two bytes, and then a PUT of `"j"`: both are answered OK,
and a replay of the log finds nothing. -/
theorem ok_without_record :
    let r := serveLogging ⟨.put, [107], [118]⟩ ⟨none, none, none, some 2⟩ (KVStore.empty, Wal.openLog [] true)
    let r' := serveLogging ⟨.put, [106], [119]⟩ Wal.noFaults r.2
    r.1.status = .ok ∧ r'.1.status = .ok ∧ r'.2.2.file.length = 2 ∧ Wal.entriesOf r'.2.2.file = some [] := by
  decide +kernel

end KvStore
