/-
`WriteAheadLog` (`src/persistence/wal.cpp`) as threads meet it and as a crash leaves it. Every method
holds `mutex_`; an `append` makes three writes, which the stream passes on to the file in pieces of its
own choosing, then a `flush`, then counts the entry. The calls of any number of threads are
linearizable, and at every moment, also between two writes, the file holds the entries of such a
linearization: a crash loses no append that has returned and leaves no entry half written.
-/
import KvStore.Lib.RwLock
import KvStore.Persistence.Replay

namespace KvStore.WriteAheadLog

open Bytes RwLock Machine Linear Wal

/-- The bytes the operating system has, those still in the buffer of `writer_`, and `entry_count_`. -/
structure Journal where
  file : Str
  buffer : Str
  entryCount : Nat
  deriving DecidableEq

/-- `WriteAheadLog(path)` on a file that holds the records of these entries. -/
def opened (es : List Entry) : Journal := ⟨log es, [], 0⟩

inductive Method
  | append (e : Entry)
  | replay
  | truncate
  | sync
  deriving DecidableEq

/-- `replay` is answered by the entries it hands to the store. -/
inductive Answer
  | void
  | entries (es : List Entry)
  deriving DecidableEq

namespace Journal

/-- `writer_.write(data)`, after which the stream has passed on `n` bytes of its buffer. -/
def write (j : Journal) (data : Str) (n : Nat) : Journal :=
  { j with file := j.file ++ (j.buffer ++ data).take n, buffer := (j.buffer ++ data).drop n }

/-- `writer_.flush()`. -/
def flush (j : Journal) : Journal := { j with file := j.file ++ j.buffer, buffer := [] }

end Journal

/-- The methods as a single thread meets them. -/
def exec : Method → Journal → Answer × Journal
  | .append e, j => (.void, ⟨j.file ++ j.buffer ++ record e, [], j.entryCount + 1⟩)
  | .replay, j => (.entries ((entriesOf j.file).getD []), j)
  | .truncate, _ => (.void, ⟨[], [], 0⟩)
  | .sync, j => (.void, j.flush)

/-- Where a method is between two accesses to the stream or the file; `scan` has read the entries up to
a position of the file. -/
inductive Body
  | length (e : Entry)
  | payload (e : Entry)
  | crc (e : Entry)
  | flush (e : Entry)
  | count (e : Entry)
  | scan (pos : Nat) (es : List Entry)
  | close
  | reopen
  | reset
  | sync
  deriving DecidableEq

def start : Method → Body
  | .append e => .length e
  | .replay => .scan 0 []
  | .truncate => .close
  | .sync => .sync

/-- One access. A write passes `n` bytes on to the file. -/
def next : Body → Journal → Nat → Option (Turn Body Answer × Journal)
  | .length e, j, n => some (.more (.payload e), j.write (le32 (entryLen e)) n)
  | .payload e, j, n => some (.more (.crc e), j.write (Wal.payload e) n)
  | .crc e, j, n => some (.more (.flush e), j.write (le32 (crc32 (Wal.payload e)).toNat) n)
  | .flush e, j, _ => some (.more (.count e), j.flush)
  | .count _, j, _ => some (.done .void, { j with entryCount := j.entryCount + 1 })
  | .scan pos es, j, _ =>
    match scanRecord (j.file.drop pos) with
    | .stop => some (.done (.entries es), j)
    | .outOfBounds => none
    | .entry e rest => some (.more (.scan (j.file.length - rest.length) (es ++ [e])), j)
  | .close, j, _ => some (.more .reopen, j.flush)
  | .reopen, j, _ => some (.more .reset, { j with file := [] })
  | .reset, j, _ => some (.done .void, { j with entryCount := 0 })
  | .sync, j, _ => some (.done .void, j.flush)

/-- `lock_guard` in every method. -/
def impl : Impl Method Answer Journal Body Nat := { exclusive := fun _ => true, start, next }

/-! ## A method alone -/

/-- The bytes have been written behind those of `m`, and part of them may have reached the file. -/
structure Written (m : Journal) (data : Str) (j : Journal) : Prop where
  bytes : j.file ++ j.buffer = m.file ++ m.buffer ++ data
  kept : m.file <+: j.file
  count : j.entryCount = m.entryCount

theorem Written.start (m : Journal) : Written m [] m := ⟨by simp, List.prefix_refl _, rfl⟩

theorem Written.write {m j : Journal} {data : Str} (h : Written m data j) (more : Str) (n : Nat) :
    Written m (data ++ more) (j.write more n) := by
  refine ⟨?_, h.kept.trans (List.prefix_append _ _), h.count⟩
  simp only [Journal.write]
  rw [List.append_assoc, List.take_append_drop, ← List.append_assoc, h.bytes, List.append_assoc]

theorem Written.flush {m j : Journal} {data : Str} (h : Written m data j) :
    j.flush = ⟨m.file ++ m.buffer ++ data, [], m.entryCount⟩ := by
  rw [Journal.flush, h.bytes, h.count]

/-- What has become of the journal `m` a method began with, when it is at a point of its body. -/
def At (op : Method) (m : Journal) : Body → Journal → Prop
  | .length e, j => op = .append e ∧ Written m [] j
  | .payload e, j => op = .append e ∧ Written m (le32 (entryLen e)) j
  | .crc e, j => op = .append e ∧ Written m (le32 (entryLen e) ++ Wal.payload e) j
  | .flush e, j => op = .append e ∧ Written m (record e) j
  | .count e, j => op = .append e ∧ j = ⟨m.file ++ m.buffer ++ record e, [], m.entryCount⟩
  | .scan pos es, j => op = .replay ∧ j = m ∧ entriesOf m.file = (entriesOf (m.file.drop pos)).map (es ++ ·)
  | .close, j => op = .truncate ∧ j = m
  | .reopen, j => op = .truncate ∧ j = m.flush
  | .reset, j => op = .truncate ∧ j = ⟨[], [], m.entryCount⟩
  | .sync, j => op = .sync ∧ j = m

/-- What a turn makes of the point the method is at. -/
def After (op : Method) (m : Journal) : Turn Body Answer × Journal → Prop
  | (.more b, j) => At op m b j
  | (.done r, j) => (r, j) = exec op m

/-- The record read at a position ends where the scan goes on. -/
theorem drop_of_scan {file rest : Str} {pos : Nat} {e : Entry} (h : scanRecord (file.drop pos) = .entry e rest) :
    file.drop (file.length - rest.length) = rest := by
  obtain ⟨buffer, -, -, hframe⟩ := scanRecord_entry h
  have hsuffix : rest <:+ file :=
    (hframe ▸ List.suffix_append _ _ : rest <:+ file.drop pos).trans (List.drop_suffix _ _)
  exact (List.suffix_iff_eq_drop.1 hsuffix).symm

theorem after_scan {m : Journal} {pos n : Nat} {es : List Entry} {t : Turn Body Answer × Journal}
    (hes : entriesOf m.file = (entriesOf (m.file.drop pos)).map (es ++ ·)) (h : next (.scan pos es) m n = some t) :
    After .replay m t := by
  cases hs : scanRecord (m.file.drop pos) with
  | stop =>
    simp only [next, hs, Option.some.injEq] at h
    subst h
    rw [entriesOf_stop hs, Option.map_some, List.append_nil] at hes
    simp [After, exec, hes]
  | outOfBounds =>
    simp only [next, hs] at h
    cases h
  | entry e rest =>
    simp only [next, hs, Option.some.injEq] at h
    subst h
    refine ⟨rfl, rfl, ?_⟩
    rw [drop_of_scan hs, hes, entriesOf_entry hs, Option.map_map]
    congr 1
    funext fs
    simp

theorem next_after {op : Method} {m j : Journal} {b : Body} {n : Nat} {t : Turn Body Answer × Journal}
    (hat : At op m b j) (h : next b j n = some t) : After op m t := by
  cases b with
  | length e =>
    obtain ⟨rfl, hw⟩ := hat
    cases h
    exact ⟨rfl, hw.write _ n⟩
  | payload e =>
    obtain ⟨rfl, hw⟩ := hat
    cases h
    exact ⟨rfl, hw.write _ n⟩
  | crc e =>
    obtain ⟨rfl, hw⟩ := hat
    cases h
    have hrec := hw.write (le32 (crc32 (Wal.payload e)).toNat) n
    rw [List.append_assoc] at hrec
    exact ⟨rfl, hrec⟩
  | flush e =>
    obtain ⟨rfl, hw⟩ := hat
    cases h
    exact ⟨rfl, hw.flush⟩
  | count e =>
    obtain ⟨rfl, rfl⟩ := hat
    cases h
    rfl
  | scan pos es =>
    obtain ⟨rfl, rfl, hes⟩ := hat
    exact after_scan hes h
  | close =>
    obtain ⟨rfl, rfl⟩ := hat
    cases h
    exact ⟨rfl, rfl⟩
  | reopen =>
    obtain ⟨rfl, rfl⟩ := hat
    cases h
    exact ⟨rfl, rfl⟩
  | reset =>
    obtain ⟨rfl, rfl⟩ := hat
    cases h
    rfl
  | sync =>
    obtain ⟨rfl, rfl⟩ := hat
    cases h
    rfl

theorem at_of_solo {op : Method} {m j : Journal} {b : Body} (h : Solo impl op m b j) : At op m b j := by
  induction h with
  | start =>
    cases op with
    | append e => exact ⟨rfl, Written.start m⟩
    | replay => exact ⟨rfl, rfl, by simp⟩
    | truncate => exact ⟨rfl, rfl⟩
    | sync => exact ⟨rfl, rfl⟩
  | more _ hn ih => exact next_after ih hn

theorem impl_correct : Correct impl exec where
  result hat hn := next_after (at_of_solo hat) hn
  reads hx := by cases hx

/-! ## What is on the disk -/

/-- The entries of the log after a method. -/
def keep (es : List Entry) : Method → List Entry
  | .append e => es ++ [e]
  | .truncate => []
  | _ => es

/-- The file holds the records of these entries and nothing waits in the buffer. -/
structure AtRest (es : List Entry) (j : Journal) : Prop where
  file : j.file = log es
  buffer : j.buffer = []
  loggable : ∀ e ∈ es, Loggable e

theorem AtRest.entries {es : List Entry} {j : Journal} (h : AtRest es j) : entriesOf j.file = some es := by
  rw [h.file, entriesOf_log h.loggable]

theorem AtRest.method {es : List Entry} {op : Method} {j : Journal} (h : AtRest es j)
    (hop : ∀ e, op = .append e → Loggable e) : AtRest (keep es op) (exec op j).2 := by
  cases op with
  | append e =>
    refine ⟨?_, rfl, ?_⟩
    · show j.file ++ j.buffer ++ record e = log (es ++ [e])
      rw [h.file, h.buffer, List.append_nil, log_snoc]
    · intro f hf
      rcases List.mem_append.1 hf with hf | hf
      · exact h.loggable f hf
      · cases List.mem_singleton.1 hf
        exact hop e rfl
  | replay => exact h
  | truncate => exact ⟨rfl, rfl, by simp [keep]⟩
  | sync =>
    refine ⟨?_, rfl, h.loggable⟩
    show j.file ++ j.buffer = log es
    rw [h.file, h.buffer, List.append_nil]

theorem AtRest.legal {order : List (Effect Method Answer)} {es : List Entry} {j j' : Journal} (hj : AtRest es j)
    (h : Legal exec j order j') (hop : ∀ d ∈ order, ∀ e, d.op = .append e → Loggable e) :
    AtRest ((order.map Effect.op).foldl keep es) j' := by
  induction order generalizing es j with
  | nil =>
    cases h
    exact hj
  | cons d order ih =>
    exact ih (hj.method (hop d List.mem_cons_self)) h.2 fun d' hd' => hop d' (List.mem_cons_of_mem _ hd')

/-- Between the writes of an append the file has the entries it had before or already the new one too. -/
theorem Written.entries {m j : Journal} {es : List Entry} {e : Entry} {n : Nat} (h : Written m ((record e).take n) j)
    (hm : AtRest es m) (he : Loggable e) : entriesOf j.file = entriesOf m.file ∨ j.file = m.file ++ record e := by
  obtain ⟨tail, htail⟩ := h.kept
  have hbytes := h.bytes
  rw [← htail, hm.buffer, List.append_nil, List.append_assoc, List.append_cancel_left_eq] at hbytes
  have hpre : tail <+: record e :=
    (List.prefix_append tail j.buffer).trans (hbytes ▸ List.take_prefix n (record e))
  obtain ⟨k, htake⟩ : ∃ k, tail = (record e).take k := ⟨tail.length, List.prefix_iff_eq_take.1 hpre⟩
  by_cases hk : k < (record e).length
  · left
    rw [← htail, htake, hm.file, entriesOf_torn hm.loggable he hk, entriesOf_log hm.loggable]
  · right
    rw [← htail, htake, List.take_of_length_le (Nat.not_lt.1 hk)]

/-- At a point of its body a method has left the entries of the file as they were, or as they will be. -/
theorem entries_at {op : Method} {es : List Entry} {m j : Journal} {b : Body} (hat : At op m b j) (hm : AtRest es m)
    (hop : ∀ e, op = .append e → Loggable e) :
    entriesOf j.file = entriesOf m.file ∨ entriesOf j.file = entriesOf (exec op m).2.file := by
  -- the bytes written so far are an initial part of the record
  have append : ∀ {e : Entry} {n : Nat}, op = .append e → Written m ((record e).take n) j →
      entriesOf j.file = entriesOf m.file ∨ entriesOf j.file = entriesOf (exec op m).2.file := by
    rintro e n rfl hw
    rcases hw.entries hm (hop e rfl) with heq | heq
    · exact .inl heq
    · right
      rw [heq]
      simp [exec, hm.buffer]
  cases b with
  | length e =>
    obtain ⟨rfl, hw⟩ := hat
    exact append rfl (show Written m ((record e).take 0) j from hw)
  | payload e =>
    obtain ⟨rfl, hw⟩ := hat
    refine append rfl (show Written m ((record e).take 4) j from ?_)
    rw [record, List.take_left' (length_le32 _)]
    exact hw
  | crc e =>
    obtain ⟨rfl, hw⟩ := hat
    refine append rfl (show Written m ((record e).take (4 + (Wal.payload e).length)) j from ?_)
    rw [record, ← List.append_assoc, List.take_left' (by simp)]
    exact hw
  | flush e =>
    obtain ⟨rfl, hw⟩ := hat
    refine append rfl (show Written m ((record e).take (record e).length) j from ?_)
    rw [List.take_length]
    exact hw
  | count e =>
    obtain ⟨rfl, rfl⟩ := hat
    exact .inr rfl
  | scan pos es =>
    obtain ⟨rfl, rfl, -⟩ := hat
    exact .inl rfl
  | close =>
    obtain ⟨rfl, rfl⟩ := hat
    exact .inl rfl
  | reopen =>
    obtain ⟨rfl, rfl⟩ := hat
    left
    simp [Journal.flush, hm.buffer]
  | reset =>
    obtain ⟨rfl, rfl⟩ := hat
    exact .inr rfl
  | sync =>
    obtain ⟨rfl, rfl⟩ := hat
    exact .inl rfl

/-! ## Any number of threads, and a crash -/

/-- Threads use the log access by access. -/
def stepCall (w : World Method Answer Journal Body) (a : Action Method Nat) :
    Option (World Method Answer Journal Body) :=
  step impl w a

/-- At every moment of every interleaving the calls made so far have a linearization, which has every
call that has returned and perhaps one that is under way, and the file holds exactly the entries
that it leaves. -/
theorem durably_linearizable {es₀ : List Entry} (hes₀ : ∀ e ∈ es₀, Loggable e) {w : World Method Answer Journal Body}
    {as : List (Action Method Nat)} (h : Runs stepCall (fun _ _ => True) (.start (opened es₀)) as w)
    (hops : ∀ id e, .invoke id (.append e) ∈ w.history → Loggable e) :
    ∃ order j, Linearized exec (opened es₀) w.history order j ∧
      entriesOf w.memory.file = some ((order.map Effect.op).foldl keep es₀) := by
  obtain ⟨order, j, hs⟩ := sound_of_runs impl_correct h
  -- whatever the linearization, it keeps to complete records
  have rest : ∀ {order' j'}, Linearized exec (opened es₀) w.history order' j' →
      AtRest ((order'.map Effect.op).foldl keep es₀) j' := by
    intro order' j' hlin
    have hrest₀ : AtRest es₀ (opened es₀) := ⟨rfl, rfl, hes₀⟩
    refine hrest₀.legal hlin.legal fun d hd e hop => hops d.id e ?_
    rw [← hop]
    exact hlin.invoked d hd
  by_cases hin : ∃ id op b, w.calls id = .inside op b
  · obtain ⟨id, op, b, hc⟩ := hin
    have hfit := hs.fits id
    rw [hc] at hfit
    obtain ⟨⟨hinv, hid⟩, hsolo⟩ := hfit
    have hop : ∀ e, op = .append e → Loggable e := by
      rintro e rfl
      exact hops id e hinv
    rcases entries_at (at_of_solo hsolo) (rest hs.linearized) hop with heq | heq
    · exact ⟨order, j, hs.linearized, heq.trans (rest hs.linearized).entries⟩
    · -- what the call will leave is there already: it is taken to have had its effect
      have hlin := hs.linearized.commit hinv hid
      exact ⟨_, _, hlin, heq.trans (rest hlin).entries⟩
  · have hmem : w.memory = j := hs.settled fun id op b hc => absurd ⟨id, op, b, hc⟩ hin
    exact ⟨order, j, hs.linearized, by rw [hmem, (rest hs.linearized).entries]⟩

/-- Two threads append; the first has returned, and of the record of the second five bytes have reached
the file when the process dies. -/
theorem durably_linearizable_torn :
    ∃ w, Runs stepCall (fun _ _ => True) (.start (opened []))
        [.invoke 0 (.append ⟨.put, [107], [118]⟩), .invoke 1 (.append ⟨.delete, [107], []⟩), .acquire 0, .turn 0 0,
          .turn 0 0, .turn 0 3, .turn 0 0, .turn 0 0, .release 0, .respond 0, .acquire 1, .turn 1 2, .turn 1 3] w ∧
      entriesOf w.memory.file = some [⟨.put, [107], [118]⟩] ∧
      ∃ order j, Linearized exec (opened []) w.history order j ∧
        entriesOf w.memory.file = some ((order.map Effect.op).foldl keep []) := by
  obtain ⟨w, hr, hh, hw⟩ : ∃ w, Runs stepCall (fun _ _ => True) (.start (opened []))
        [.invoke 0 (.append ⟨.put, [107], [118]⟩), .invoke 1 (.append ⟨.delete, [107], []⟩), .acquire 0, .turn 0 0,
          .turn 0 0, .turn 0 3, .turn 0 0, .turn 0 0, .release 0, .respond 0, .acquire 1, .turn 1 2, .turn 1 3] w ∧
      w.history = [.invoke 0 (.append ⟨.put, [107], [118]⟩), .invoke 1 (.append ⟨.delete, [107], []⟩),
        .respond 0 .void] ∧
      entriesOf w.memory.file = some [⟨.put, [107], [118]⟩] :=
    exists_runs (by decide +kernel)
  refine ⟨w, hr, hw, durably_linearizable (by simp) hr ?_⟩
  intro id e he
  rw [hh] at he
  rcases List.mem_cons.1 he with he | he
  · cases he
    show 9 + 1 + 1 < 2 ^ 32
    decide
  · rcases List.mem_cons.1 he with he | he
    · cases he
      show 9 + 1 + 0 < 2 ^ 32
      decide
    · cases List.mem_singleton.1 he

end KvStore.WriteAheadLog
