/-
The thread pool (`src/networking/thread_pool.cpp`): any number of workers, of calls of `submit` and of
calls of `shutdown`, each a thread that does one thing at a time. A step of the machine is the next
thing one of them does, so that the flag, which `shutdown` sets without the mutex, may change between
any two of them. A task is the number of the call of `submit` that brings it.
-/
import KvStore.Lib.Custody
import KvStore.Lib.Machine

namespace KvStore

open Custody Function Machine

/-! ## Threads -/

/-- Where a worker is in `workerLoop`. -/
inductive WorkerPc
  /-- before the lock -/
  | idle
  /-- in `cv_.wait` with the mutex, before the predicate -/
  | waiting
  /-- the predicate was false, the mutex is not yet released -/
  | willPark
  | parked
  /-- notified, before it has the mutex again -/
  | woken
  /-- behind `cv_.wait`, before the exit test -/
  | awake
  /-- before `tasks_.front()` -/
  | taking
  /-- with the task, the mutex not yet released -/
  | took (task : Nat)
  /-- in `task()` -/
  | running (task : Nat)
  /-- the exit test was true, the mutex is not yet released -/
  | leaving
  | exited
  deriving DecidableEq, Repr

/-- Where a call of `submit` is. -/
inductive SubmitPc
  /-- before the lock -/
  | idle
  /-- with the mutex, before the flag is read -/
  | locked
  /-- the flag was not set, before `tasks_.push` -/
  | checked
  /-- behind `tasks_.push`, the mutex not yet released -/
  | pushed
  /-- before `cv_.notify_one()` -/
  | notifying
  | returned
  /-- the flag was set, the mutex is not yet released -/
  | refusing
  /-- returned without a push -/
  | refused
  deriving DecidableEq, Repr

/-- Where a call of `shutdown` is. -/
inductive ShutdownPc
  | idle
  /-- it has set the flag, before `cv_.notify_all()` -/
  | notifying
  | joining
  | returned
  deriving DecidableEq, Repr

namespace WorkerPc

/-- The worker has the mutex. -/
def inside : WorkerPc → Bool
  | waiting | willPark | awake | taking | took _ | leaving => true
  | idle | parked | woken | running _ | exited => false

/-- The task the worker has taken and not finished. -/
def task? : WorkerPc → Option Nat
  | took task | running task => some task
  | _ => none

/-- The worker takes no more tasks. -/
def gone : WorkerPc → Bool
  | leaving | exited => true
  | _ => false

end WorkerPc

namespace SubmitPc

/-- The call has the mutex. -/
def inside : SubmitPc → Bool
  | locked | checked | pushed | refusing => true
  | idle | notifying | returned | refused => false

/-- The task has been accepted. -/
def accepted : SubmitPc → Bool
  | pushed | notifying | returned => true
  | idle | locked | checked | refusing | refused => false

end SubmitPc

/-- The pool with `n` workers. The calls of `submit` and of `shutdown` are numbered; the history has
the tasks accepted, those popped and those run to their end, each in order. -/
structure ThreadPool (n : Nat) where
  workers : Fin n → WorkerPc
  submits : Nat → SubmitPc
  shutdowns : Nat → ShutdownPc
  tasks : List Nat
  mutex : Option (Fin n ⊕ Nat)
  flag : Bool
  accepted : List Nat
  popped : List Nat
  ran : List Nat

inductive ThreadEvent (n : Nat)
  | worker (i : Fin n)
  | submit (j : Nat)
  /-- `cv_.notify_one()` of call `j`, with the parked worker it wakes, if there is one -/
  | notifyOne (j : Nat) (wakes : Option (Fin n))
  | shutdown (k : Nat)
  /-- `cv_.wait` may wake up on its own -/
  | spurious (i : Fin n)
  deriving DecidableEq, Repr

namespace ThreadPool

variable {n : Nat}

def start (n : Nat) : ThreadPool n where
  workers _ := .idle
  submits _ := .idle
  shutdowns _ := .idle
  tasks := []
  mutex := none
  flag := false
  accepted := []
  popped := []
  ran := []

def setWorker (s : ThreadPool n) (i : Fin n) (pc : WorkerPc) : ThreadPool n :=
  { s with workers := update s.workers i pc }

def setSubmit (s : ThreadPool n) (j : Nat) (pc : SubmitPc) : ThreadPool n :=
  { s with submits := update s.submits j pc }

def setShutdown (s : ThreadPool n) (k : Nat) (pc : ShutdownPc) : ThreadPool n :=
  { s with shutdowns := update s.shutdowns k pc }

/-- The next thing a worker does. -/
def workerLoop (s : ThreadPool n) (i : Fin n) : Option (ThreadPool n) :=
  match s.workers i with
  | .idle | .woken =>
    if s.mutex = none then some { s.setWorker i .waiting with mutex := some (.inl i) } else none
  -- `shutdown_ || !tasks_.empty()`
  | .waiting => some (s.setWorker i (if s.flag = true ∨ s.tasks ≠ [] then .awake else .willPark))
  | .willPark => some { s.setWorker i .parked with mutex := none }
  -- `shutdown_ && tasks_.empty()`
  | .awake => some (s.setWorker i (if s.flag = true ∧ s.tasks = [] then .leaving else .taking))
  | .taking =>
    match s.tasks with
    | task :: rest => some { s.setWorker i (.took task) with tasks := rest, popped := s.popped ++ [task] }
    | [] => none
  | .took task => some { s.setWorker i (.running task) with mutex := none }
  | .running task => some { s.setWorker i .idle with ran := s.ran ++ [task] }
  | .leaving => some { s.setWorker i .exited with mutex := none }
  | .parked | .exited => none

/-- The next thing a call of `submit` does, up to its notification. -/
def submit (s : ThreadPool n) (j : Nat) : Option (ThreadPool n) :=
  match s.submits j with
  | .idle => if s.mutex = none then some { s.setSubmit j .locked with mutex := some (.inr j) } else none
  | .locked => some (s.setSubmit j (if s.flag = true then .refusing else .checked))
  | .checked => some { s.setSubmit j .pushed with tasks := s.tasks ++ [j], accepted := s.accepted ++ [j] }
  | .pushed => some { s.setSubmit j .notifying with mutex := none }
  | .refusing => some { s.setSubmit j .refused with mutex := none }
  | .notifying | .returned | .refused => none

/-- A notification wakes one of the workers that are parked, or nobody if there is none. -/
def notifyOne (s : ThreadPool n) : Option (Fin n) → Option (ThreadPool n)
  | some i => if s.workers i = .parked then some (s.setWorker i .woken) else none
  | none => if ∀ i, s.workers i ≠ .parked then some s else none

def notifyAll (s : ThreadPool n) : ThreadPool n :=
  { s with workers := fun i => if s.workers i = .parked then .woken else s.workers i }

/-- The next thing a call of `shutdown` does. -/
def shutdown (s : ThreadPool n) (k : Nat) : Option (ThreadPool n) :=
  match s.shutdowns k with
  -- `compare_exchange_strong`
  | .idle => some (if s.flag = true then s.setShutdown k .returned
    else { s.setShutdown k .notifying with flag := true })
  | .notifying => some (s.notifyAll.setShutdown k .joining)
  | .joining => if ∀ i, s.workers i = .exited then some (s.setShutdown k .returned) else none
  | .returned => none

def step (s : ThreadPool n) : ThreadEvent n → Option (ThreadPool n)
  | .worker i => s.workerLoop i
  | .submit j => s.submit j
  | .notifyOne j wakes =>
    if s.submits j = .notifying then (s.notifyOne wakes).map (·.setSubmit j .returned) else none
  | .shutdown k => s.shutdown k
  | .spurious i => if s.workers i = .parked then some (s.setWorker i .woken) else none

/-! ## Moves -/

/-- What a step can do. -/
inductive Move (s : ThreadPool n) : ThreadEvent n → ThreadPool n → Prop
  | lock {i : Fin n} (hpc : s.workers i = .idle ∨ s.workers i = .woken) (hfree : s.mutex = none) :
      Move s (.worker i) { s.setWorker i .waiting with mutex := some (.inl i) }
  | ready {i : Fin n} (hpc : s.workers i = .waiting) (hready : s.flag = true ∨ s.tasks ≠ []) :
      Move s (.worker i) (s.setWorker i .awake)
  | unready {i : Fin n} (hpc : s.workers i = .waiting) (hflag : s.flag = false) (htasks : s.tasks = []) :
      Move s (.worker i) (s.setWorker i .willPark)
  | park {i : Fin n} (hpc : s.workers i = .willPark) :
      Move s (.worker i) { s.setWorker i .parked with mutex := none }
  | leave {i : Fin n} (hpc : s.workers i = .awake) (hflag : s.flag = true) (htasks : s.tasks = []) :
      Move s (.worker i) (s.setWorker i .leaving)
  | stay {i : Fin n} (hpc : s.workers i = .awake) (hstay : ¬ (s.flag = true ∧ s.tasks = [])) :
      Move s (.worker i) (s.setWorker i .taking)
  | pop {i : Fin n} {task : Nat} {rest : List Nat} (hpc : s.workers i = .taking) (htasks : s.tasks = task :: rest) :
      Move s (.worker i) { s.setWorker i (.took task) with tasks := rest, popped := s.popped ++ [task] }
  | unlock {i : Fin n} {task : Nat} (hpc : s.workers i = .took task) :
      Move s (.worker i) { s.setWorker i (.running task) with mutex := none }
  | run {i : Fin n} {task : Nat} (hpc : s.workers i = .running task) :
      Move s (.worker i) { s.setWorker i .idle with ran := s.ran ++ [task] }
  | exit {i : Fin n} (hpc : s.workers i = .leaving) :
      Move s (.worker i) { s.setWorker i .exited with mutex := none }
  | submitLock {j : Nat} (hpc : s.submits j = .idle) (hfree : s.mutex = none) :
      Move s (.submit j) { s.setSubmit j .locked with mutex := some (.inr j) }
  | check {j : Nat} (hpc : s.submits j = .locked) (hflag : s.flag = false) :
      Move s (.submit j) (s.setSubmit j .checked)
  | refuse {j : Nat} (hpc : s.submits j = .locked) (hflag : s.flag = true) :
      Move s (.submit j) (s.setSubmit j .refusing)
  | push {j : Nat} (hpc : s.submits j = .checked) :
      Move s (.submit j) { s.setSubmit j .pushed with tasks := s.tasks ++ [j], accepted := s.accepted ++ [j] }
  | submitUnlock {j : Nat} (hpc : s.submits j = .pushed) :
      Move s (.submit j) { s.setSubmit j .notifying with mutex := none }
  | refused {j : Nat} (hpc : s.submits j = .refusing) :
      Move s (.submit j) { s.setSubmit j .refused with mutex := none }
  | notifyOne {j : Nat} {i : Fin n} (hpc : s.submits j = .notifying) (hparked : s.workers i = .parked) :
      Move s (.notifyOne j (some i)) ((s.setWorker i .woken).setSubmit j .returned)
  | notifyNone {j : Nat} (hpc : s.submits j = .notifying) (hparked : ∀ i, s.workers i ≠ .parked) :
      Move s (.notifyOne j none) (s.setSubmit j .returned)
  | raise {k : Nat} (hpc : s.shutdowns k = .idle) (hflag : s.flag = false) :
      Move s (.shutdown k) { s.setShutdown k .notifying with flag := true }
  | lose {k : Nat} (hpc : s.shutdowns k = .idle) (hflag : s.flag = true) :
      Move s (.shutdown k) (s.setShutdown k .returned)
  | notifyAll {k : Nat} (hpc : s.shutdowns k = .notifying) :
      Move s (.shutdown k) (s.notifyAll.setShutdown k .joining)
  | join {k : Nat} (hpc : s.shutdowns k = .joining) (hexited : ∀ i, s.workers i = .exited) :
      Move s (.shutdown k) (s.setShutdown k .returned)
  | spurious {i : Fin n} (hpc : s.workers i = .parked) : Move s (.spurious i) (s.setWorker i .woken)

theorem workerLoop_move {s s' : ThreadPool n} {i : Fin n} (h : s.workerLoop i = some s') :
    Move s (.worker i) s' := by
  unfold workerLoop at h
  cases hpc : s.workers i <;> simp only [hpc] at h
  case idle | woken =>
    obtain ⟨hfree, h⟩ := Option.ite_none_right_eq_some.1 h
    cases h
    exact .lock (by simp [hpc]) hfree
  case waiting =>
    cases h
    by_cases hready : s.flag = true ∨ s.tasks ≠ []
    · rw [if_pos hready]
      exact .ready hpc hready
    · rw [if_neg hready]
      push Not at hready
      exact .unready hpc (by simpa using hready.1) hready.2
  case awake =>
    cases h
    by_cases hleave : s.flag = true ∧ s.tasks = []
    · rw [if_pos hleave]
      exact .leave hpc hleave.1 hleave.2
    · rw [if_neg hleave]
      exact .stay hpc hleave
  case taking =>
    rcases htasks : s.tasks with _ | ⟨task, rest⟩ <;> rw [htasks] at h <;> cases h
    exact .pop hpc htasks
  case willPark => cases h; exact .park hpc
  case took => cases h; exact .unlock hpc
  case running => cases h; exact .run hpc
  case leaving => cases h; exact .exit hpc
  case parked | exited => cases h

theorem submit_move {s s' : ThreadPool n} {j : Nat} (h : s.submit j = some s') : Move s (.submit j) s' := by
  unfold submit at h
  cases hpc : s.submits j <;> simp only [hpc] at h
  case idle =>
    obtain ⟨hfree, h⟩ := Option.ite_none_right_eq_some.1 h
    cases h
    exact .submitLock hpc hfree
  case locked =>
    cases h
    cases hflag : s.flag
    · exact .check hpc hflag
    · exact .refuse hpc hflag
  case checked => cases h; exact .push hpc
  case pushed => cases h; exact .submitUnlock hpc
  case refusing => cases h; exact .refused hpc
  case notifying | returned | refused => cases h

theorem shutdown_move {s s' : ThreadPool n} {k : Nat} (h : s.shutdown k = some s') :
    Move s (.shutdown k) s' := by
  unfold shutdown at h
  cases hpc : s.shutdowns k <;> simp only [hpc] at h
  case idle =>
    cases h
    cases hflag : s.flag
    · exact .raise hpc hflag
    · exact .lose hpc hflag
  case notifying => cases h; exact .notifyAll hpc
  case joining =>
    obtain ⟨hexited, h⟩ := Option.ite_none_right_eq_some.1 h
    cases h
    exact .join hpc hexited
  case returned => cases h

theorem step_move {s s' : ThreadPool n} {e : ThreadEvent n} (h : s.step e = some s') : Move s e s' := by
  cases e with
  | worker i => exact workerLoop_move h
  | submit j => exact submit_move h
  | notifyOne j wakes =>
    obtain ⟨hpc, h⟩ := Option.ite_none_right_eq_some.1 h
    obtain ⟨s₁, hs₁, rfl⟩ := Option.map_eq_some_iff.1 h
    cases wakes with
    | some i =>
      obtain ⟨hparked, h⟩ := Option.ite_none_right_eq_some.1 hs₁
      cases h
      exact .notifyOne hpc hparked
    | none =>
      obtain ⟨hparked, h⟩ := Option.ite_none_right_eq_some.1 hs₁
      cases h
      exact .notifyNone hpc hparked
  | shutdown k => exact shutdown_move h
  | spurious i =>
    obtain ⟨hpc, h⟩ := Option.ite_none_right_eq_some.1 h
    cases h
    exact .spurious hpc

/-- What is the same for a parked worker and a woken one is not changed by `notify_all`. -/
theorem notifyAll_view {β : Type} (f : WorkerPc → β) (hf : f .woken = f .parked) (s : ThreadPool n) (i : Fin n) :
    f (s.notifyAll.workers i) = f (s.workers i) := by
  show f (if s.workers i = .parked then .woken else s.workers i) = f (s.workers i)
  by_cases hparked : s.workers i = .parked
  · rw [if_pos hparked, hparked, hf]
  · rw [if_neg hparked]

/-! ## The mutex -/

/-- Which threads have the mutex by where they are. -/
def inside (s : ThreadPool n) : Fin n ⊕ Nat → Bool :=
  Sum.elim (fun i => (s.workers i).inside) (fun j => (s.submits j).inside)

def Locking (s : ThreadPool n) : Prop := Locked s.mutex s.inside

section Locking

variable {s s' : ThreadPool n} {e : ThreadEvent n} {i : Fin n} {j : Nat}

theorem inside_worker {pc : WorkerPc} (hpc : s.workers i = pc) : s.inside (.inl i) = pc.inside :=
  congrArg WorkerPc.inside hpc

theorem inside_submit {pc : SubmitPc} (hpc : s.submits j = pc) : s.inside (.inr j) = pc.inside :=
  congrArg SubmitPc.inside hpc

theorem locking_worker {pc : WorkerPc} (hw : s'.workers = update s.workers i pc) (hs : s'.submits = s.submits)
    (h : Locked s'.mutex (update s.inside (.inl i) pc.inside)) : Locking s' := by
  have hinside : s'.inside = update s.inside (.inl i) pc.inside := by
    unfold inside
    rw [hs, Sum.update_elim_inl]
    refine congrArg (Sum.elim · _) (funext fun i' => ?_)
    rw [hw]
    exact apply_update (fun _ => WorkerPc.inside) s.workers i pc i'
  unfold Locking
  rwa [hinside]

theorem locking_submit {pc : SubmitPc} (hs : s'.submits = update s.submits j pc) (hw : s'.workers = s.workers)
    (h : Locked s'.mutex (update s.inside (.inr j) pc.inside)) : Locking s' := by
  have hinside : s'.inside = update s.inside (.inr j) pc.inside := by
    unfold inside
    rw [hw, Sum.update_elim_inr]
    refine congrArg (Sum.elim _) (funext fun j' => ?_)
    rw [hs]
    exact apply_update (fun _ => SubmitPc.inside) s.submits j pc j'
  unfold Locking
  rwa [hinside]

theorem Move.locking (h : Move s e s') (hl : Locking s) : Locking s' := by
  cases h with
  | lock _ hfree => exact locking_worker rfl rfl (hl.acquire hfree rfl)
  | ready hpc | unready hpc | leave hpc | stay hpc | pop hpc | run hpc | spurious hpc =>
    exact locking_worker rfl rfl (hl.keep (inside_worker hpc).symm)
  | park hpc | unlock hpc | exit hpc => exact locking_worker rfl rfl (hl.release (inside_worker hpc) rfl)
  | submitLock _ hfree => exact locking_submit rfl rfl (hl.acquire hfree rfl)
  | check hpc | refuse hpc | push hpc | notifyNone hpc =>
    exact locking_submit rfl rfl (hl.keep (inside_submit hpc).symm)
  | submitUnlock hpc | refused hpc => exact locking_submit rfl rfl (hl.release (inside_submit hpc) rfl)
  | notifyOne hpc hparked =>
    have hwoken : Locking (s.setWorker _ .woken) := locking_worker rfl rfl (hl.keep (inside_worker hparked).symm)
    exact locking_submit rfl rfl (hwoken.keep (inside_submit hpc).symm)
  | notifyAll hpc =>
    have hinside : s.notifyAll.inside = s.inside := by
      unfold inside
      exact congrArg (Sum.elim · _) (funext fun i => notifyAll_view WorkerPc.inside rfl s i)
    unfold Locking at hl
    rw [← hinside] at hl
    exact hl
  | raise | lose | join => exact hl

end Locking

/-! ## The queue -/

/-- What has been accepted is what has been popped and then the queue, one task for each call of
`submit` that has come past its push. -/
structure Queued (s : ThreadPool n) : Prop where
  fifo : s.accepted = s.popped ++ s.tasks
  nodup : s.accepted.Nodup
  mem : ∀ j, j ∈ s.accepted ↔ (s.submits j).accepted = true

/-- The task a worker has in its hands. -/
def held (s : ThreadPool n) (i : Fin n) : Option Nat := (s.workers i).task?

section Queue

variable {s s' : ThreadPool n} {e : ThreadEvent n} {i : Fin n} {j : Nat}

theorem Queued.setSubmit {pc : SubmitPc} (hq : Queued s) (hpc : pc.accepted = (s.submits j).accepted) :
    ∀ j', j' ∈ s.accepted ↔ (update s.submits j pc j').accepted = true := by
  intro j'
  rw [hq.mem j']
  by_cases hj : j' = j
  · subst hj
    rw [update_self, hpc]
  · rw [update_of_ne hj]

theorem Move.queued (h : Move s e s') (hq : Queued s) : Queued s' := by
  cases h with
  | @push j hpc =>
    have hnew : j ∉ s.accepted := by
      rw [hq.mem j, hpc]
      decide
    refine ⟨?_, ?_, ?_⟩
    · show s.accepted ++ [j] = s.popped ++ (s.tasks ++ [j])
      rw [hq.fifo, List.append_assoc]
    · show (s.accepted ++ [j]).Nodup
      rw [← List.concat_eq_append]
      exact hq.nodup.concat hnew
    · intro j'
      show j' ∈ s.accepted ++ [j] ↔ (update s.submits j .pushed j').accepted = true
      rw [List.mem_append, List.mem_singleton, hq.mem j']
      by_cases hj : j' = j
      · subst hj
        simp [SubmitPc.accepted]
      · simp [hj]
  | @pop i task rest hpc htasks =>
    refine ⟨?_, hq.nodup, hq.mem⟩
    show s.accepted = s.popped ++ [task] ++ rest
    rw [hq.fifo, htasks, List.append_assoc, List.singleton_append]
  | submitLock hpc | check hpc | refuse hpc | submitUnlock hpc | refused hpc | notifyOne hpc | notifyNone hpc =>
    exact ⟨hq.fifo, hq.nodup, hq.setSubmit (by rw [hpc]; rfl)⟩
  | lock | ready | unready | park | leave | stay | unlock | run | exit | raise | notifyAll | lose | join
  | spurious => exact ⟨hq.fifo, hq.nodup, hq.mem⟩

theorem held_worker {pc : WorkerPc} (hpc : s.workers i = pc) : s.held i = pc.task? := congrArg WorkerPc.task? hpc

theorem holding_worker {pc : WorkerPc} (hw : s'.workers = update s.workers i pc)
    (h : Holding (update s.held i pc.task?) s'.popped s'.ran) : Holding s'.held s'.popped s'.ran := by
  have hheld : s'.held = update s.held i pc.task? := by
    funext i'
    unfold held
    rw [hw]
    exact apply_update (fun _ => WorkerPc.task?) s.workers i pc i'
  rwa [hheld]

theorem Move.holding (h : Move s e s') (hq : Queued s) (hh : Holding s.held s.popped s.ran) :
    Holding s'.held s'.popped s'.ran := by
  cases h with
  | @pop i task rest hpc htasks =>
    have hnew : task ∉ s.popped := by
      have hnodup := hq.nodup
      rw [hq.fifo, htasks] at hnodup
      exact fun hmem => List.disjoint_of_nodup_append hnodup hmem List.mem_cons_self
    exact holding_worker rfl (hh.take (held_worker hpc) hnew)
  | run hpc => exact holding_worker rfl (hh.finish (held_worker hpc))
  | lock hpc =>
    rcases hpc with hpc | hpc <;> exact holding_worker rfl (hh.keep (held_worker hpc).symm)
  | ready hpc | unready hpc | park hpc | leave hpc | stay hpc | unlock hpc | exit hpc | spurious hpc
  | notifyOne _ hpc => exact holding_worker rfl (hh.keep (held_worker hpc).symm)
  | notifyAll =>
    have hheld : s.notifyAll.held = s.held := funext fun i => notifyAll_view WorkerPc.task? rfl s i
    rw [← hheld] at hh
    exact hh
  | submitLock | check | refuse | push | submitUnlock | refused | notifyNone | raise | lose | join => exact hh

end Queue

/-! ## Workers that leave -/

/-- Nothing is left to do, and nothing more will be accepted. -/
structure Drained (s : ThreadPool n) : Prop where
  flag : s.flag = true
  tasks : s.tasks = []
  unchecked : ∀ j, s.submits j ≠ .checked

section Leaving

variable {s s' : ThreadPool n} {e : ThreadEvent n} {i : Fin n}

theorem Drained.setSubmit {j : Nat} {pc : SubmitPc} (hd : Drained s) (hpc : pc ≠ .checked) :
    ∀ j', update s.submits j pc j' ≠ .checked := by
  intro j' hj'
  rcases update_eq_iff.1 hj' with ⟨-, hj'⟩ | ⟨-, hj'⟩
  · exact hpc hj'
  · exact hd.unchecked j' hj'

theorem Move.drained (h : Move s e s') (hd : Drained s) : Drained s' := by
  cases h with
  | pop _ htasks =>
    rw [hd.tasks] at htasks
    cases htasks
  | check _ hflag =>
    rw [hd.flag] at hflag
    cases hflag
  | @push j hpc => exact absurd hpc (hd.unchecked j)
  | submitLock | refuse | submitUnlock | refused | notifyOne | notifyNone =>
    exact ⟨hd.flag, hd.tasks, hd.setSubmit (by decide)⟩
  | raise => exact ⟨rfl, hd.tasks, hd.unchecked⟩
  | lock | ready | unready | park | leave | stay | unlock | run | exit | notifyAll | lose | join | spurious =>
    exact ⟨hd.flag, hd.tasks, hd.unchecked⟩

theorem gone_setWorker {k : Fin n} {pc : WorkerPc} (hpc : pc.gone = false)
    (hgone : (update s.workers k pc i).gone = true) : (s.workers i).gone = true := by
  by_cases hi : i = k
  · subst hi
    rw [update_self, hpc] at hgone
    cases hgone
  · rwa [update_of_ne hi] at hgone

/-- A worker leaves with the mutex, so that no call of `submit` is between its check and its push. -/
theorem Move.gone (h : Move s e s') (hl : Locking s) (hgone : (s'.workers i).gone = true) :
    (s.workers i).gone = true ∨ Drained s' := by
  cases h with
  | @leave k hpc hflag htasks =>
    refine .inr ⟨hflag, htasks, fun j hj => ?_⟩
    have hchecked : s.inside (.inr j) = true := inside_submit hj
    cases hl.exclusive (inside_worker hpc) hchecked
  | @exit k hpc =>
    by_cases hi : i = k
    · subst hi
      exact .inl (by rw [hpc]; rfl)
    · exact .inl (by rwa [← update_of_ne hi .exited s.workers])
  | notifyAll => exact .inl ((notifyAll_view WorkerPc.gone rfl s i).symm.trans hgone)
  | lock | ready | unready | park | stay | pop | unlock | run | notifyOne | spurious =>
    exact .inl (gone_setWorker rfl hgone)
  | submitLock | check | refuse | push | submitUnlock | refused | notifyNone | raise | lose | join =>
    exact .inl hgone

end Leaving

/-! ## The front of the queue -/

/-- A worker behind `cv_.wait` has a reason to be there. -/
structure Ready (s : ThreadPool n) : Prop where
  awake : ∀ i, s.workers i = .awake → s.flag = true ∨ s.tasks ≠ []
  taking : ∀ i, s.workers i = .taking → s.tasks ≠ []

section Front

variable {s s' : ThreadPool n} {e : ThreadEvent n} {i : Fin n}

theorem Ready.setWorker {pc : WorkerPc} (hr : Ready s)
    (hawake : pc = .awake → s.flag = true ∨ s.tasks ≠ []) (htaking : pc = .taking → s.tasks ≠ []) :
    Ready (s.setWorker i pc) := by
  constructor <;> intro i' hi' <;> rcases update_eq_iff.1 hi' with ⟨-, hpc⟩ | ⟨-, hi'⟩
  · exact hawake hpc
  · exact hr.awake i' hi'
  · exact htaking hpc
  · exact hr.taking i' hi'

/-- The worker that pops is the only one behind `cv_.wait`. -/
theorem Ready.pop {task : Nat} {rest : List Nat} (hl : Locking s) (hpc : s.workers i = .taking) :
    Ready { s.setWorker i (.took task) with tasks := rest, popped := s.popped ++ [task] } := by
  have hother : ∀ i' pc, pc.inside = true → pc ≠ .took task → update s.workers i (.took task) i' ≠ pc := by
    intro i' pc hin hpc' hi'
    rcases update_eq_iff.1 hi' with ⟨-, rfl⟩ | ⟨hi, hi'⟩
    · exact hpc' rfl
    · exact hi (Sum.inl.inj (hl.exclusive ((inside_worker hi').trans hin) (inside_worker hpc)))
  constructor <;> intro i' hi'
  · exact absurd hi' (hother i' _ rfl (by simp))
  · exact absurd hi' (hother i' _ rfl (by simp))

theorem Move.ready_of (h : Move s e s') (hl : Locking s) (hr : Ready s) : Ready s' := by
  cases h with
  | ready _ hready => exact hr.setWorker (fun _ => hready) (by simp)
  | @stay i hpc hstay =>
    refine hr.setWorker (by simp) fun _ htasks => ?_
    rcases hr.awake i hpc with hflag | hne
    · exact hstay ⟨hflag, htasks⟩
    · exact hne htasks
  | pop hpc => exact Ready.pop hl hpc
  | push => exact ⟨fun _ _ => .inr (by simp), fun _ _ => by simp⟩
  | raise => exact ⟨fun _ _ => .inl rfl, hr.taking⟩
  | notifyAll =>
    constructor <;> intro i hi
    · exact hr.awake i ((notifyAll_view (· = .awake) (by simp) s i).mp hi)
    · exact hr.taking i ((notifyAll_view (· = .taking) (by simp) s i).mp hi)
  | lock | unready | park | leave | unlock | run | exit | notifyOne | spurious =>
    exact ⟨(hr.setWorker (by simp) (by simp)).awake, (hr.setWorker (by simp) (by simp)).taking⟩
  | submitLock | check | refuse | submitUnlock | refused | notifyNone | lose | join => exact ⟨hr.awake, hr.taking⟩

end Front

/-! ## Runs -/

structure Sound (s : ThreadPool n) : Prop where
  locking : Locking s
  ready : Ready s
  queued : Queued s
  holding : Holding s.held s.popped s.ran
  drained : ∀ i, (s.workers i).gone = true → Drained s

theorem Sound.start (n : Nat) : Sound (start n) := by
  refine ⟨?_, ⟨?_, ?_⟩, ⟨rfl, List.nodup_nil, ?_⟩, Holding.start, ?_⟩
  · rintro (i | j) <;> simp [inside, ThreadPool.start, WorkerPc.inside, SubmitPc.inside]
  · simp [ThreadPool.start]
  · simp [ThreadPool.start]
  · simp [ThreadPool.start, SubmitPc.accepted]
  · simp [ThreadPool.start, WorkerPc.gone]

theorem Sound.move {s s' : ThreadPool n} {e : ThreadEvent n} (hs : Sound s) (h : Move s e s') : Sound s' := by
  refine ⟨h.locking hs.locking, h.ready_of hs.locking hs.ready, h.queued hs.queued,
    h.holding hs.queued hs.holding, fun i hgone => ?_⟩
  -- a worker that had left before found nothing to do then, and nothing has come since
  rcases h.gone hs.locking hgone with hgone | hd
  · exact h.drained (hs.drained i hgone)
  · exact hd

theorem sound_of_runs {es : List (ThreadEvent n)} {s : ThreadPool n} {C : ThreadPool n → ThreadEvent n → Prop}
    (h : Runs step C (start n) es s) : Sound s :=
  h.invariant (fun _ _ _ hs _ hstep => hs.move (step_move hstep)) (Sound.start n)

/-- `tasks_.front()` is never called on an empty queue. -/
theorem taking_of_runs {es : List (ThreadEvent n)} {s : ThreadPool n}
    (h : Runs step (fun _ _ => True) (start n) es s) {i : Fin n} (hi : s.workers i = .taking) : s.tasks ≠ [] :=
  (sound_of_runs h).ready.taking i hi

/-- No accepted task is lost or run twice, whatever the threads do: tasks are popped in the order they
were accepted, each at most once, a refused one is never run, and when all workers have exited every
accepted task has been run exactly once. -/
theorem accepted_tasks_run_once {es : List (ThreadEvent n)} {s : ThreadPool n}
    (h : Runs step (fun _ _ => True) (start n) es s) :
    (∀ j, j ∈ s.accepted ↔ (s.submits j).accepted = true) ∧ s.accepted.Nodup ∧ s.popped.Nodup ∧
      s.popped <+: s.accepted ∧
      (∀ j, s.submits j = .refused → j ∉ s.popped ∧ j ∉ s.ran ∧ ∀ i, s.workers i ≠ .running j) ∧
      (∀ j, s.ran.count j ≤ 1) ∧
      (0 < n → (∀ i, s.workers i = .exited) → ∀ j ∈ s.accepted, s.ran.count j = 1) := by
  have hs := sound_of_runs h
  have horder : s.popped <+: s.accepted := ⟨s.tasks, hs.queued.fifo.symm⟩
  refine ⟨hs.queued.mem, hs.queued.nodup, hs.holding.taken_nodup, horder, ?_, ?_, ?_⟩
  · intro j hj
    have hpopped : j ∉ s.popped := by
      intro hmem
      have hacc := (hs.queued.mem j).1 (horder.subset hmem)
      rw [hj] at hacc
      cases hacc
    refine ⟨hpopped, fun hran => ?_, fun i hi => ?_⟩
    · exact hpopped ((hs.holding.mem_taken j).2 (.inl hran))
    · exact hpopped (hs.holding.mem_of_held (held_worker hi))
  · exact List.nodup_iff_count_le_one.1 hs.holding.done_nodup
  · -- a worker has left, so the queue is empty and what was accepted has been popped
    intro hn hexited j hj
    have hd : Drained s := hs.drained ⟨0, hn⟩ (by rw [hexited]; rfl)
    have hperm : s.ran.Perm s.popped := hs.holding.done_perm fun i => held_worker (hexited i)
    have hpopped : s.accepted = s.popped := by rw [hs.queued.fifo, hd.tasks, List.append_nil]
    rw [hperm.count_eq, ← hpopped]
    exact List.count_eq_one_of_mem hs.queued.nodup hj

/-- A step of the worker of a pool with one. -/
def loneWorker : ThreadEvent 1 := .worker 0

/-- One worker and two calls of `submit`, the second after `shutdown` has set the flag. -/
def twoSubmits : List (ThreadEvent 1) :=
  List.replicate 4 (.submit 0) ++ [.notifyOne 0 none] ++ List.replicate 2 (.shutdown 0) ++
    List.replicate 3 (.submit 1) ++ List.replicate 10 loneWorker

theorem accepted_tasks_run_once_twoSubmits :
    ∃ s, Runs step (fun _ _ => True) (start 1) twoSubmits s ∧ s.workers 0 = .exited ∧ s.submits 1 = .refused ∧
      s.ran.count 0 = 1 ∧ 1 ∉ s.ran := by
  obtain ⟨s, hrun, hexited, haccepted, hrefused⟩ :
      ∃ s, Runs step (fun _ _ => True) (start 1) twoSubmits s ∧ (∀ i, s.workers i = .exited) ∧
        0 ∈ s.accepted ∧ s.submits 1 = .refused := exists_runs (by decide)
  obtain ⟨-, -, -, -, hnever, -, honce⟩ := accepted_tasks_run_once hrun
  exact ⟨s, hrun, hexited 0, hrefused, honce Nat.one_pos hexited 0 haccepted, (hnever 1 hrefused).2.1⟩

end ThreadPool

end KvStore
