/-
Waking the workers of the pool (`shutdown` and `workerLoop` of `src/networking/thread_pool.cpp`). A
worker evaluates the predicate of `cv_.wait` and parks in two steps, both with the mutex; `shutdown` sets
the flag and notifies without it. Its notification is the last one there is, and it is lost on a worker
that stands between the two steps.
-/
import KvStore.Networking.ThreadPool

namespace KvStore

open Custody Function Machine

/-- The worker is parked, or its next step parks it. -/
def WorkerPc.drowsy : WorkerPc → Bool
  | willPark | parked => true
  | _ => false

namespace ThreadPool

variable {n : Nat} {s s' : ThreadPool n} {e : ThreadEvent n} {i : Fin n}

/-! ## Staying awake -/

/-- A call of `shutdown` notifies with the flag set. -/
theorem Move.raised (h : Move s e s') (hr : ∀ k, s.shutdowns k = .notifying → s.flag = true) :
    ∀ k, s'.shutdowns k = .notifying → s'.flag = true := by
  cases h with
  | raise => exact fun _ _ => rfl
  | lose | notifyAll | join =>
    intro k' hk'
    rcases update_eq_iff.1 hk' with ⟨-, hk'⟩ | ⟨-, hk'⟩
    · cases hk'
    · exact hr k' hk'
  | lock | ready | unready | park | leave | stay | pop | unlock | run | exit | submitLock | check | refuse | push
  | submitUnlock | refused | notifyOne | notifyNone | spurious => exact hr

theorem raised_of_runs {es : List (ThreadEvent n)} {C : ThreadPool n → ThreadEvent n → Prop}
    (h : Runs step C (start n) es s) : ∀ k, s.shutdowns k = .notifying → s.flag = true := by
  refine h.invariant (I := fun s => ∀ k, s.shutdowns k = .notifying → s.flag = true) ?_ ?_
  · exact fun _ _ _ hr _ hstep => (step_move hstep).raised hr
  · rintro k ⟨⟩

/-- The flag is set, and no worker sleeps or is about to. -/
structure Awake (s : ThreadPool n) : Prop where
  flag : s.flag = true
  workers : ∀ i, (s.workers i).drowsy = false

theorem Awake.setWorker {pc : WorkerPc} (ha : Awake s) (hpc : pc.drowsy = false) :
    ∀ i', (update s.workers i pc i').drowsy = false := by
  intro i'
  by_cases hi : i' = i
  · subst hi
    rwa [update_self]
  · rw [update_of_ne hi]
    exact ha.workers i'

/-- With the flag set every predicate is true, so that nobody parks any more. -/
theorem Move.awake (h : Move s e s') (ha : Awake s) : Awake s' := by
  cases h with
  | unready _ hflag =>
    rw [ha.flag] at hflag
    cases hflag
  | @park i hpc =>
    have hi := ha.workers i
    rw [hpc] at hi
    cases hi
  | raise _ hflag => exact ⟨rfl, ha.workers⟩
  | @notifyAll k hpc =>
    refine ⟨ha.flag, fun i => ?_⟩
    by_cases hparked : s.workers i = .parked
    · simp [setShutdown, ThreadPool.notifyAll, hparked, WorkerPc.drowsy]
    · simpa [setShutdown, ThreadPool.notifyAll, hparked] using ha.workers i
  | lock | ready | leave | stay | pop | unlock | run | exit | notifyOne | spurious =>
    exact ⟨ha.flag, ha.setWorker rfl⟩
  | submitLock | check | refuse | push | submitUnlock | refused | notifyNone | lose | join =>
    exact ⟨ha.flag, ha.workers⟩

/-- From the `notify_all` of a call of `shutdown` on, no worker is or becomes parked without a
notification exactly if none of them stood between a false predicate and parking when it was made. -/
theorem shutdown_leaves_nobody_asleep_iff {es : List (ThreadEvent n)} {k : Nat}
    (hrun : Runs step (fun _ _ => True) (start n) es s) (hk : s.shutdowns k = .notifying)
    (hstep : s.step (.shutdown k) = some s') :
    (∀ es' t, Runs step (fun _ _ => True) s' es' t → ∀ i, t.workers i ≠ .parked) ↔
      ∀ i, s.workers i ≠ .willPark := by
  have hs' : s.notifyAll.setShutdown k .joining = s' := by
    simpa only [step, shutdown, hk, Option.some.injEq] using hstep
  subst hs'
  constructor
  · -- the worker parks in the next step
    intro hnever i hi
    have hpark : step (s.notifyAll.setShutdown k .joining) (.worker i) =
        some { (s.notifyAll.setShutdown k .joining).setWorker i .parked with mutex := none } := by
      have hi' : (s.notifyAll.setShutdown k .joining).workers i = .willPark := by
        simp [setShutdown, notifyAll, hi]
      simp only [step, workerLoop, hi']
    have hrun' := Runs.cons (C := fun _ _ => True) trivial hpark .refl
    exact hnever _ _ hrun' i (update_self _ _ _)
  · intro hwill es' t ht i hi
    have hflag : s.flag = true := raised_of_runs hrun k hk
    have ha : Awake (s.notifyAll.setShutdown k .joining) := by
      refine ⟨hflag, fun i => ?_⟩
      have hi := hwill i
      cases hpc : s.workers i <;> simp_all [setShutdown, notifyAll, WorkerPc.drowsy]
    have hat : Awake t := ht.invariant (fun _ _ _ ha _ hstep => (step_move hstep).awake ha) ha
    have hdrowsy := hat.workers i
    rw [hi] at hdrowsy
    cases hdrowsy

/-- A worker that parked before the flag was set. -/
def parkedFirst : List (ThreadEvent 1) := [loneWorker, loneWorker, loneWorker, .shutdown 0]

theorem shutdown_leaves_nobody_asleep_iff_parkedFirst :
    ∃ s s', Runs step (fun _ _ => True) (start 1) parkedFirst s ∧ s.workers 0 = .parked ∧
      s.step (.shutdown 0) = some s' ∧
      ∀ es' t, Runs step (fun _ _ => True) s' es' t → ∀ i, t.workers i ≠ .parked := by
  obtain ⟨s, hrun, hpc, hk⟩ : ∃ s, Runs step (fun _ _ => True) (start 1) parkedFirst s ∧
      s.workers 0 = .parked ∧ s.shutdowns 0 = .notifying := exists_runs (by decide)
  have hstep : s.step (.shutdown 0) = some (s.notifyAll.setShutdown 0 .joining) := by
    simp only [step, shutdown, hk]
  refine ⟨s, _, hrun, hpc, hstep, (shutdown_leaves_nobody_asleep_iff hrun hk hstep).2 fun i => ?_⟩
  rw [Subsingleton.elim i 0, hpc]
  decide

/-! ## A worker that sleeps for ever -/

/-- Worker `i` is parked, call `k` of `shutdown` waits for it, and no notification is on its way. -/
structure Asleep (i : Fin n) (k : Nat) (s : ThreadPool n) : Prop where
  flag : s.flag = true
  parked : s.workers i = .parked
  joining : s.shutdowns k = .joining
  submits : ∀ j, (s.submits j).accepted = false ∧ s.submits j ≠ .checked
  shutdowns : ∀ k', s.shutdowns k' ≠ .notifying

section Asleep

variable {k : Nat}

theorem Asleep.setWorker {i' : Fin n} {pc : WorkerPc} (ha : Asleep i k s) (hpc : s.workers i' ≠ .parked) :
    update s.workers i' pc i = .parked := by
  rw [update_of_ne]
  · exact ha.parked
  · rintro rfl
    exact hpc ha.parked

theorem Asleep.setSubmit {j : Nat} {pc : SubmitPc} (ha : Asleep i k s)
    (hpc : pc.accepted = false ∧ pc ≠ .checked) :
    ∀ j', (update s.submits j pc j').accepted = false ∧ update s.submits j pc j' ≠ .checked := by
  intro j'
  by_cases hj : j' = j
  · subst hj
    rwa [update_self]
  · rw [update_of_ne hj]
    exact ha.submits j'

theorem Asleep.not_notifying {j : Nat} (ha : Asleep i k s) : s.submits j ≠ .notifying := by
  intro hj
  have hacc := (ha.submits j).1
  rw [hj] at hacc
  cases hacc

/-- Without a wake-up out of nowhere the worker sleeps on: a call of `submit` is refused and does not
notify, another call of `shutdown` finds the flag set. -/
theorem Move.asleep (h : Move s e s') (he : ∀ i', e ≠ .spurious i') (ha : Asleep i k s) : Asleep i k s' := by
  have hworker : ∀ {i' pc}, s.workers i' = pc → pc ≠ .parked → s.workers i' ≠ .parked := by
    rintro i' pc rfl hpc
    exact hpc
  cases h with
  | lock hpc =>
    rcases hpc with hpc | hpc <;>
      exact ⟨ha.flag, ha.setWorker (hworker hpc (by simp)), ha.joining, ha.submits, ha.shutdowns⟩
  | ready hpc | unready hpc | park hpc | leave hpc | stay hpc | pop hpc | unlock hpc | run hpc | exit hpc =>
    exact ⟨ha.flag, ha.setWorker (hworker hpc (by simp)), ha.joining, ha.submits, ha.shutdowns⟩
  | submitLock | refuse | refused =>
    exact ⟨ha.flag, ha.parked, ha.joining, ha.setSubmit (by decide), ha.shutdowns⟩
  | check _ hflag | raise _ hflag =>
    rw [ha.flag] at hflag
    cases hflag
  | @push j hpc => exact absurd hpc (ha.submits j).2
  | @submitUnlock j hpc =>
    have hacc := (ha.submits j).1
    rw [hpc] at hacc
    cases hacc
  | notifyOne hpc | notifyNone hpc => exact absurd hpc ha.not_notifying
  | @lose k' hpc =>
    have hk : k ≠ k' := by
      rintro rfl
      rw [ha.joining] at hpc
      cases hpc
    refine ⟨ha.flag, ha.parked, (update_of_ne hk _ _).trans ha.joining, ha.submits, fun k₁ hk₁ => ?_⟩
    rcases update_eq_iff.1 hk₁ with ⟨-, hk₁⟩ | ⟨-, hk₁⟩
    · cases hk₁
    · exact ha.shutdowns k₁ hk₁
  | @notifyAll k' hpc => exact absurd hpc (ha.shutdowns k')
  | join _ hexited =>
    have hi := hexited i
    rw [ha.parked] at hi
    cases hi
  | @spurious i' => exact absurd rfl (he i')

end Asleep

/-- The worker finds the predicate false, `shutdown` sets the flag and notifies nobody, the worker parks. -/
def lostWakeup : List (ThreadEvent 1) := [loneWorker, loneWorker, .shutdown 0, .shutdown 0, loneWorker]

/-- The worker sleeps through the notification, and `shutdown` never returns from joining it. -/
theorem shutdown_hangs :
    ∃ s, Runs step (fun _ _ => True) (start 1) lostWakeup s ∧ s.workers 0 = .parked ∧
      ∀ es t, Runs step (fun _ e => ∀ i, e ≠ .spurious i) s es t →
        t.workers 0 = .parked ∧ t.shutdowns 0 = .joining := by
  obtain ⟨s, hs⟩ : ∃ s, runEvents (guarded step fun _ _ => True) (start 1) lostWakeup = some s := ⟨_, rfl⟩
  have hshutdowns : s.shutdowns = update (update (fun _ => .idle) 0 .notifying) 0 .joining := by
    cases hs
    rfl
  have ha : Asleep 0 0 s := by
    refine ⟨?_, ?_, by rw [hshutdowns, update_self], ?_, fun k hk => ?_⟩
    · cases hs
      rfl
    · cases hs
      rfl
    · cases hs
      exact fun j => ⟨rfl, by rintro ⟨⟩⟩
    · rw [hshutdowns, update_idem] at hk
      rcases update_eq_iff.1 hk with ⟨-, ⟨⟩⟩ | ⟨-, ⟨⟩⟩
  refine ⟨s, runs_of_runEvents hs, ha.parked, fun es t ht => ?_⟩
  have hat : Asleep 0 0 t := ht.invariant (fun _ _ _ ha he hstep => (step_move hstep).asleep he ha) ha
  exact ⟨hat.parked, hat.joining⟩

end ThreadPool

end KvStore
