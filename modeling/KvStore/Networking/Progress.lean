/-
The thread pool gets its work done. With finitely many calls of `submit` and `shutdown`, and no wake-up
out of nowhere, every run ends after a bounded number of steps (`runs_bounded`); and where no thread can
take a step, whatever woke up on the way, every call of `submit` has returned and every accepted task has
been run, whether or not the pool was shut down (`quiet_all_done`). A parked worker is not to blame for a
task in the queue: some other worker is awake, or the call that pushed the task has still to notify.
-/
import KvStore.Networking.ThreadPool

namespace KvStore

open Custody Function Machine

/-- The worker will look at the queue again without being notified. -/
def WorkerPc.active : WorkerPc → Bool
  | idle | waiting | woken | awake | taking | took _ | running _ => true
  | willPark | parked | leaving | exited => false

namespace ThreadPool

variable {n : Nat} {s s' : ThreadPool n} {e : ThreadEvent n}

/-! ## Nobody sleeps over a task -/

/-- A worker about to park has found the queue empty, and it has the mutex. -/
def Parking (s : ThreadPool n) : Prop := ∀ i, s.workers i = .willPark → s.tasks = []

/-- A task in the queue will be seen. -/
def Attended (s : ThreadPool n) : Prop :=
  s.tasks ≠ [] → (∃ i, (s.workers i).active = true) ∨ ∃ j, s.submits j = .pushed ∨ s.submits j = .notifying

theorem Parking.setWorker {i : Fin n} {pc : WorkerPc} (hp : Parking s) (hpc : pc ≠ .willPark) :
    ∀ i', update s.workers i pc i' = .willPark → s.tasks = [] := by
  intro i' hi'
  rcases update_eq_iff.1 hi' with ⟨-, hi'⟩ | ⟨-, hi'⟩
  · exact absurd hi' hpc
  · exact hp i' hi'

theorem Move.parking (h : Move s e s') (hl : Locking s) (hp : Parking s) : Parking s' := by
  cases h with
  | unready _ _ htasks => exact fun _ _ => htasks
  | @push j hpc =>
    -- both would have the mutex
    intro i hi
    have hwill : s.inside (.inl i) = true := inside_worker hi
    cases hl.exclusive hwill (inside_submit hpc)
  | pop hpc htasks =>
    intro i' hi'
    rw [hp.setWorker (by simp) i' hi'] at htasks
    cases htasks
  | notifyAll => exact fun i hi => hp i ((notifyAll_view (· = .willPark) (by simp) s i).mp hi)
  | lock | ready | park | leave | stay | unlock | run | exit | notifyOne | spurious => exact hp.setWorker (by simp)
  | submitLock | check | refuse | submitUnlock | refused | notifyNone | raise | lose | join => exact hp

/-- A worker that is not parked when there is a task is active. -/
theorem active_of_not_parked (hs : Sound s) (hp : Parking s) (htasks : s.tasks ≠ []) {i : Fin n}
    (hi : s.workers i ≠ .parked) : (s.workers i).active = true := by
  have hgone : (s.workers i).gone ≠ true := fun hgone => htasks (hs.drained i hgone).tasks
  have hwill : s.workers i ≠ .willPark := fun hwill => htasks (hp i hwill)
  cases hpc : s.workers i <;> simp_all [WorkerPc.active, WorkerPc.gone]

theorem active_update {workers : Fin n → WorkerPc} {i : Fin n} {pc : WorkerPc} (hpc : pc.active = true) :
    ∃ i', (update workers i pc i').active = true :=
  ⟨i, by rw [update_self]; exact hpc⟩

theorem Attended.setSubmit {j : Nat} {pc : SubmitPc} (ha : Attended s) (htasks : s.tasks ≠ [])
    (hpc : s.submits j ≠ .pushed ∧ s.submits j ≠ .notifying) :
    (∃ i, (s.workers i).active = true) ∨
      ∃ j', update s.submits j pc j' = .pushed ∨ update s.submits j pc j' = .notifying := by
  rcases ha htasks with hactive | ⟨j', hj'⟩
  · exact .inl hactive
  · right
    refine ⟨j', ?_⟩
    rw [update_of_ne]
    · exact hj'
    · rintro rfl
      rcases hj' with hj' | hj'
      · exact hpc.1 hj'
      · exact hpc.2 hj'

theorem Move.attended (hn : 0 < n) (h : Move s e s') (hs : Sound s) (hp : Parking s) (ha : Attended s) :
    Attended s' := by
  intro htasks
  cases h with
  | @push j => exact .inr ⟨j, .inl (update_self ..)⟩
  | @submitUnlock j => exact .inr ⟨j, .inr (update_self ..)⟩
  | lock | ready | stay | pop | unlock | run | spurious | notifyOne => exact .inl (active_update rfl)
  | unready _ _ hnil => exact absurd hnil htasks
  | @park i hpc => exact absurd (hp i hpc) htasks
  | leave _ _ hnil => exact absurd hnil htasks
  | @exit i hpc => exact absurd (hs.drained i (by rw [hpc]; rfl)).tasks htasks
  | submitLock hpc | check hpc | refuse hpc | refused hpc => exact ha.setSubmit htasks (by simp [hpc])
  | notifyNone _ hparked => exact .inl ⟨⟨0, hn⟩, active_of_not_parked hs hp htasks (hparked _)⟩
  | notifyAll =>
    rcases ha htasks with ⟨i, hi⟩ | hj
    · refine .inl ⟨i, ?_⟩
      have hparked : s.workers i ≠ .parked := by
        intro hparked
        rw [hparked] at hi
        cases hi
      show (if s.workers i = .parked then WorkerPc.woken else s.workers i).active = true
      rw [if_neg hparked]
      exact hi
    · exact .inr hj
  | raise | lose | join => exact ha htasks

/-! ## A bound on the number of steps -/

/-- The calls that are made, and no wake-up out of nowhere. -/
def Uses (submits shutdowns : Finset Nat) : ThreadEvent n → Prop
  | .worker _ => True
  | .submit j => j ∈ submits
  | .notifyOne j _ => j ∈ submits
  | .shutdown k => k ∈ shutdowns
  | .spurious _ => False

instance (submits shutdowns : Finset Nat) : (e : ThreadEvent n) → Decidable (Uses submits shutdowns e)
  | .worker _ => .isTrue trivial
  | .submit j => inferInstanceAs (Decidable (j ∈ submits))
  | .notifyOne j _ => inferInstanceAs (Decidable (j ∈ submits))
  | .shutdown k => inferInstanceAs (Decidable (k ∈ shutdowns))
  | .spurious _ => .isFalse id

/-- The calls that are made, with any wake-ups out of nowhere. -/
def Makes (submits shutdowns : Finset Nat) : ThreadEvent n → Prop
  | .spurious _ => True
  | e => Uses submits shutdowns e

instance (submits shutdowns : Finset Nat) : (e : ThreadEvent n) → Decidable (Makes submits shutdowns e)
  | .spurious _ => .isTrue trivial
  | .worker _ => .isTrue trivial
  | .submit j => inferInstanceAs (Decidable (j ∈ submits))
  | .notifyOne j _ => inferInstanceAs (Decidable (j ∈ submits))
  | .shutdown k => inferInstanceAs (Decidable (k ∈ shutdowns))

/-- How many steps a worker may still take before it needs a notification or a task. -/
def workerWeight : WorkerPc → Nat
  | .parked | .exited => 0
  | .willPark | .leaving => 1
  | .taking => 2
  | .awake => 3
  | .waiting => 4
  | .idle | .woken => 5
  | .running _ => 6
  | .took _ => 7

/-- A task in the queue makes a worker take six more steps, a notification five. -/
def submitWeight : SubmitPc → Nat
  | .returned | .refused => 0
  | .refusing => 1
  | .notifying => 6
  | .pushed => 7
  | .checked => 14
  | .locked => 15
  | .idle => 16

def shutdownWeight (n : Nat) : ShutdownPc → Nat
  | .returned => 0
  | .joining => 1
  | .notifying => 5 * n + 2
  | .idle => 5 * n + 3

/-- The steps that are left, at most. -/
def energy (submits shutdowns : Finset Nat) (s : ThreadPool n) : Nat :=
  (∑ i, workerWeight (s.workers i)) + (∑ j ∈ submits, submitWeight (s.submits j)) +
    (∑ k ∈ shutdowns, shutdownWeight n (s.shutdowns k)) + 6 * s.tasks.length

section Energy

variable {J K : Finset Nat}

theorem energy_worker {i : Fin n} {pc : WorkerPc} (hw : s'.workers = update s.workers i pc)
    (hs : s'.submits = s.submits) (hk : s'.shutdowns = s.shutdowns)
    (hlt : workerWeight pc + 6 * s'.tasks.length < workerWeight (s.workers i) + 6 * s.tasks.length) :
    energy J K s' < energy J K s := by
  have hsum := sum_update_add (w := workerWeight) (f := s.workers) (Finset.mem_univ i) pc
  unfold energy
  rw [hw, hs, hk]
  omega

theorem energy_submit {j : Nat} {pc : SubmitPc} (hs : s'.submits = update s.submits j pc) (hj : j ∈ J)
    (hk : s'.shutdowns = s.shutdowns)
    (hlt : (∑ i, workerWeight (s'.workers i)) + submitWeight pc + 6 * s'.tasks.length <
      (∑ i, workerWeight (s.workers i)) + submitWeight (s.submits j) + 6 * s.tasks.length) :
    energy J K s' < energy J K s := by
  have hsum := sum_update_add (w := submitWeight) (f := s.submits) hj pc
  unfold energy
  rw [hs, hk]
  omega

theorem energy_shutdown {k : Nat} {pc : ShutdownPc} (hk : s'.shutdowns = update s.shutdowns k pc) (hK : k ∈ K)
    (hs : s'.submits = s.submits) (ht : s'.tasks = s.tasks)
    (hlt : (∑ i, workerWeight (s'.workers i)) + shutdownWeight n pc <
      (∑ i, workerWeight (s.workers i)) + shutdownWeight n (s.shutdowns k)) :
    energy J K s' < energy J K s := by
  have hsum := sum_update_add (w := shutdownWeight n) (f := s.shutdowns) hK pc
  unfold energy
  rw [hs, hk, ht]
  omega

/-- A notification wakes every worker at most once. -/
theorem workerWeight_notifyAll (s : ThreadPool n) :
    ∑ i, workerWeight (s.notifyAll.workers i) ≤ (∑ i, workerWeight (s.workers i)) + 5 * n := by
  have hle : ∀ i, workerWeight (s.notifyAll.workers i) ≤ workerWeight (s.workers i) + 5 := by
    intro i
    show workerWeight (if s.workers i = .parked then .woken else s.workers i) ≤ _
    split
    · exact Nat.le_add_left 5 _
    · exact Nat.le_add_right _ 5
  calc ∑ i, workerWeight (s.notifyAll.workers i) ≤ ∑ i, (workerWeight (s.workers i) + 5) :=
        Finset.sum_le_sum fun i _ => hle i
    _ = (∑ i, workerWeight (s.workers i)) + 5 * n := by
        rw [Finset.sum_add_distrib, Finset.sum_const, Finset.card_univ, Fintype.card_fin, smul_eq_mul, mul_comm]

/-- Every step uses some of it up. -/
theorem Move.energy_lt (h : Move s e s') (hu : Uses J K e) : energy J K s' < energy J K s := by
  cases h with
  | lock hpc => rcases hpc with hpc | hpc <;> exact energy_worker rfl rfl rfl (by simp [hpc, workerWeight, setWorker])
  | ready hpc | unready hpc | park hpc | leave hpc | stay hpc | unlock hpc | run hpc | exit hpc =>
    exact energy_worker rfl rfl rfl (by simp [hpc, workerWeight, setWorker])
  | pop hpc htasks => exact energy_worker rfl rfl rfl (by simp [hpc, htasks, workerWeight]; omega)
  | spurious => exact absurd hu id
  | submitLock hpc | check hpc | refuse hpc | submitUnlock hpc | refused hpc | notifyNone hpc =>
    exact energy_submit rfl hu rfl (by simp [hpc, submitWeight, setSubmit])
  | push hpc => exact energy_submit rfl hu rfl (by simp [hpc, submitWeight, setSubmit]; omega)
  | @notifyOne j i hpc hparked =>
    have hsum := sum_update_add (w := workerWeight) (f := s.workers) (Finset.mem_univ i) .woken
    rw [hparked] at hsum
    refine energy_submit rfl hu rfl ?_
    simp only [setWorker, setSubmit, hpc, submitWeight, workerWeight] at hsum ⊢
    omega
  | raise hpc | lose hpc | join hpc =>
    exact energy_shutdown rfl hu rfl rfl (by simp [hpc, shutdownWeight, setShutdown])
  | notifyAll hpc =>
    refine energy_shutdown rfl hu rfl rfl ?_
    have hle := workerWeight_notifyAll s
    simp only [setShutdown, hpc, shutdownWeight] at hle ⊢
    omega

end Energy

theorem energy_start (J K : Finset Nat) : energy J K (start n) = 5 * n + 16 * J.card + (5 * n + 3) * K.card := by
  simp [energy, start, workerWeight, submitWeight, shutdownWeight, mul_comm]

/-- With finitely many calls and no wake-up out of nowhere the pool comes to rest: no run is longer than
a bound that depends on the number of workers and calls only. -/
theorem runs_bounded {J K : Finset Nat} {es : List (ThreadEvent n)}
    (h : Runs step (fun _ e => Uses J K e) (start n) es s) :
    es.length ≤ 5 * n + 16 * J.card + (5 * n + 3) * K.card := by
  have hle := h.length_add_le (μ := energy J K) fun s e s' hu hstep => (step_move hstep).energy_lt hu
  rw [energy_start] at hle
  omega

/-- Two calls of `submit`, one worker and one shutdown. -/
theorem runs_bounded_twoSubmits :
    (∃ s, Runs step (fun _ e => Uses {0, 1} {0} e) (start 1) twoSubmits s) ∧ twoSubmits.length ≤ 45 := by
  obtain ⟨s, hrun, -⟩ : ∃ s, Runs step (fun _ e => Uses {0, 1} {0} e) (start 1) twoSubmits s ∧ True :=
    exists_runs (by decide)
  exact ⟨⟨s, hrun⟩, runs_bounded hrun⟩

/-! ## At rest -/

/-- No thread can take a step. -/
def Quiet (J K : Finset Nat) (s : ThreadPool n) : Prop := ∀ e, Uses J K e → s.step e = none

/-- A worker with the mutex goes on. -/
theorem exists_step_worker (hr : Ready s) {i : Fin n} (hin : (s.workers i).inside = true) :
    ∃ s', s.step (.worker i) = some s' := by
  cases hpc : s.workers i with
  | idle | parked | woken | running _ | exited =>
    rw [hpc] at hin
    cases hin
  | waiting | willPark | awake | took _ | leaving => exact ⟨_, by simp only [step, workerLoop, hpc]; rfl⟩
  | taking =>
    obtain ⟨task, rest, htasks⟩ := List.exists_cons_of_ne_nil (hr.taking i hpc)
    exact ⟨_, by simp only [step, workerLoop, hpc, htasks]; rfl⟩

/-- So does a call of `submit`. -/
theorem exists_step_submit {j : Nat} (hin : (s.submits j).inside = true) : ∃ s', s.step (.submit j) = some s' := by
  cases hpc : s.submits j with
  | idle | notifying | returned | refused =>
    rw [hpc] at hin
    cases hin
  | locked | checked | pushed | refusing => exact ⟨_, by simp only [step, submit, hpc]; rfl⟩

/-- A notification finds a parked worker or finds that there is none. -/
theorem exists_step_notify {j : Nat} (hj : s.submits j = .notifying) :
    ∃ wakes s', s.step (.notifyOne j wakes) = some s' := by
  by_cases hparked : ∃ i, s.workers i = .parked
  · obtain ⟨i, hi⟩ := hparked
    exact ⟨some i, _, by simp only [step, notifyOne, hj, hi, if_true, Option.map_some]; rfl⟩
  · push Not at hparked
    exact ⟨none, _, by simp only [step, notifyOne, hj, if_pos hparked, if_true, Option.map_some]; rfl⟩

theorem Quiet.not_step {J K : Finset Nat} (hq : Quiet J K s) (e : ThreadEvent n) (hu : Uses J K e) :
    ¬ ∃ s', s.step e = some s' := by
  rintro ⟨s', hs'⟩
  rw [hq e hu] at hs'
  cases hs'

section Quiet

variable {J K : Finset Nat}

/-- The calls that are not made stay where they are. -/
theorem Move.untouched (h : Move s e s') (hu : Makes J K e) (hout : ∀ j, j ∉ J → s.submits j = .idle) :
    ∀ j, j ∉ J → s'.submits j = .idle := by
  cases h with
  | submitLock | check | refuse | push | submitUnlock | refused | notifyOne | notifyNone =>
    intro j' hj'
    refine (update_of_ne ?_ _ _).trans (hout j' hj')
    rintro rfl
    exact hj' hu
  | lock | ready | unready | park | leave | stay | pop | unlock | run | exit | raise | lose | notifyAll | join
  | spurious => exact hout

theorem Quiet.mutex (hq : Quiet J K s) (hs : Sound s) (hout : ∀ j, j ∉ J → s.submits j = .idle) : s.mutex = none := by
  cases hm : s.mutex with
  | none => rfl
  | some t =>
    have hin := (hs.locking t).2 hm
    cases t with
    | inl i => exact absurd (exists_step_worker hs.ready hin) (hq.not_step (.worker i) trivial)
    | inr j =>
      have hj : j ∈ J := by
        by_contra hj
        rw [inside_submit (hout j hj)] at hin
        cases hin
      exact absurd (exists_step_submit hin) (hq.not_step (.submit j) hj)

/-- Only parked workers and those that have left do nothing. -/
theorem Quiet.workers (hq : Quiet J K s) (hs : Sound s) (hfree : s.mutex = none) (i : Fin n) :
    s.workers i = .parked ∨ s.workers i = .exited := by
  have hstep := hq.not_step (.worker i) trivial
  cases hpc : s.workers i with
  | parked => exact .inl rfl
  | exited => exact .inr rfl
  | idle | woken => exact absurd ⟨_, by simp only [step, workerLoop, hpc, hfree, if_true]; rfl⟩ hstep
  | running task => exact absurd ⟨_, by simp only [step, workerLoop, hpc]; rfl⟩ hstep
  | waiting | willPark | awake | taking | took _ | leaving =>
    exact absurd (exists_step_worker hs.ready (by rw [hpc]; rfl)) hstep

theorem Quiet.submits (hq : Quiet J K s) (hfree : s.mutex = none) {j : Nat} (hj : j ∈ J) :
    s.submits j = .returned ∨ s.submits j = .refused := by
  have hstep := hq.not_step (.submit j) hj
  cases hpc : s.submits j with
  | returned => exact .inl rfl
  | refused => exact .inr rfl
  | idle => exact absurd ⟨_, by simp only [step, submit, hpc, hfree, if_true]; rfl⟩ hstep
  | notifying =>
    obtain ⟨wakes, hwakes⟩ := exists_step_notify hpc
    exact absurd hwakes (hq.not_step (.notifyOne j wakes) hj)
  | locked | checked | pushed | refusing => exact absurd (exists_step_submit (by rw [hpc]; rfl)) hstep

end Quiet

/-- Where a pool of at least one worker has come to rest every call of `submit` has returned, and every
task that was accepted has been run exactly once, also if `shutdown` was never called, a worker slept
through it, or workers woke up out of nowhere on the way. -/
theorem quiet_all_done (hn : 0 < n) {J K : Finset Nat} {es : List (ThreadEvent n)}
    (h : Runs step (fun _ e => Makes J K e) (start n) es s) (hq : Quiet J K s) :
    (∀ j ∈ J, s.submits j = .returned ∨ s.submits j = .refused) ∧ s.tasks = [] ∧
      (∀ j, s.submits j = .returned → s.ran.count j = 1) ∧
      ∀ i, s.workers i = .parked ∨ s.workers i = .exited := by
  have hs := sound_of_runs h
  have hinv : Sound s ∧ Parking s ∧ Attended s ∧ ∀ j, j ∉ J → s.submits j = .idle := by
    refine h.invariant (I := fun s => Sound s ∧ Parking s ∧ Attended s ∧ ∀ j, j ∉ J → s.submits j = .idle) ?_ ?_
    · rintro s₁ e s₂ ⟨hs, hp, ha, hout⟩ hu hstep
      have hmove := step_move hstep
      exact ⟨hs.move hmove, hmove.parking hs.locking hp, hmove.attended hn hs hp ha, hmove.untouched hu hout⟩
    · exact ⟨.start n, fun _ h => (by cases h), fun h => absurd rfl h, fun _ _ => rfl⟩
  obtain ⟨-, -, hattended, hout⟩ := hinv
  have hfree := hq.mutex hs hout
  have hworkers := hq.workers hs hfree
  have hsubmits : ∀ j, s.submits j ≠ .pushed ∧ s.submits j ≠ .notifying := by
    intro j
    by_cases hj : j ∈ J
    · rcases hq.submits hfree hj with hpc | hpc <;> simp [hpc]
    · simp [hout j hj]
  -- a task in the queue would have somebody to see to it
  have htasks : s.tasks = [] := by
    by_contra hne
    rcases hattended hne with ⟨i, hi⟩ | ⟨j, hj | hj⟩
    · rcases hworkers i with hpc | hpc <;> rw [hpc] at hi <;> cases hi
    · exact (hsubmits j).1 hj
    · exact (hsubmits j).2 hj
  have hheld : ∀ i, s.held i = none := by
    intro i
    rcases hworkers i with hpc | hpc <;> exact held_worker hpc
  have hperm : s.ran.Perm s.popped := hs.holding.done_perm hheld
  refine ⟨fun j hj => hq.submits hfree hj, htasks, ?_, hworkers⟩
  intro j hj
  have hacc : j ∈ s.accepted := (hs.queued.mem j).2 (by rw [hj]; rfl)
  have hpopped : s.accepted = s.popped := by rw [hs.queued.fifo, htasks, List.append_nil]
  rw [hperm.count_eq, ← hpopped]
  exact List.count_eq_one_of_mem hs.queued.nodup hacc

/-- The worker parks and wakes up out of nowhere; then two calls of `submit`, the second refused, and a
shutdown that returns. -/
def wokenEarly : List (ThreadEvent 1) :=
  List.replicate 3 loneWorker ++ [.spurious ⟨0, Nat.one_pos⟩] ++ twoSubmits ++ [.shutdown 0]

theorem quiet_all_done_wokenEarly :
    ∃ s, Runs step (fun _ e => Makes {0, 1} {0} e) (start 1) wokenEarly s ∧ Quiet {0, 1} {0} s ∧
      s.tasks = [] ∧ s.ran.count 0 = 1 := by
  obtain ⟨s, hrun, hexited, h0, h1, hk⟩ :
      ∃ s, Runs step (fun _ e => Makes {0, 1} {0} e) (start 1) wokenEarly s ∧
        (∀ i, s.workers i = .exited) ∧ s.submits 0 = .returned ∧ s.submits 1 = .refused ∧
        s.shutdowns 0 = .returned := exists_runs (by decide)
  have hq : Quiet {0, 1} {0} s := by
    rintro (i | j | ⟨j, wakes⟩ | k | i) hu
    · simp [step, workerLoop, hexited i]
    · rcases Finset.mem_insert.1 hu with rfl | hu
      · simp [step, submit, h0]
      · rw [Finset.mem_singleton.1 hu]
        simp [step, submit, h1]
    · rcases Finset.mem_insert.1 hu with rfl | hu
      · simp [step, h0]
      · rw [Finset.mem_singleton.1 hu]
        simp [step, h1]
    · rw [Finset.mem_singleton.1 hu]
      simp [step, shutdown, hk]
    · exact absurd hu id
  obtain ⟨-, htasks, hran, -⟩ := quiet_all_done Nat.one_pos hrun hq
  exact ⟨s, hrun, hq, htasks, hran 0 h0⟩

end ThreadPool

end KvStore
