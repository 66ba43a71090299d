/-
An object behind a readers-writer lock. A call acquires the lock, shared or exclusive, runs its
body one memory access at a time, releases the lock and returns; any number of calls run at once
and their steps interleave in any order. Each body is proved right for a call that runs alone
(`Correct`); then what the callers of the interleaved object see is linearizable. A mutex is the
case in which every call is exclusive.
-/
import KvStore.Lib.Custody
import KvStore.Lib.Linearizable
import KvStore.Lib.Machine

namespace RwLock

open Function Machine Linear Custody

variable {ι ρ μ β ε : Type}

/-- What a turn of a body comes to: more to do, or the answer. -/
inductive Turn (β ρ : Type)
  | more (b : β)
  | done (r : ρ)

/-- The code of an object: the mode each operation locks in, where its body begins, and what a turn
of a body does to the memory. A turn may depend on a choice that the code leaves open. -/
structure Impl (ι ρ μ β ε : Type) where
  exclusive : ι → Bool
  start : ι → β
  next : β → μ → ε → Option (Turn β ρ × μ)

/-- How far a call is. -/
inductive Call (ι ρ β : Type)
  | idle
  | waiting (op : ι)
  | inside (op : ι) (b : β)
  | leaving (op : ι) (r : ρ)
  | unlocked (r : ρ)
  | returned
  deriving DecidableEq

/-- The operation a call holds the lock for. -/
def Call.held : Call ι ρ β → Option ι
  | .inside op _ => some op
  | .leaving op _ => some op
  | _ => none

structure World (ι ρ μ β : Type) where
  memory : μ
  writer : Option Nat
  readers : List Nat
  calls : Nat → Call ι ρ β
  history : List (Event ι ρ)

/-- Nobody has called yet. -/
def World.start (m : μ) : World ι ρ μ β :=
  { memory := m, writer := none, readers := [], calls := fun _ => .idle, history := [] }

inductive Action (ι ε : Type)
  | invoke (id : Nat) (op : ι)
  | acquire (id : Nat)
  | turn (id : Nat) (c : ε)
  | release (id : Nat)
  | respond (id : Nat)

/-- The lock admits a writer when nobody has it, and a reader when no writer has it. -/
def step (I : Impl ι ρ μ β ε) (w : World ι ρ μ β) : Action ι ε → Option (World ι ρ μ β)
  | .invoke id op =>
    match w.calls id with
    | .idle => some { w with calls := update w.calls id (.waiting op), history := w.history ++ [.invoke id op] }
    | _ => none
  | .acquire id =>
    match w.calls id with
    | .waiting op =>
      match I.exclusive op with
      | true =>
        if w.writer = none ∧ w.readers = [] then
          some { w with writer := some id, calls := update w.calls id (.inside op (I.start op)) }
        else none
      | false =>
        if w.writer = none then
          some { w with readers := id :: w.readers, calls := update w.calls id (.inside op (I.start op)) }
        else none
    | _ => none
  | .turn id c =>
    match w.calls id with
    | .inside op b =>
      match I.next b w.memory c with
      | some (.more b', m) => some { w with memory := m, calls := update w.calls id (.inside op b') }
      | some (.done r, m) => some { w with memory := m, calls := update w.calls id (.leaving op r) }
      | none => none
    | _ => none
  | .release id =>
    match w.calls id with
    | .leaving op r =>
      match I.exclusive op with
      | true => some { w with writer := none, calls := update w.calls id (.unlocked r) }
      | false => some { w with readers := w.readers.erase id, calls := update w.calls id (.unlocked r) }
    | _ => none
  | .respond id =>
    match w.calls id with
    | .unlocked r => some { w with calls := update w.calls id .returned, history := w.history ++ [.respond id r] }
    | _ => none

/-- Everything a step can do. -/
inductive Move (I : Impl ι ρ μ β ε) (w : World ι ρ μ β) : World ι ρ μ β → Prop
  | invoke {id : Nat} {op : ι} : w.calls id = .idle →
      Move I w { w with calls := update w.calls id (.waiting op), history := w.history ++ [.invoke id op] }
  | acquireExclusive {id : Nat} {op : ι} : w.calls id = .waiting op → I.exclusive op = true → w.writer = none →
      w.readers = [] →
      Move I w { w with writer := some id, calls := update w.calls id (.inside op (I.start op)) }
  | acquireShared {id : Nat} {op : ι} : w.calls id = .waiting op → I.exclusive op = false → w.writer = none →
      Move I w { w with readers := id :: w.readers, calls := update w.calls id (.inside op (I.start op)) }
  | more {id : Nat} {op : ι} {b b' : β} {c : ε} {m : μ} : w.calls id = .inside op b →
      I.next b w.memory c = some (.more b', m) →
      Move I w { w with memory := m, calls := update w.calls id (.inside op b') }
  | done {id : Nat} {op : ι} {b : β} {c : ε} {r : ρ} {m : μ} : w.calls id = .inside op b →
      I.next b w.memory c = some (.done r, m) →
      Move I w { w with memory := m, calls := update w.calls id (.leaving op r) }
  | releaseExclusive {id : Nat} {op : ι} {r : ρ} : w.calls id = .leaving op r → I.exclusive op = true →
      Move I w { w with writer := none, calls := update w.calls id (.unlocked r) }
  | releaseShared {id : Nat} {op : ι} {r : ρ} : w.calls id = .leaving op r → I.exclusive op = false →
      Move I w { w with readers := w.readers.erase id, calls := update w.calls id (.unlocked r) }
  | respond {id : Nat} {r : ρ} : w.calls id = .unlocked r →
      Move I w { w with calls := update w.calls id .returned, history := w.history ++ [.respond id r] }

theorem step_move {I : Impl ι ρ μ β ε} {w w' : World ι ρ μ β} {a : Action ι ε} (h : step I w a = some w') :
    Move I w w' := by
  cases a with
  | invoke id op =>
    cases hc : w.calls id with
    | idle =>
      simp only [step, hc, Option.some.injEq] at h
      subst h
      exact .invoke hc
    | _ => simp [step, hc] at h
  | acquire id =>
    cases hc : w.calls id with
    | waiting op =>
      cases hx : I.exclusive op with
      | true =>
        simp only [step, hc, hx, Option.ite_none_right_eq_some, Option.some.injEq] at h
        obtain ⟨⟨hw, hr⟩, rfl⟩ := h
        exact .acquireExclusive hc hx hw hr
      | false =>
        simp only [step, hc, hx, Option.ite_none_right_eq_some, Option.some.injEq] at h
        obtain ⟨hw, rfl⟩ := h
        exact .acquireShared hc hx hw
    | _ => simp [step, hc] at h
  | turn id c =>
    cases hc : w.calls id with
    | inside op b =>
      rcases hn : I.next b w.memory c with _ | ⟨b' | r, m⟩
      · simp [step, hc, hn] at h
      · simp only [step, hc, hn, Option.some.injEq] at h
        subst h
        exact .more hc hn
      · simp only [step, hc, hn, Option.some.injEq] at h
        subst h
        exact .done hc hn
    | _ => simp [step, hc] at h
  | release id =>
    cases hc : w.calls id with
    | leaving op r =>
      cases hx : I.exclusive op with
      | true =>
        simp only [step, hc, hx, Option.some.injEq] at h
        subst h
        exact .releaseExclusive hc hx
      | false =>
        simp only [step, hc, hx, Option.some.injEq] at h
        subst h
        exact .releaseShared hc hx
    | _ => simp [step, hc] at h
  | respond id =>
    cases hc : w.calls id with
    | unlocked r =>
      simp only [step, hc, Option.some.injEq] at h
      subst h
      exact .respond hc
    | _ => simp [step, hc] at h

/-- A body that has a next access makes it. -/
theorem exists_turn {I : Impl ι ρ μ β ε} {w : World ι ρ μ β} {id : Nat} {op : ι} {b : β} {c : ε} {t : Turn β ρ × μ}
    (hc : w.calls id = .inside op b) (hn : I.next b w.memory c = some t) : ∃ w', step I w (.turn id c) = some w' := by
  rcases t with ⟨b' | r, m⟩
  · exact ⟨_, by simp only [step, hc, hn]; rfl⟩
  · exact ⟨_, by simp only [step, hc, hn]; rfl⟩

/-- What a turn leaves in memory is what the body's next access left there. -/
theorem turn_memory {I : Impl ι ρ μ β ε} {w w' : World ι ρ μ β} {id : Nat} {op : ι} {b : β} {c : ε}
    (hc : w.calls id = .inside op b) (h : step I w (.turn id c) = some w') :
    ∃ t, I.next b w.memory c = some (t, w'.memory) := by
  rcases hn : I.next b w.memory c with _ | ⟨b' | r, m⟩
  · simp [step, hc, hn] at h
  · simp only [step, hc, hn, Option.some.injEq] at h
    subst h
    exact ⟨.more b', rfl⟩
  · simp only [step, hc, hn, Option.some.injEq] at h
    subst h
    exact ⟨.done r, rfl⟩

/-! ## A call alone -/

/-- The body of `op`, begun in memory `m` and run by itself, can be at `b` with memory `m'`. -/
inductive Solo (I : Impl ι ρ μ β ε) (op : ι) (m : μ) : β → μ → Prop
  | start : Solo I op m (I.start op) m
  | more {b b' : β} {m₁ m₂ : μ} {c : ε} :
      Solo I op m b m₁ → I.next b m₁ c = some (.more b', m₂) → Solo I op m b' m₂

/-- The bodies compute the operations of the sequential object, and a call that locks in shared mode
only reads. -/
structure Correct (I : Impl ι ρ μ β ε) (exec : ι → μ → ρ × μ) : Prop where
  result : ∀ {op m b m₁ c r m₂}, Solo I op m b m₁ → I.next b m₁ c = some (.done r, m₂) → (r, m₂) = exec op m
  reads : ∀ {op m b m₁ c t m₂}, I.exclusive op = false → Solo I op m b m₁ → I.next b m₁ c = some (t, m₂) → m₂ = m₁

/-! ## The lock -/

/-- Whoever is between acquiring and releasing has the lock in the mode of its operation. -/
structure Locking (I : Impl ι ρ μ β ε) (w : World ι ρ μ β) : Prop where
  holds : ∀ id op, (w.calls id).held = some op →
    I.exclusive op = true ∧ w.writer = some id ∨ I.exclusive op = false ∧ id ∈ w.readers
  apart : w.writer = none ∨ w.readers = []

/-- Beside a call in exclusive mode nobody has the lock. -/
theorem Locking.alone {I : Impl ι ρ μ β ε} {w : World ι ρ μ β} (h : Locking I w) {id id' : Nat} {op op' : ι}
    (hid : (w.calls id).held = some op) (hx : I.exclusive op = true) (hid' : (w.calls id').held = some op') :
    id' = id := by
  have hw : w.writer = some id := by
    rcases h.holds id op hid with ⟨-, hw⟩ | ⟨hf, -⟩
    · exact hw
    · rw [hx] at hf
      cases hf
  rcases h.holds id' op' hid' with ⟨-, hw'⟩ | ⟨-, hr⟩
  · exact Option.some.inj (hw'.symm.trans hw)
  · rcases h.apart with hnone | hnil
    · rw [hw] at hnone
      cases hnone
    · rw [hnil] at hr
      cases hr

/-- Who has the lock after a step of call `id`. -/
theorem held_of_update {calls : Nat → Call ι ρ β} {id id' : Nat} {c : Call ι ρ β} {op : ι}
    (h : (update calls id c id').held = some op) :
    id' = id ∧ c.held = some op ∨ id' ≠ id ∧ (calls id').held = some op := by
  by_cases hid : id' = id
  · subst hid
    rw [update_self] at h
    exact .inl ⟨rfl, h⟩
  · rw [update_of_ne hid] at h
    exact .inr ⟨hid, h⟩

/-- A step of a call that neither acquires nor releases. -/
theorem Locking.keep {I : Impl ι ρ μ β ε} {w w' : World ι ρ μ β} (h : Locking I w) {id : Nat} {c : Call ι ρ β}
    (hc : w'.calls = update w.calls id c) (hheld : c.held = (w.calls id).held) (hw : w'.writer = w.writer)
    (hr : w'.readers = w.readers) : Locking I w' := by
  refine ⟨?_, by rw [hw, hr]; exact h.apart⟩
  intro id' op' hop
  rw [hw, hr]
  apply h.holds id' op'
  rw [hc] at hop
  rcases held_of_update hop with ⟨rfl, hself⟩ | ⟨-, hother⟩
  · rw [← hheld]
    exact hself
  · exact hother

theorem Move.locking {I : Impl ι ρ μ β ε} {w w' : World ι ρ μ β} (h : Move I w w') (hl : Locking I w) :
    Locking I w' := by
  cases h with
  | invoke hc => exact hl.keep rfl (by rw [hc]; rfl) rfl rfl
  | more hc _ => exact hl.keep rfl (by rw [hc]; rfl) rfl rfl
  | done hc _ => exact hl.keep rfl (by rw [hc]; rfl) rfl rfl
  | respond hc => exact hl.keep rfl (by rw [hc]; rfl) rfl rfl
  | acquireExclusive hc hx hw hr =>
    refine ⟨?_, .inr hr⟩
    intro id' op' hop
    rcases held_of_update hop with ⟨rfl, hself⟩ | ⟨-, hop⟩
    · cases hself
      exact .inl ⟨hx, rfl⟩
    · -- the lock was free
      rcases hl.holds id' op' hop with ⟨-, hw'⟩ | ⟨-, hr'⟩
      · rw [hw] at hw'
        cases hw'
      · rw [hr] at hr'
        cases hr'
  | acquireShared hc hx hw =>
    refine ⟨?_, .inl hw⟩
    intro id' op' hop
    rcases held_of_update hop with ⟨rfl, hself⟩ | ⟨-, hop⟩
    · cases hself
      exact .inr ⟨hx, List.mem_cons_self⟩
    · exact (hl.holds id' op' hop).imp_right fun h => ⟨h.1, List.mem_cons_of_mem _ h.2⟩
  | releaseExclusive hc hx =>
    refine ⟨?_, .inl rfl⟩
    intro id' op' hop
    rcases held_of_update hop with ⟨rfl, hself⟩ | ⟨hid, hop⟩
    · cases hself
    · exact absurd (hl.alone (by rw [hc]; rfl) hx hop) hid
  | releaseShared hc hx =>
    refine ⟨?_, hl.apart.imp_right fun hnil => by rw [hnil]; rfl⟩
    intro id' op' hop
    rcases held_of_update hop with ⟨rfl, hself⟩ | ⟨hid, hop⟩
    · cases hself
    · exact (hl.holds id' op' hop).imp_right fun h => ⟨h.1, (List.mem_erase_of_ne hid).2 h.2⟩

/-! ## Taking effect -/

/-- What is known of a call: before it takes effect it was invoked, and its body has run as if alone from
the state the effects so far have led to; then its answer is among the effects. -/
def CallFits (I : Impl ι ρ μ β ε) (history : List (Event ι ρ)) (order : List (Effect ι ρ)) (s m : μ) (id : Nat) :
    Call ι ρ β → Prop
  | .idle => ∀ op, .invoke id op ∉ history
  | .waiting op => .invoke id op ∈ history ∧ id ∉ order.map Effect.id
  | .inside op b => (.invoke id op ∈ history ∧ id ∉ order.map Effect.id) ∧ Solo I op s b m
  | .leaving op r => ⟨id, op, r⟩ ∈ order
  | .unlocked r => ∃ op, ⟨id, op, r⟩ ∈ order
  | .returned => True

theorem CallFits.mono {I : Impl ι ρ μ β ε} {history history' : List (Event ι ρ)} {order order' : List (Effect ι ρ)}
    {s s' m m' : μ} {id : Nat} {c : Call ι ρ β} (h : CallFits I history order s m id c)
    (hhist : ∀ op, .invoke id op ∈ history' ↔ .invoke id op ∈ history) (horder : ∀ e ∈ order, e ∈ order')
    (hid : id ∈ order'.map Effect.id → id ∈ order.map Effect.id) (hin : ∀ op b, c = .inside op b → s' = s ∧ m' = m) :
    CallFits I history' order' s' m' id c := by
  cases c with
  | idle => exact fun op hmem => h op ((hhist op).1 hmem)
  | waiting op => exact ⟨(hhist op).2 h.1, fun hmem => h.2 (hid hmem)⟩
  | inside op b =>
    obtain ⟨rfl, rfl⟩ := hin op b rfl
    exact ⟨⟨(hhist op).2 h.1.1, fun hmem => h.1.2 (hid hmem)⟩, h.2⟩
  | leaving op r => exact horder _ h
  | unlocked r =>
    obtain ⟨op, hmem⟩ := h
    exact ⟨op, horder _ hmem⟩
  | returned => trivial

/-- The history so far is linearized by an order whose state the memory is in, unless a writer is at work. -/
structure Sound (I : Impl ι ρ μ β ε) (exec : ι → μ → ρ × μ) (m₀ : μ) (w : World ι ρ μ β)
    (order : List (Effect ι ρ)) (s : μ) : Prop where
  locking : Locking I w
  linearized : Linearized exec m₀ w.history order s
  fits : ∀ id, CallFits I w.history order s w.memory id (w.calls id)
  settled : (∀ id op b, w.calls id = .inside op b → I.exclusive op = false) → w.memory = s

namespace Sound

variable {I : Impl ι ρ μ β ε} {exec : ι → μ → ρ × μ} {m₀ s : μ} {w w' : World ι ρ μ β} {order : List (Effect ι ρ)}

theorem start (I : Impl ι ρ μ β ε) (exec : ι → μ → ρ × μ) (m₀ : μ) : Sound I exec m₀ (.start m₀) [] m₀ :=
  ⟨⟨fun _ _ h => (by cases h), .inl rfl⟩, .start exec m₀, fun _ _ h => (by cases h), fun _ => rfl⟩

/-- What a step has to keep for the other calls. -/
theorem fits_update {history : List (Event ι ρ)} {s m : μ} {id : Nat} {c : Call ι ρ β}
    (hself : CallFits I history order s m id c)
    (hother : ∀ id', id' ≠ id → CallFits I history order s m id' (w.calls id')) (id' : Nat) :
    CallFits I history order s m id' (update w.calls id c id') := by
  by_cases hid : id' = id
  · subst hid
    rw [update_self]
    exact hself
  · rw [update_of_ne hid]
    exact hother id' hid

/-- No writer is at work when nobody, or only a reader, has the lock. -/
theorem memory_eq (h : Sound I exec m₀ w order s) (hw : w.writer = none) : w.memory = s := by
  apply h.settled
  intro id op b hc
  rcases h.locking.holds id op (by rw [hc]; rfl) with ⟨-, hsome⟩ | ⟨hx, -⟩
  · rw [hw] at hsome
    cases hsome
  · exact hx

/-- A reader that is inside sees the state of the effects so far. -/
theorem memory_eq_of_reader (h : Sound I exec m₀ w order s) {id : Nat} {op : ι} {b : β}
    (hc : w.calls id = .inside op b) (hx : I.exclusive op = false) : w.memory = s := by
  apply h.settled
  intro id' op' b' hc'
  by_contra hx'
  rw [Bool.not_eq_false] at hx'
  have heq := h.locking.alone (by rw [hc']; rfl) hx' (show (w.calls id).held = some op by rw [hc]; rfl)
  rw [heq, hc'] at hc
  cases hc
  rw [hx'] at hx
  cases hx

/-- Acquiring the lock begins the body in the state of the effects so far. -/
theorem acquire (h : Sound I exec m₀ w order s) {id : Nat} {op : ι} (hc : w.calls id = .waiting op)
    (hw : w.writer = none)
    (hcalls : w'.calls = update w.calls id (.inside op (I.start op))) (hm : w'.memory = w.memory)
    (hh : w'.history = w.history) (hl : Locking I w') : Sound I exec m₀ w' order s := by
  have hmem := h.memory_eq hw
  refine ⟨hl, by rw [hh]; exact h.linearized, ?_, fun _ => by rw [hm]; exact hmem⟩
  rw [hh, hm, hcalls]
  refine fits_update ?_ fun id' _ => h.fits id'
  have hfit := h.fits id
  rw [hc] at hfit
  refine ⟨hfit, ?_⟩
  rw [hmem]
  exact .start

/-- A turn inside the body. -/
theorem more (hI : Correct I exec) (h : Sound I exec m₀ w order s) {id : Nat} {op : ι} {b b' : β} {c : ε} {m : μ}
    (hc : w.calls id = .inside op b) (hn : I.next b w.memory c = some (.more b', m))
    (hl : Locking I { w with memory := m, calls := update w.calls id (.inside op b') }) :
    Sound I exec m₀ { w with memory := m, calls := update w.calls id (.inside op b') } order s := by
  have hfit := h.fits id
  rw [hc] at hfit
  have hheld : (w.calls id).held = some op := by rw [hc]; rfl
  -- a writer is alone, and a reader leaves the memory as it is
  have hother : ∀ id', id' ≠ id → ∀ op' d, w.calls id' = .inside op' d → m = w.memory := by
    intro id' hid op' d hc'
    cases hx : I.exclusive op with
    | true => exact absurd (h.locking.alone hheld hx (show (w.calls id').held = some op' by rw [hc']; rfl)) hid
    | false => exact hI.reads hx hfit.2 hn
  refine ⟨hl, h.linearized, fits_update ⟨hfit.1, hfit.2.more hn⟩ ?_, ?_⟩
  · intro id' hid
    exact (h.fits id').mono (fun _ => Iff.rfl) (fun _ he => he) (fun hm => hm)
      fun op' d hc' => ⟨rfl, hother id' hid op' d hc'⟩
  · intro hnone
    have hx := hnone id op b' (by simp)
    exact (hI.reads hx hfit.2 hn).trans (h.memory_eq_of_reader hc hx)

/-- The last turn of a body is the moment the call takes effect. -/
theorem done (hI : Correct I exec) (h : Sound I exec m₀ w order s) {id : Nat} {op : ι} {b : β} {c : ε} {r : ρ} {m : μ}
    (hc : w.calls id = .inside op b) (hn : I.next b w.memory c = some (.done r, m))
    (hl : Locking I { w with memory := m, calls := update w.calls id (.leaving op r) }) :
    Sound I exec m₀ { w with memory := m, calls := update w.calls id (.leaving op r) }
      (order ++ [⟨id, op, r⟩]) m := by
  have hfit := h.fits id
  rw [hc] at hfit
  have hheld : (w.calls id).held = some op := by rw [hc]; rfl
  have hexec : exec op s = (r, m) := (hI.result hfit.2 hn).symm
  have hlin := h.linearized.commit hfit.1.1 hfit.1.2
  rw [hexec] at hlin
  refine ⟨hl, hlin, fits_update (List.mem_append_right _ List.mem_cons_self) ?_, fun _ => rfl⟩
  intro id' hid
  refine (h.fits id').mono (fun _ => Iff.rfl) (fun _ => List.mem_append_left _) ?_ ?_
  · intro hmem
    rw [List.map_append, List.mem_append] at hmem
    rcases hmem with hmem | hmem
    · exact hmem
    · exact absurd (List.mem_singleton.1 hmem) hid
  · intro op' d hc'
    cases hx : I.exclusive op with
    | true => exact absurd (h.locking.alone hheld hx (show (w.calls id').held = some op' by rw [hc']; rfl)) hid
    | false =>
      have hm := hI.reads hx hfit.2 hn
      exact ⟨hm.trans (h.memory_eq_of_reader hc hx), hm⟩

/-- A call that is not in its body goes on, and the memory stays. -/
theorem outside (h : Sound I exec m₀ w order s) {id : Nat} {c : Call ι ρ β} (hcalls : w'.calls = update w.calls id c)
    (hm : w'.memory = w.memory) (hlin : Linearized exec m₀ w'.history order s)
    (hself : CallFits I w'.history order s w.memory id c)
    (hhist : ∀ id', id' ≠ id → ∀ op, .invoke id' op ∈ w'.history ↔ .invoke id' op ∈ w.history)
    (hin : ∀ op b, w.calls id ≠ .inside op b) (hl : Locking I w') : Sound I exec m₀ w' order s := by
  refine ⟨hl, hlin, ?_, ?_⟩
  · rw [hm, hcalls]
    refine fits_update hself fun id' hid => ?_
    exact (h.fits id').mono (hhist id' hid) (fun _ he => he) (fun hmem => hmem) fun _ _ _ => ⟨rfl, rfl⟩
  · intro hnone
    rw [hm]
    apply h.settled
    intro id' op b hc'
    apply hnone id' op b
    have hid : id' ≠ id := by
      rintro rfl
      exact hin op b hc'
    rw [hcalls, update_of_ne hid]
    exact hc'

end Sound

theorem Move.sound {I : Impl ι ρ μ β ε} {exec : ι → μ → ρ × μ} {m₀ s : μ} {w w' : World ι ρ μ β}
    {order : List (Effect ι ρ)} (hI : Correct I exec) (h : Move I w w') (hs : Sound I exec m₀ w order s) :
    ∃ order' s', Sound I exec m₀ w' order' s' := by
  have hl := h.locking hs.locking
  cases h with
  | @invoke id op hc =>
    have hfit := hs.fits id
    rw [hc] at hfit
    have hid : id ∉ order.map Effect.id := by
      intro hmem
      obtain ⟨e, he, rfl⟩ := List.mem_map.1 hmem
      exact hfit e.op (hs.linearized.invoked e he)
    refine ⟨order, s, hs.outside rfl rfl (hs.linearized.invoke hfit op) ⟨by simp, hid⟩ ?_ (by simp [hc]) hl⟩
    intro id' hne op'
    simp [hne]
  | acquireExclusive hc hx hw hr => exact ⟨order, s, hs.acquire hc hw rfl rfl rfl hl⟩
  | acquireShared hc hx hw => exact ⟨order, s, hs.acquire hc hw rfl rfl rfl hl⟩
  | more hc hn => exact ⟨order, s, hs.more hI hc hn hl⟩
  | done hc hn => exact ⟨_, _, hs.done hI hc hn hl⟩
  | @releaseExclusive id op r hc hx =>
    have hfit := hs.fits id
    rw [hc] at hfit
    exact ⟨order, s, hs.outside rfl rfl hs.linearized ⟨op, hfit⟩ (fun _ _ _ => Iff.rfl) (by simp [hc]) hl⟩
  | @releaseShared id op r hc hx =>
    have hfit := hs.fits id
    rw [hc] at hfit
    exact ⟨order, s, hs.outside rfl rfl hs.linearized ⟨op, hfit⟩ (fun _ _ _ => Iff.rfl) (by simp [hc]) hl⟩
  | @respond id r hc =>
    have hfit := hs.fits id
    rw [hc] at hfit
    obtain ⟨op, hmem⟩ := hfit
    exact ⟨order, s, hs.outside rfl rfl (hs.linearized.respond hmem) trivial (by simp) (by simp [hc]) hl⟩

/-- Along every run the history has a linearization, whose state the memory is in unless a writer is
at work. -/
theorem sound_of_runs {I : Impl ι ρ μ β ε} {exec : ι → μ → ρ × μ} (hI : Correct I exec)
    {C : World ι ρ μ β → Action ι ε → Prop}
    {m₀ : μ} {w : World ι ρ μ β} {as : List (Action ι ε)} (h : Runs (step I) C (.start m₀) as w) :
    ∃ order s, Sound I exec m₀ w order s := by
  refine h.invariant (I := fun w => ∃ order s, Sound I exec m₀ w order s) ?_ ⟨[], m₀, .start I exec m₀⟩
  rintro w₁ a w₂ ⟨order, s, hs⟩ - hstep
  exact (step_move hstep).sound hI hs

end RwLock
