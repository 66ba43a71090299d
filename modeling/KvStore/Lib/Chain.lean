/-
Programs that call each other recursively, by approximation: a chain of environments, the `n`-th of
which answers the calls that need at most `n` levels of recursion. A program finishes if some
environment of the chain runs it to its end, and diverges if none does.
-/
import KvStore.Lib.Program

namespace Program

variable {Op : Type} {Res : Op → Type} {σ α β : Type}

/-- Environments each of which answers at least what the one before it answers. -/
structure Chain (Op : Type) (Res : Op → Type) (σ : Type) where
  env : Nat → (o : Op) → σ → Option (Res o × σ)
  mono : ∀ n o s r, env n o s = some r → env (n + 1) o s = some r

theorem Chain.env_le (c : Chain Op Res σ) {n m : Nat} (h : n ≤ m) {o : Op} {s : σ} {r : Res o × σ}
    (hr : c.env n o s = some r) : c.env m o s = some r := by
  induction h with
  | refl => exact hr
  | step _ ih => exact c.mono _ _ _ _ ih

theorem Chain.run_le (c : Chain Op Res σ) {n m : Nat} (h : n ≤ m) {p : Prog Op Res α} {s : σ} {r : α × σ}
    (hr : p.run (c.env n) s = some r) : p.run (c.env m) s = some r := by
  have hle : ∀ o s r, c.env n o s = some r → c.env m o s = some r := fun _ _ _ ho => c.env_le h ho
  exact Prog.run_mono hle hr

/-! ## Finishing -/

/-- From `s` the program returns some `r` in some state `s'` with `Q r s'`. -/
def Finishes (c : Chain Op Res σ) (p : Prog Op Res α) (s : σ) (Q : α → σ → Prop) : Prop :=
  ∃ n r s', p.run (c.env n) s = some (r, s') ∧ Q r s'

/-- The `n`-th environment of the chain does not run the program to its end. -/
def StuckAt (c : Chain Op Res σ) (n : Nat) (p : Prog Op Res α) (s : σ) : Prop := p.run (c.env n) s = none

section Rules

variable {c : Chain Op Res σ} {s : σ}

theorem Finishes.ret {x : α} {Q : α → σ → Prop} (h : Q x s) : Finishes c (.ret x) s Q := ⟨0, x, s, rfl, h⟩

theorem Finishes.bind {p : Prog Op Res α} {f : α → Prog Op Res β} {P : α → σ → Prop} {Q : β → σ → Prop}
    (hp : Finishes c p s P) (hf : ∀ x s', P x s' → Finishes c (f x) s' Q) : Finishes c (p >>= f) s Q := by
  obtain ⟨n, x, s₁, h1, hP⟩ := hp
  obtain ⟨m, r, s₂, h2, hQ⟩ := hf x s₁ hP
  refine ⟨max n m, r, s₂, ?_, hQ⟩
  rw [Prog.run_bind, c.run_le (le_max_left n m) h1]
  exact c.run_le (le_max_right n m) h2

theorem Finishes.conseq {p : Prog Op Res α} {P Q : α → σ → Prop} (h : Finishes c p s P)
    (hPQ : ∀ r s', P r s' → Q r s') : Finishes c p s Q := by
  obtain ⟨n, r, s', hrun, hP⟩ := h
  exact ⟨n, r, s', hrun, hPQ r s' hP⟩

/-- A program that finishes does so with the one result, or not yet. -/
theorem Finishes.run_eq {p : Prog Op Res α} {Q : α → σ → Prop} (h : Finishes c p s Q) (n : Nat) :
    p.run (c.env n) s = none ∨ ∃ r s', p.run (c.env n) s = some (r, s') ∧ Q r s' := by
  obtain ⟨m, r, s', hrun, hQ⟩ := h
  cases hx : p.run (c.env n) s with
  | none => exact Or.inl rfl
  | some y =>
    have h1 := c.run_le (le_max_left n m) hx
    rw [c.run_le (le_max_right n m) hrun] at h1
    cases h1
    exact Or.inr ⟨r, s', rfl, hQ⟩

/-- Two statements about how a program finishes are about one result. -/
theorem Finishes.and {p : Prog Op Res α} {P Q : α → σ → Prop} (h : Finishes c p s P) (h' : Finishes c p s Q) :
    ∃ r s', P r s' ∧ Q r s' := by
  obtain ⟨n, r, s', hrun, hQ⟩ := h'
  rcases h.run_eq n with hnone | ⟨r', s'', hsome, hP⟩
  · rw [hrun] at hnone
    cases hnone
  · rw [hrun] at hsome
    cases hsome
    exact ⟨r, s', hP, hQ⟩

theorem StuckAt.bind_left {p : Prog Op Res α} {f : α → Prog Op Res β} {n : Nat} (h : StuckAt c n p s) :
    StuckAt c n (p >>= f) s := by
  unfold StuckAt at h ⊢
  rw [Prog.run_bind, h]
  rfl

/-- What comes before may finish, as long as what follows gets stuck. -/
theorem StuckAt.bind {p : Prog Op Res α} {f : α → Prog Op Res β} {n : Nat} {P : α → σ → Prop}
    (hp : Finishes c p s P) (hf : ∀ x s', P x s' → StuckAt c n (f x) s') : StuckAt c n (p >>= f) s := by
  unfold StuckAt
  rw [Prog.run_bind]
  rcases hp.run_eq n with hnone | ⟨x, s', hsome, hP⟩
  · rw [hnone]
    rfl
  · rw [hsome]
    exact hf x s' hP

end Rules

end Program
