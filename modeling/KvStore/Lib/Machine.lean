/-
State machines with an executable step: `step s e` is the state after event `e`, or `none` when
`e` cannot happen in `s`. A run is a list of events; `Runs C` are the runs every event of which
happens in a state that meets a condition `C`, so that a safety property may be stated for the
runs that keep a discipline as well as for all of them.
-/
import Mathlib.Tactic

namespace Machine

variable {σ ε : Type}

/-- The state after a list of events, if each of them can happen. -/
def runEvents (step : σ → ε → Option σ) : σ → List ε → Option σ
  | s, [] => some s
  | s, e :: es => (step s e).bind fun s' => runEvents step s' es

/-- `Runs step C s es s'`: the events `es` lead from `s` to `s'`, each of them taken in a state
that meets the condition `C`. -/
inductive Runs (step : σ → ε → Option σ) (C : σ → ε → Prop) (s : σ) : List ε → σ → Prop
  | refl : Runs step C s [] s
  | snoc {es : List ε} {s₁ s₂ : σ} {e : ε} :
      Runs step C s es s₁ → C s₁ e → step s₁ e = some s₂ → Runs step C s (es ++ [e]) s₂

/-- A property of the first state that every step under the condition keeps holds at the end. -/
theorem Runs.invariant {step : σ → ε → Option σ} {C : σ → ε → Prop} {I : σ → Prop}
    (hstep : ∀ s e s', I s → C s e → step s e = some s' → I s') {s s' : σ} {es : List ε}
    (h : Runs step C s es s') (h0 : I s) : I s' := by
  induction h with
  | refl => exact h0
  | snoc _ hC hs ih => exact hstep _ _ _ ih hC hs

/-- Events that can happen one after the other, each under the condition, make a run. -/
theorem Runs.cons {step : σ → ε → Option σ} {C : σ → ε → Prop} {s s₁ s₂ : σ} {e : ε}
    (hC : C s e) (hs : step s e = some s₁) {es : List ε} (h : Runs step C s₁ es s₂) :
    Runs step C s (e :: es) s₂ := by
  induction h with
  | refl => exact Runs.snoc (Runs.refl : Runs step C s [] s) hC hs
  | snoc _ hc hs' ih => exact .snoc ih hc hs'

/-- The machine that takes an event only if the condition is met. -/
def guarded (step : σ → ε → Option σ) (C : σ → ε → Prop) [∀ s e, Decidable (C s e)] (s : σ) (e : ε) : Option σ :=
  if C s e then step s e else none

/-- Events that can be executed, each under the condition, make a run. -/
theorem runs_of_runEvents {step : σ → ε → Option σ} {C : σ → ε → Prop} [∀ s e, Decidable (C s e)] :
    ∀ {es : List ε} {s s' : σ}, runEvents (guarded step C) s es = some s' → Runs step C s es s'
  | [], s, s', h => by
    cases h
    exact .refl
  | e :: es, s, s', h => by
    obtain ⟨s₁, h1, h2⟩ := Option.bind_eq_some_iff.1 h
    unfold guarded at h1
    split at h1
    · rename_i hC
      exact .cons hC h1 (runs_of_runEvents h2)
    · cases h1

/-- A run to a state with a decidable property, by execution. -/
theorem exists_runs {step : σ → ε → Option σ} {C : σ → ε → Prop} [∀ s e, Decidable (C s e)] {P : σ → Prop}
    [DecidablePred P] {s : σ} {es : List ε}
    (h : (runEvents (guarded step C) s es).any (fun s' => decide (P s')) = true) :
    ∃ s', Runs step C s es s' ∧ P s' := by
  cases hs : runEvents (guarded step C) s es with
  | none =>
    rw [hs] at h
    cases h
  | some s' =>
    rw [hs, Option.any_some, decide_eq_true_eq] at h
    exact ⟨s', runs_of_runEvents hs, h⟩

/-! ## Runs that end -/

/-- A measure that every step lowers bounds the length of a run. -/
theorem Runs.length_add_le {step : σ → ε → Option σ} {C : σ → ε → Prop} {μ : σ → Nat}
    (hstep : ∀ s e s', C s e → step s e = some s' → μ s' < μ s) {s s' : σ} {es : List ε}
    (h : Runs step C s es s') : es.length + μ s' ≤ μ s := by
  induction h with
  | refl => simp
  | snoc _ hC hs ih =>
    have hlt := hstep _ _ _ hC hs
    rw [List.length_append, List.length_singleton]
    omega

/-- Along a run that keeps an invariant each event meets its condition where the invariant holds. -/
theorem Runs.within {step : σ → ε → Option σ} {C : σ → ε → Prop} {I : σ → Prop}
    (hstep : ∀ s e s', I s → step s e = some s' → I s') {s s' : σ} {es : List ε}
    (h : Runs step C s es s') (h0 : I s) : Runs step (fun s e => I s ∧ C s e) s es s' := by
  induction h with
  | refl => exact .refl
  | snoc h hC hs ih => exact .snoc ih ⟨h.invariant (fun s e s' hi _ => hstep s e s' hi) h0, hC⟩ hs

/-- No weight grows and one shrinks by `m`. -/
theorem sum_add_le_sum {τ : Type} [DecidableEq τ] {f g : τ → Nat} {A : Finset τ} (hle : ∀ u ∈ A, f u ≤ g u) {t : τ}
    (ht : t ∈ A) {m : Nat} (h : f t + m ≤ g t) : (∑ u ∈ A, f u) + m ≤ ∑ u ∈ A, g u := by
  rw [← Finset.add_sum_erase A f ht, ← Finset.add_sum_erase A g ht]
  have hrest : ∑ u ∈ A.erase t, f u ≤ ∑ u ∈ A.erase t, g u :=
    Finset.sum_le_sum fun u hu => hle u (Finset.mem_of_mem_erase hu)
  omega

/-- The weights of the positions of some threads, after one of them has moved. -/
theorem sum_update_add {τ β : Type} [DecidableEq τ] {w : β → Nat} {f : τ → β} {A : Finset τ} {t : τ} (ht : t ∈ A)
    (b : β) : (∑ u ∈ A, w (Function.update f t b u)) + w (f t) = (∑ u ∈ A, w (f u)) + w b := by
  rw [← Finset.add_sum_erase A _ ht, ← Finset.add_sum_erase A (fun u => w (f u)) ht, Function.update_self]
  have hrest : ∑ u ∈ A.erase t, w (Function.update f t b u) = ∑ u ∈ A.erase t, w (f u) := by
    refine Finset.sum_congr rfl fun u hu => ?_
    rw [Function.update_of_ne (Finset.ne_of_mem_erase hu)]
  rw [hrest]
  ring

end Machine
