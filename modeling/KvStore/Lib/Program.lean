/-
Programs that call the operations of an environment and continue with the answers. The same
program has several readings: executed by an environment that answers every call (`exec`), run
by one that may give no answer (`run`), with the list of the calls made and their answers
(`trace`), or taken apart one call at a time by whoever interleaves it with others. What holds of
all its calls, whatever the answers, is a contract (`Always`).
-/
import Mathlib.Tactic

namespace Program

/-- A program returning an `α` after calls `o : Op`, each answered by a `Res o`. -/
inductive Prog (Op : Type) (Res : Op → Type) (α : Type) : Type
  | ret (a : α)
  | call (o : Op) (next : Res o → Prog Op Res α)

namespace Prog

variable {Op : Type} {Res : Op → Type} {α β σ : Type}

/-! ## Sequencing -/

/-- Run `p`, then `f` on its result. -/
def bind : Prog Op Res α → (α → Prog Op Res β) → Prog Op Res β
  | ret a, f => f a
  | call o next, f => call o fun r => (next r).bind f

instance : Monad (Prog Op Res) where
  pure := ret
  bind := bind

@[simp] theorem pure_eq (a : α) : (pure a : Prog Op Res α) = ret a := rfl

@[simp] theorem call_bind (o : Op) (next : Res o → Prog Op Res α) (f : α → Prog Op Res β) :
    (call o next >>= f) = call o fun r => next r >>= f := rfl

/-! ## Total environments -/

/-- Execute a program in an environment that answers every call. -/
def exec (h : (o : Op) → σ → Res o × σ) : Prog Op Res α → σ → α × σ
  | ret a, s => (a, s)
  | call o next, s => (next (h o s).1).exec h (h o s).2

/-- The calls an execution makes, in order, each with its answer. -/
def trace (h : (o : Op) → σ → Res o × σ) : Prog Op Res α → σ → List (Sigma Res)
  | ret _, _ => []
  | call o next, s => ⟨o, (h o s).1⟩ :: (next (h o s).1).trace h (h o s).2

section Total

variable (h : (o : Op) → σ → Res o × σ)

@[simp] theorem exec_ret (a : α) (s : σ) : (ret a : Prog Op Res α).exec h s = (a, s) := rfl

@[simp] theorem exec_call (o : Op) (next : Res o → Prog Op Res α) (s : σ) :
    (call o next).exec h s = (next (h o s).1).exec h (h o s).2 := rfl

@[simp] theorem trace_ret (a : α) (s : σ) : (ret a : Prog Op Res α).trace h s = [] := rfl

@[simp] theorem trace_call (o : Op) (next : Res o → Prog Op Res α) (s : σ) :
    (call o next).trace h s = ⟨o, (h o s).1⟩ :: (next (h o s).1).trace h (h o s).2 := rfl

theorem exec_bind (p : Prog Op Res α) (f : α → Prog Op Res β) (s : σ) :
    (p >>= f).exec h s = (f (p.exec h s).1).exec h (p.exec h s).2 := by
  induction p generalizing s with
  | ret a => rfl
  | call o next ih => exact ih (h o s).1 (h o s).2

/-- Environments that a map of their states relates execute a program alike. -/
theorem exec_map {τ : Type} {h' : (o : Op) → τ → Res o × τ} {f : σ → τ}
    (hf : ∀ o s, h' o (f s) = ((h o s).1, f (h o s).2)) (p : Prog Op Res α) (s : σ) :
    p.exec h' (f s) = ((p.exec h s).1, f (p.exec h s).2) := by
  induction p generalizing s with
  | ret a => rfl
  | call o next ih =>
    rw [exec_call, exec_call, hf]
    exact ih (h o s).1 (h o s).2

theorem trace_bind (p : Prog Op Res α) (f : α → Prog Op Res β) (s : σ) :
    (p >>= f).trace h s = p.trace h s ++ (f (p.exec h s).1).trace h (p.exec h s).2 := by
  induction p generalizing s with
  | ret a => rfl
  | call o next ih =>
    rw [call_bind, trace_call, trace_call, exec_call, ih, List.cons_append]

end Total

/-! ## Partial environments -/

/-- Run a program in an environment that may leave a call without an answer. -/
def run (h : (o : Op) → σ → Option (Res o × σ)) : Prog Op Res α → σ → Option (α × σ)
  | ret a, s => some (a, s)
  | call o next, s => (h o s).bind fun r => (next r.1).run h r.2

section Partial

variable (h : (o : Op) → σ → Option (Res o × σ))

theorem run_call (o : Op) (next : Res o → Prog Op Res α) (s : σ) :
    (call o next).run h s = (h o s).bind fun r => (next r.1).run h r.2 := rfl

theorem run_bind (p : Prog Op Res α) (f : α → Prog Op Res β) (s : σ) :
    (p >>= f).run h s = (p.run h s).bind fun r => (f r.1).run h r.2 := by
  induction p generalizing s with
  | ret a => rfl
  | call o next ih =>
    rw [call_bind, run_call, run_call, Option.bind_assoc]
    congr 1
    funext r
    exact ih r.1 r.2

/-- An environment that answers at least as much runs a program at least as far. -/
theorem run_mono {h h' : (o : Op) → σ → Option (Res o × σ)}
    (hh : ∀ o s r, h o s = some r → h' o s = some r) {p : Prog Op Res α} {s : σ} {r : α × σ}
    (hr : p.run h s = some r) : p.run h' s = some r := by
  induction p generalizing s with
  | ret a => exact hr
  | call o next ih =>
    rw [run_call] at hr ⊢
    obtain ⟨x, hx, hr⟩ := Option.bind_eq_some_iff.1 hr
    rw [hh o s x hx]
    exact ih x.1 hr

end Partial

/-! ## Contracts -/

/-- Every call the program makes satisfies `ok` and every result satisfies `Q`, as long as the
answers satisfy `ans`. -/
def Always (ok : Op → Prop) (ans : (o : Op) → Res o → Prop) : Prog Op Res α → (α → Prop) → Prop
  | ret a, Q => Q a
  | call o next, Q => ok o ∧ ∀ r, ans o r → (next r).Always ok ans Q

section Contracts

variable {ok : Op → Prop} {ans : (o : Op) → Res o → Prop}

theorem Always.bind {p : Prog Op Res α} {f : α → Prog Op Res β} {P : α → Prop} {Q : β → Prop}
    (hp : p.Always ok ans P) (hf : ∀ a, P a → (f a).Always ok ans Q) : (p >>= f).Always ok ans Q := by
  induction p with
  | ret a => exact hf a hp
  | call o next ih => exact ⟨hp.1, fun r hr => ih r (hp.2 r hr)⟩

theorem Always.mono {ok' : Op → Prop} (hok : ∀ o, ok o → ok' o) {p : Prog Op Res α} {Q : α → Prop}
    (h : p.Always ok ans Q) : p.Always ok' ans Q := by
  induction p with
  | ret a => exact h
  | call o next ih => exact ⟨hok o h.1, fun r hr => ih r (h.2 r hr)⟩

end Contracts

/-! ## How many calls -/

/-- At most `m` calls, each with `ok`, and every result satisfies `Q`, as long as the answers satisfy `ans`. -/
def Within (ok : Op → Prop) (ans : (o : Op) → Res o → Prop) : Prog Op Res α → Nat → (α → Prop) → Prop
  | ret a, _, Q => Q a
  | call _ _, 0, _ => False
  | call o next, m + 1, Q => ok o ∧ ∀ r, ans o r → (next r).Within ok ans m Q

section Bounds

variable {ok : Op → Prop} {ans : (o : Op) → Res o → Prop}

theorem Within.weaken {p : Prog Op Res α} {m m' : Nat} {ok' : Op → Prop} {Q Q' : α → Prop}
    (h : p.Within ok ans m Q) (hm : m ≤ m') (hok : ∀ o, ok o → ok' o) (hQ : ∀ a, Q a → Q' a) :
    p.Within ok' ans m' Q' := by
  induction p generalizing m m' with
  | ret a => exact hQ a h
  | call o next ih =>
    cases m with
    | zero => exact h.elim
    | succ m =>
      obtain ⟨m', rfl⟩ : ∃ k, m' = k + 1 := ⟨m' - 1, by omega⟩
      exact ⟨hok o h.1, fun r hr => ih r (h.2 r hr) (Nat.le_of_succ_le_succ hm)⟩

theorem Within.bind {p : Prog Op Res α} {f : α → Prog Op Res β} {P : α → Prop} {Q : β → Prop} {m k : Nat}
    (hp : p.Within ok ans m P) (hf : ∀ a, P a → (f a).Within ok ans k Q) : (p >>= f).Within ok ans (m + k) Q := by
  induction p generalizing m with
  | ret a => exact (hf a hp).weaken (Nat.le_add_left k m) (fun _ h => h) fun _ h => h
  | call o next ih =>
    cases m with
    | zero => exact hp.elim
    | succ m =>
      rw [Nat.succ_add]
      exact ⟨hp.1, fun r hr => ih r (hp.2 r hr)⟩

theorem Within.always {p : Prog Op Res α} {m : Nat} {Q : α → Prop} (h : p.Within ok ans m Q) :
    p.Always ok ans Q := by
  induction p generalizing m with
  | ret a => exact h
  | call o next ih =>
    cases m with
    | zero => exact h.elim
    | succ m => exact ⟨h.1, fun r hr => ih r (h.2 r hr)⟩

/-- The calls a program may still make. -/
noncomputable def callsLeft (ans : (o : Op) → Res o → Prop) (p : Prog Op Res α) : Nat :=
  sInf {m | p.Within (fun _ => True) ans m fun _ => True}

theorem Within.callsLeft_le {p : Prog Op Res α} {m : Nat} {Q : α → Prop} (h : p.Within ok ans m Q) :
    callsLeft ans p ≤ m :=
  Nat.sInf_le (h.weaken le_rfl (fun _ _ => trivial) fun _ _ => trivial)

/-- Every answer leaves fewer. -/
theorem Within.callsLeft_next {o : Op} {next : Res o → Prog Op Res α} {m : Nat} {Q : α → Prop}
    (h : (call o next).Within ok ans m Q) {r : Res o} (hr : ans o r) :
    callsLeft ans (next r) < callsLeft ans (call o next) := by
  have hmem : (call o next).Within (fun _ => True) ans (callsLeft ans (call o next)) fun _ => True :=
    Nat.sInf_mem (s := {m | (call o next).Within (fun _ => True) ans m fun _ => True})
      ⟨m, h.weaken le_rfl (fun _ _ => trivial) fun _ _ => trivial⟩
  generalize callsLeft ans (call o next) = k at hmem
  cases k with
  | zero => exact hmem.elim
  | succ k => exact Nat.lt_succ_of_le (hmem.2 r hr).callsLeft_le

end Bounds

end Prog

end Program
