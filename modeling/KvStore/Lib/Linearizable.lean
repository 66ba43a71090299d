/-
Linearizability. A history is what the callers of a concurrent object see: calls made and calls
answered, in the order of time. It is linearizable if the calls can be put into one sequence, each
between its invocation and its response, in which a sequential object gives the same answers. The
calls are put into the sequence one by one at the moments they take effect; `Linearized` keeps what
that needs, and has one rule for each kind of moment.
-/
import Mathlib.Tactic

namespace Linear

variable {ι ρ σ : Type}

/-- A call, known by its number, is made or answered. -/
inductive Event (ι ρ : Type)
  | invoke (id : Nat) (op : ι)
  | respond (id : Nat) (r : ρ)
  deriving DecidableEq, Repr

/-- A call that has taken effect, with its answer. -/
structure Effect (ι ρ : Type) where
  id : Nat
  op : ι
  result : ρ
  deriving DecidableEq, Repr

/-- The sequential object goes from one state to the other through these calls and gives these answers. -/
def Legal (exec : ι → σ → ρ × σ) : σ → List (Effect ι ρ) → σ → Prop
  | s, [], s' => s' = s
  | s, e :: es, s' => (exec e.op s).1 = e.result ∧ Legal exec (exec e.op s).2 es s'

/-- Call `a` is answered before call `b` is made. -/
def Before (history : List (Event ι ρ)) (a b : Nat) : Prop :=
  ∃ r op, [.respond a r, .invoke b op].Sublist history

/-- The calls that were answered, and perhaps some that were not, make a sequence in which the
sequential object gives the same answers and which keeps the order of calls that do not overlap. -/
def Linearizable (exec : ι → σ → ρ × σ) (s : σ) (history : List (Event ι ρ)) : Prop :=
  ∃ (order : List (Effect ι ρ)) (s' : σ), Legal exec s order s' ∧ (order.map Effect.id).Nodup ∧
    (∀ e ∈ order, .invoke e.id e.op ∈ history) ∧
    (∀ id r, .respond id r ∈ history → ∃ op, ⟨id, op, r⟩ ∈ order) ∧
    ∀ a ∈ order, ∀ b ∈ order, Before history a.id b.id → [a, b].Sublist order

theorem Legal.concat {exec : ι → σ → ρ × σ} {s s' : σ} {order : List (Effect ι ρ)} {e : Effect ι ρ}
    (h : Legal exec s order s') (he : (exec e.op s').1 = e.result) :
    Legal exec s (order ++ [e]) (exec e.op s').2 := by
  induction order generalizing s with
  | nil =>
    cases h
    exact ⟨he, rfl⟩
  | cons d order ih => exact ⟨h.1, ih h.2⟩

/-- Every answer is the sequential object's in some state. -/
theorem Legal.result {exec : ι → σ → ρ × σ} {s s' : σ} {order : List (Effect ι ρ)} (h : Legal exec s order s')
    {e : Effect ι ρ} (he : e ∈ order) : ∃ t, e.result = (exec e.op t).1 := by
  induction order generalizing s with
  | nil => cases he
  | cons d order ih =>
    rcases List.mem_cons.1 he with rfl | he
    · exact ⟨s, h.1.symm⟩
    · exact ih h.2 he

theorem Before.respond_mem {history : List (Event ι ρ)} {a b : Nat} (h : Before history a b) :
    ∃ r, .respond a r ∈ history := by
  obtain ⟨r, op, hsub⟩ := h
  exact ⟨r, hsub.subset List.mem_cons_self⟩

/-- The last event is not behind another one unless it is an invocation. -/
theorem before_concat {history : List (Event ι ρ)} {e : Event ι ρ} {a b : Nat}
    (h : Before (history ++ [e]) a b) : Before history a b ∨ ∃ op, e = .invoke b op := by
  obtain ⟨r, op, hsub⟩ := h
  rw [List.sublist_append_iff] at hsub
  obtain ⟨l₁, l₂, heq, h₁, h₂⟩ := hsub
  rcases l₁ with _ | ⟨x, _ | ⟨y, l₁⟩⟩
  · have hlen := h₂.length_le
    rw [List.nil_append] at heq
    subst heq
    simp at hlen
  · simp only [List.cons_append, List.nil_append, List.cons.injEq] at heq
    obtain ⟨-, rfl⟩ := heq
    rw [List.singleton_sublist, List.mem_singleton] at h₂
    exact .inr ⟨op, h₂.symm⟩
  · simp only [List.cons_append, List.cons.injEq] at heq
    obtain ⟨rfl, rfl, hnil⟩ := heq
    rw [eq_comm, List.append_eq_nil_iff] at hnil
    obtain ⟨rfl, rfl⟩ := hnil
    exact .inl ⟨r, op, h₁⟩

/-! ## Taking effect one by one -/

/-- The calls that have taken effect so far, and the state they have led to. -/
structure Linearized (exec : ι → σ → ρ × σ) (s₀ : σ) (history : List (Event ι ρ)) (order : List (Effect ι ρ))
    (s : σ) : Prop where
  legal : Legal exec s₀ order s
  nodup : (order.map Effect.id).Nodup
  invoked : ∀ e ∈ order, .invoke e.id e.op ∈ history
  answered : ∀ id r, .respond id r ∈ history → ∃ op, ⟨id, op, r⟩ ∈ order
  ordered : ∀ a ∈ order, ∀ b ∈ order, Before history a.id b.id → [a, b].Sublist order

namespace Linearized

variable {exec : ι → σ → ρ × σ} {s₀ s : σ} {history : List (Event ι ρ)} {order : List (Effect ι ρ)}

theorem linearizable (h : Linearized exec s₀ history order s) : Linearizable exec s₀ history :=
  ⟨order, s, h.legal, h.nodup, h.invoked, h.answered, h.ordered⟩

theorem start (exec : ι → σ → ρ × σ) (s₀ : σ) : Linearized exec s₀ [] [] s₀ :=
  ⟨rfl, List.nodup_nil, by simp, by simp, by simp⟩

/-- A call that was never made before. -/
theorem invoke (h : Linearized exec s₀ history order s) {id : Nat} (hnew : ∀ op, .invoke id op ∉ history) (op : ι) :
    Linearized exec s₀ (history ++ [.invoke id op]) order s := by
  refine ⟨h.legal, h.nodup, fun e he => List.mem_append_left _ (h.invoked e he), ?_, ?_⟩
  · intro id' r hr
    rcases List.mem_append.1 hr with hr | hr
    · exact h.answered id' r hr
    · cases List.mem_singleton.1 hr
  · intro a ha b hb hbefore
    rcases before_concat hbefore with hbefore | ⟨op', heq⟩
    · exact h.ordered a ha b hb hbefore
    · -- the call has not taken effect yet
      cases heq
      exact absurd (h.invoked b hb) (hnew b.op)

/-- A call that was made takes effect. -/
theorem commit (h : Linearized exec s₀ history order s) {id : Nat} {op : ι} (hop : .invoke id op ∈ history)
    (hid : id ∉ order.map Effect.id) :
    Linearized exec s₀ history (order ++ [⟨id, op, (exec op s).1⟩]) (exec op s).2 := by
  refine ⟨h.legal.concat rfl, ?_, ?_, ?_, ?_⟩
  · rw [List.map_append, List.map_singleton, ← List.concat_eq_append]
    exact h.nodup.concat hid
  · intro e he
    rcases List.mem_append.1 he with he | he
    · exact h.invoked e he
    · cases List.mem_singleton.1 he
      exact hop
  · intro id' r hr
    obtain ⟨op', hmem⟩ := h.answered id' r hr
    exact ⟨op', List.mem_append_left _ hmem⟩
  · intro a ha b hb hbefore
    rcases List.mem_append.1 ha with ha | ha
    · rcases List.mem_append.1 hb with hb | hb
      · exact (h.ordered a ha b hb hbefore).trans (List.sublist_append_left _ _)
      · cases List.mem_singleton.1 hb
        exact (List.singleton_sublist.2 ha).append (List.Sublist.refl [_])
    · -- a call that has an answer has taken effect before
      cases List.mem_singleton.1 ha
      obtain ⟨r, hr⟩ := hbefore.respond_mem
      obtain ⟨op', hmem⟩ := h.answered _ r hr
      exact absurd (List.mem_map_of_mem hmem) hid

/-- A call that has taken effect is answered. -/
theorem respond (h : Linearized exec s₀ history order s) {id : Nat} {op : ι} {r : ρ} (hmem : ⟨id, op, r⟩ ∈ order) :
    Linearized exec s₀ (history ++ [.respond id r]) order s := by
  refine ⟨h.legal, h.nodup, fun e he => List.mem_append_left _ (h.invoked e he), ?_, ?_⟩
  · intro id' r' hr
    rcases List.mem_append.1 hr with hr | hr
    · exact h.answered id' r' hr
    · cases List.mem_singleton.1 hr
      exact ⟨op, hmem⟩
  · intro a ha b hb hbefore
    rcases before_concat hbefore with hbefore | ⟨op', heq⟩
    · exact h.ordered a ha b hb hbefore
    · cases heq

end Linearized

end Linear
