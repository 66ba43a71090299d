/-
Who holds what. A lock is held by the one holder whose code is inside the region it protects. Items
are taken in one by one, each in the hands of at most one holder, passed from hand to hand and done
with once; when all hands are empty, what is done with is what was taken in.
-/
import Mathlib.Tactic

namespace Custody

open Function

variable {τ α : Type} [DecidableEq τ]

/-- What a holder is after an update, by whether it is the one updated. -/
theorem update_eq_iff {β : Type} {f : τ → β} {t u : τ} {b c : β} :
    update f t b u = c ↔ u = t ∧ b = c ∨ u ≠ t ∧ f u = c := by
  by_cases hu : u = t
  · subst hu
    simp
  · simp [hu]

/-! ## A lock -/

/-- The owner of the lock is the holder that is inside. -/
def Locked (owner : Option τ) (inside : τ → Bool) : Prop := ∀ t, inside t = true ↔ owner = some t

namespace Locked

variable {owner : Option τ} {inside : τ → Bool} {t : τ} {b : Bool}

theorem acquire (h : Locked owner inside) (hfree : owner = none) (hb : b = true) :
    Locked (some t) (update inside t b) := by
  intro u
  by_cases hu : u = t
  · subst hu
    simp [hb]
  · rw [update_of_ne hu, h u, hfree]
    simp [Ne.symm hu]

theorem release (h : Locked owner inside) (ht : inside t = true) (hb : b = false) :
    Locked none (update inside t b) := by
  intro u
  by_cases hu : u = t
  · subst hu
    simp [hb]
  · rw [update_of_ne hu, h u, (h t).1 ht]
    simp [Ne.symm hu]

/-- A step of a holder that neither enters nor leaves. -/
theorem keep (h : Locked owner inside) (hb : b = inside t) : Locked owner (update inside t b) := by
  rw [hb, update_eq_self]
  exact h

omit [DecidableEq τ] in
theorem exclusive {u : τ} (h : Locked owner inside) (ht : inside t = true) (hu : inside u = true) : t = u :=
  Option.some.inj (((h t).1 ht).symm.trans ((h u).1 hu))

end Locked

/-! ## Items -/

/-- `taken` are the items taken in, `done` those done with; the others are in the hands of one holder. -/
structure Holding (held : τ → Option α) (taken done : List α) : Prop where
  taken_nodup : taken.Nodup
  done_nodup : done.Nodup
  mem_taken : ∀ a, a ∈ taken ↔ a ∈ done ∨ ∃ t, held t = some a
  not_done : ∀ t a, held t = some a → a ∉ done
  one : ∀ t u a, held t = some a → held u = some a → t = u

namespace Holding

variable {held : τ → Option α} {taken done : List α} {t u : τ} {a : α}

omit [DecidableEq τ] in
theorem start : Holding (fun _ : τ => none) ([] : List α) [] := by
  constructor <;> simp

omit [DecidableEq τ] in
theorem mem_of_held (h : Holding held taken done) (ht : held t = some a) : a ∈ taken :=
  (h.mem_taken a).2 (.inr ⟨t, ht⟩)

theorem take (h : Holding held taken done) (ht : held t = none) (ha : a ∉ taken) :
    Holding (update held t (some a)) (taken ++ [a]) done := by
  have hheld : ∀ u b, update held t (some a) u = some b ↔ u = t ∧ b = a ∨ held u = some b := by
    intro u b
    by_cases hu : u = t
    · subst hu
      simp [ht, eq_comm]
    · simp [hu]
  have hdone : a ∉ done := fun hd => ha ((h.mem_taken a).2 (.inl hd))
  refine ⟨?_, h.done_nodup, ?_, ?_, ?_⟩
  · rw [← List.concat_eq_append]
    exact h.taken_nodup.concat ha
  · intro b
    rw [List.mem_append, List.mem_singleton, h.mem_taken b]
    constructor
    · rintro ((hb | ⟨u, hu⟩) | rfl)
      · exact .inl hb
      · exact .inr ⟨u, (hheld u b).2 (.inr hu)⟩
      · exact .inr ⟨t, (hheld t b).2 (.inl ⟨rfl, rfl⟩)⟩
    · rintro (hb | ⟨u, hu⟩)
      · exact .inl (.inl hb)
      · rcases (hheld u b).1 hu with ⟨-, rfl⟩ | hu
        · exact .inr rfl
        · exact .inl (.inr ⟨u, hu⟩)
  · intro u b hu
    rcases (hheld u b).1 hu with ⟨-, rfl⟩ | hu
    · exact hdone
    · exact h.not_done u b hu
  · intro u v b hu hv
    rw [hheld] at hu hv
    rcases hu with ⟨rfl, hb⟩ | hu <;> rcases hv with ⟨rfl, hb'⟩ | hv
    · rfl
    · exact absurd (h.mem_of_held hv) (hb ▸ ha)
    · exact absurd (h.mem_of_held hu) (hb' ▸ ha)
    · exact h.one u v b hu hv

theorem finish (h : Holding held taken done) (ht : held t = some a) :
    Holding (update held t none) taken (done ++ [a]) := by
  have hheld : ∀ u b, update held t none u = some b ↔ u ≠ t ∧ held u = some b := by
    intro u b
    simp [update_eq_iff]
  refine ⟨h.taken_nodup, ?_, ?_, ?_, ?_⟩
  · rw [← List.concat_eq_append]
    exact h.done_nodup.concat (h.not_done t a ht)
  · intro b
    rw [h.mem_taken b, List.mem_append, List.mem_singleton]
    constructor
    · rintro (hb | ⟨u, hu⟩)
      · exact .inl (.inl hb)
      · by_cases heq : u = t
        · subst heq
          exact .inl (.inr (Option.some.inj (hu.symm.trans ht)))
        · exact .inr ⟨u, (hheld u b).2 ⟨heq, hu⟩⟩
    · rintro ((hb | rfl) | ⟨u, hu⟩)
      · exact .inl hb
      · exact .inr ⟨t, ht⟩
      · exact .inr ⟨u, ((hheld u b).1 hu).2⟩
  · intro u b hu hmem
    obtain ⟨hne, hu⟩ := (hheld u b).1 hu
    rcases List.mem_append.1 hmem with hb | hb
    · exact h.not_done u b hu hb
    · rw [List.mem_singleton] at hb
      subst hb
      exact hne (h.one u t b hu ht)
  · intro u v b hu hv
    exact h.one u v b ((hheld u b).1 hu).2 ((hheld v b).1 hv).2

/-- A step of a holder that leaves its hands as they are. -/
theorem keep {b : Option α} (h : Holding held taken done) (hb : b = held t) :
    Holding (update held t b) taken done := by
  rw [hb, update_eq_self]
  exact h

/-- What `u` holds goes to `t`, whose hands are empty. -/
theorem pass (h : Holding held taken done) (htu : t ≠ u) (ht : held t = none) :
    Holding (update (update held t (held u)) u none) taken done := by
  -- seen from an item, the one holder `u` is replaced by `t`
  have hheld : ∀ v b, update (update held t (held u)) u none v = some b ↔
      v ≠ u ∧ (v = t ∧ held u = some b ∨ held v = some b) := by
    intro v b
    by_cases hvu : v = u
    · subst hvu
      simp
    · by_cases hvt : v = t
      · subst hvt
        simp [htu, ht]
      · simp [hvu, hvt]
  refine ⟨h.taken_nodup, h.done_nodup, ?_, ?_, ?_⟩
  · intro b
    rw [h.mem_taken b]
    refine or_congr Iff.rfl ⟨?_, ?_⟩
    · rintro ⟨v, hv⟩
      by_cases hvu : v = u
      · subst hvu
        exact ⟨t, (hheld t b).2 ⟨htu, .inl ⟨rfl, hv⟩⟩⟩
      · exact ⟨v, (hheld v b).2 ⟨hvu, .inr hv⟩⟩
    · rintro ⟨v, hv⟩
      obtain ⟨-, ⟨-, hu⟩ | hv⟩ := (hheld v b).1 hv
      · exact ⟨u, hu⟩
      · exact ⟨v, hv⟩
  · intro v b hv
    obtain ⟨-, ⟨-, hu⟩ | hv⟩ := (hheld v b).1 hv
    · exact h.not_done u b hu
    · exact h.not_done v b hv
  · intro v w b hv hw
    rw [hheld] at hv hw
    obtain ⟨hvu, ⟨rfl, hv⟩ | hv⟩ := hv <;> obtain ⟨hwu, ⟨rfl, hw⟩ | hw⟩ := hw
    · rfl
    · exact absurd (h.one w u b hw hv) hwu
    · exact absurd (h.one v u b hv hw) hvu
    · exact h.one v w b hv hw

omit [DecidableEq τ] in
/-- With all hands empty, exactly the items taken in have been done with, each once. -/
theorem done_perm (h : Holding held taken done) (hnone : ∀ t, held t = none) : done.Perm taken := by
  refine (List.perm_ext_iff_of_nodup h.done_nodup h.taken_nodup).2 fun a => ?_
  rw [h.mem_taken a]
  constructor
  · exact .inl
  · rintro (hd | ⟨t, ht⟩)
    · exact hd
    · rw [hnone t] at ht
      cases ht

end Holding

end Custody
