/-
A row of slots, each of which may hold an item with a key: what the row holds of a key after one
slot has changed, in particular when it never holds more than one item of a key.
-/
import Mathlib.Tactic

namespace Slots

variable {σ α κ : Type} [DecidableEq κ]

/-- The items of the row with key `k`, in the order of the slots. -/
def itemsOf (key : α → κ) (f : σ → Option α) (k : κ) (row : List σ) : List α :=
  row.filterMap fun w => (f w).filter (key · = k)

theorem split_of_getElem? {row : List σ} {t : Nat} {w : σ} (h : row[t]? = some w) :
    ∃ before after, row = before ++ w :: after ∧ ∀ w', row.set t w' = before ++ w' :: after := by
  obtain ⟨ht, rfl⟩ := List.getElem?_eq_some_iff.1 h
  refine ⟨row.take t, row.drop (t + 1), ?_, fun w' => ?_⟩
  · rw [List.getElem_cons_drop, List.take_append_drop]
  · rw [List.set_eq_take_append_cons_drop, if_pos ht]

section Set

variable {key : α → κ} {f : σ → Option α} {row : List σ} {t : Nat} {w w' : σ} {a : α}

theorem itemsOf_set_of_eq {k : κ} (h : row[t]? = some w)
    (hf : (f w').filter (key · = k) = (f w).filter (key · = k)) :
    itemsOf key f k (row.set t w') = itemsOf key f k row := by
  obtain ⟨before, after, hrow, hset⟩ := split_of_getElem? h
  rw [hset, hrow]
  simp only [itemsOf, List.filterMap_append, List.filterMap_cons, hf]

theorem itemsOf_set_same (h : row[t]? = some w) (hf : f w' = f w) (k : κ) :
    itemsOf key f k (row.set t w') = itemsOf key f k row :=
  itemsOf_set_of_eq h (by rw [hf])

/-- A slot that has no item of key `k` before and after makes no difference to `k`. -/
theorem itemsOf_set_other {k : κ} (h : row[t]? = some w) (hf : ∀ a, f w = some a → key a ≠ k)
    (hf' : ∀ a, f w' = some a → key a ≠ k) : itemsOf key f k (row.set t w') = itemsOf key f k row := by
  have hnone : ∀ {w : σ}, (∀ a, f w = some a → key a ≠ k) → (f w).filter (key · = k) = none := by
    intro w hw
    rw [Option.filter_eq_none_iff]
    intro a ha
    simpa using hw a ha
  exact itemsOf_set_of_eq h (by rw [hnone hf, hnone hf'])

/-- An item put into a row without items of its key. -/
theorem itemsOf_set_put (h : row[t]? = some w) (hf' : f w' = some a) (hnone : itemsOf key f (key a) row = []) :
    itemsOf key f (key a) (row.set t w') = [a] := by
  obtain ⟨before, after, hrow, hset⟩ := split_of_getElem? h
  rw [hrow] at hnone
  rw [hset]
  simp only [itemsOf, List.filterMap_append, List.append_eq_nil_iff, List.filterMap_cons, hf'] at hnone ⊢
  obtain ⟨hb, ha⟩ := hnone
  have hafter : after.filterMap (fun w => (f w).filter (key · = key a)) = [] := by
    split at ha
    · exact ha
    · cases ha
  rw [hb, hafter]
  simp [Option.filter_some]

/-- An item taken out of a row with at most one item of its key. -/
theorem itemsOf_set_take (h : row[t]? = some w) (hf : f w = some a) (hf' : f w' = none)
    (hone : (itemsOf key f (key a) row).length ≤ 1) :
    itemsOf key f (key a) row = [a] ∧ itemsOf key f (key a) (row.set t w') = [] := by
  obtain ⟨before, after, hrow, hset⟩ := split_of_getElem? h
  rw [hrow] at hone
  have hsome : (f w).filter (fun b => decide (key b = key a)) = some a := by simp [hf]
  simp only [itemsOf, List.filterMap_append, List.filterMap_cons, hsome, List.length_append, List.length_cons] at hone
  have hb : before.filterMap (fun w => (f w).filter (key · = key a)) = [] := List.length_eq_zero_iff.1 (by omega)
  have ha : after.filterMap (fun w => (f w).filter (key · = key a)) = [] := List.length_eq_zero_iff.1 (by omega)
  rw [hset, hrow]
  simp only [itemsOf, List.filterMap_append, List.filterMap_cons, hsome, hf', Option.filter_none, hb, ha,
    List.nil_append, and_self]

/-- A row seen through `f` holds part of what it holds through `g`, if the slots do. -/
theorem itemsOf_sublist {g : σ → Option α} (hfg : ∀ w a, f w = some a → g w = some a) (k : κ) :
    ∀ row : List σ, (itemsOf key f k row).Sublist (itemsOf key g k row)
  | [] => .slnil
  | w :: row => by
    have ih := itemsOf_sublist hfg k row
    unfold itemsOf at ih ⊢
    rw [List.filterMap_cons, List.filterMap_cons]
    cases hf : f w with
    | none =>
      simp only [Option.filter_none]
      split
      · exact ih
      · exact ih.cons _
    | some a =>
      rw [hfg w a hf]
      split
      · exact ih
      · exact ih.cons_cons _

/-- A property of all slots is kept if the new content has it. -/
theorem all_set {P : σ → Prop} (h : ∀ w ∈ row, P w) (hw : P w') : ∀ w ∈ row.set t w', P w :=
  fun w hmem => (List.mem_or_eq_of_mem_set hmem).elim (h w) fun e => e ▸ hw

end Set

end Slots
