/-
Updates of a finite map, one key at a time: the last update of a key decides its value, so a
list of updates can be applied again over its own result, or over any map that agrees with the
right one on the keys the list leaves alone.
-/
import Mathlib.Data.Finmap

namespace Updates

variable {κ ν : Type} [DecidableEq κ]

/-- A finite map from keys to values. -/
abbrev Map (κ ν : Type) := Finmap (fun _ : κ => ν)

/-- One update: give the key a value, or (`none`) remove it. -/
abbrev Update (κ ν : Type) := κ × Option ν

/-- Apply one update. -/
def write (m : Map κ ν) : Update κ ν → Map κ ν
  | (k, some v) => m.insert k v
  | (k, none) => m.erase k

/-- Apply a list of updates in order. -/
def writeAll (m : Map κ ν) (us : List (Update κ ν)) : Map κ ν := us.foldl write m

/-- The value the last update of `k` in the list leaves, if the list updates `k` at all. -/
def lastOf (k : κ) : List (Update κ ν) → Option (Option ν)
  | [] => none
  | u :: us => (lastOf k us).orElse fun _ => if u.1 = k then some u.2 else none

/-! ## One update -/

theorem lookup_write (m : Map κ ν) (u : Update κ ν) (k : κ) :
    (write m u).lookup k = if u.1 = k then u.2 else m.lookup k := by
  obtain ⟨k', o⟩ := u
  by_cases h : k' = k
  · subst h
    cases o <;> simp [write]
  · rw [if_neg h]
    cases o with
    | none => exact Finmap.lookup_erase_ne (Ne.symm h)
    | some v => exact Finmap.lookup_insert_of_ne _ (Ne.symm h)

@[simp] theorem lookup_write_self (m : Map κ ν) (k : κ) (o : Option ν) : (write m (k, o)).lookup k = o := by
  rw [lookup_write, if_pos rfl]

theorem lookup_write_ne (m : Map κ ν) {u : Update κ ν} {k : κ} (h : u.1 ≠ k) :
    (write m u).lookup k = m.lookup k := by
  rw [lookup_write, if_neg h]

/-! ## Lists of updates -/

@[simp] theorem writeAll_cons (m : Map κ ν) (u : Update κ ν) (us : List (Update κ ν)) :
    writeAll m (u :: us) = writeAll (write m u) us := rfl

theorem lastOf_eq_none (k : κ) : ∀ us : List (Update κ ν), lastOf k us = none ↔ ∀ u ∈ us, u.1 ≠ k
  | [] => by simp [lastOf]
  | u :: us => by
    simp only [lastOf, List.forall_mem_cons, ← lastOf_eq_none k us]
    cases lastOf k us with
    | none => by_cases h : u.1 = k <;> simp [h]
    | some o => simp

/-- In a list that updates each key at most once, every update is the last one of its key. -/
theorem lastOf_of_nodup {k : κ} {o : Option ν} : ∀ {us : List (Update κ ν)}, (us.map Prod.fst).Nodup →
    (k, o) ∈ us → lastOf k us = some o
  | [], _, h => by cases h
  | u :: us, hnd, h => by
    simp only [List.map_cons, List.nodup_cons] at hnd
    rcases List.mem_cons.1 h with rfl | h
    · have hnone : lastOf k us = none :=
        (lastOf_eq_none k us).2 fun u hu e => hnd.1 (List.mem_map.2 ⟨u, hu, e⟩)
      simp [lastOf, hnone]
    · simp [lastOf, lastOf_of_nodup hnd.2 h]

theorem mem_of_lastOf {k : κ} {o : Option ν} : ∀ {us : List (Update κ ν)}, lastOf k us = some o → (k, o) ∈ us
  | [], h => by cases h
  | u :: us, h => by
    simp only [lastOf] at h
    cases hk : lastOf k us with
    | some o' =>
      rw [hk] at h
      cases h
      exact List.mem_cons_of_mem _ (mem_of_lastOf hk)
    | none =>
      rw [hk] at h
      by_cases he : u.1 = k
      · simp only [Option.orElse_none, if_pos he, Option.some.injEq] at h
        subst he h
        exact List.mem_cons_self
      · simp [if_neg he] at h

/-- The last update of a key decides its value; a key that is not updated keeps the old one. -/
theorem lookup_writeAll (k : κ) : ∀ (us : List (Update κ ν)) (m : Map κ ν),
    (writeAll m us).lookup k = (lastOf k us).getD (m.lookup k)
  | [], m => rfl
  | u :: us, m => by
    rw [writeAll_cons, lookup_writeAll k us, lookup_write, lastOf]
    cases lastOf k us with
    | some o => rfl
    | none => by_cases h : u.1 = k <;> simp [h]

/-- Two maps give the same result after the same updates if they agree on the keys left alone. -/
theorem writeAll_congr {us : List (Update κ ν)} {m m' : Map κ ν}
    (h : ∀ k, lastOf k us = none → m.lookup k = m'.lookup k) : writeAll m us = writeAll m' us := by
  apply Finmap.ext_lookup
  intro k
  rw [lookup_writeAll, lookup_writeAll]
  cases hk : lastOf k us with
  | none => simpa using h k hk
  | some o => rfl

/-- Applying a list over a map that already has the effect of an initial part of it changes
nothing more than applying it once. -/
theorem writeAll_absorb (m : Map κ ν) (us vs : List (Update κ ν)) :
    writeAll (writeAll m us) (us ++ vs) = writeAll m (us ++ vs) := by
  apply writeAll_congr
  intro k hk
  rw [lookup_writeAll]
  have hus : lastOf k us = none :=
    (lastOf_eq_none k us).2 fun u hu => (lastOf_eq_none k _).1 hk u (List.mem_append_left _ hu)
  rw [hus]
  rfl

end Updates
