/-
Finite maps in key order, and the distinct values met on a walk around one: the walk starts at
some entry, goes on in key order, wraps around at the end and stops where it started. From a key on,
the walk is the clockwise order, whose first entry comes no later than any other.
-/
import Mathlib.Tactic

namespace Ring

variable {κ ν : Type} [LinearOrder κ]

/-! ## Ordered maps -/

/-- A finite map, its entries in the order of their keys. -/
structure OrderedMap (κ ν : Type) [LinearOrder κ] where
  entries : List (κ × ν)
  sorted : entries.Pairwise fun a b => a.1 < b.1

namespace OrderedMap

def empty : OrderedMap κ ν := ⟨[], .nil⟩

def assign (k : κ) (v : ν) : List (κ × ν) → List (κ × ν)
  | [] => [(k, v)]
  | e :: es =>
    if e.1 < k then e :: assign k v es
    else if e.1 = k then (k, v) :: es
    else (k, v) :: e :: es

theorem mem_assign {k : κ} {v : ν} {e : κ × ν} : ∀ {es : List (κ × ν)}, e ∈ assign k v es → e = (k, v) ∨ e ∈ es
  | [], h => Or.inl (List.mem_singleton.1 h)
  | f :: es, h => by
    unfold assign at h
    split at h
    · rcases List.mem_cons.1 h with rfl | h
      · exact Or.inr List.mem_cons_self
      · rcases mem_assign h with h | h
        · exact Or.inl h
        · exact Or.inr (List.mem_cons_of_mem _ h)
    · split at h
      · rcases List.mem_cons.1 h with h | h
        · exact Or.inl h
        · exact Or.inr (List.mem_cons_of_mem _ h)
      · exact List.mem_cons.1 h

theorem assign_ne_nil (k : κ) (v : ν) : ∀ es : List (κ × ν), assign k v es ≠ []
  | [] => by simp [assign]
  | e :: es => by
    unfold assign
    split
    · simp
    · split <;> simp

theorem sorted_assign (k : κ) (v : ν) : ∀ {es : List (κ × ν)}, es.Pairwise (fun a b => a.1 < b.1) →
    (assign k v es).Pairwise fun a b => a.1 < b.1
  | [], _ => List.pairwise_singleton _ _
  | e :: es, h => by
    obtain ⟨he, hes⟩ := List.pairwise_cons.1 h
    unfold assign
    split
    · rename_i hlt
      refine List.pairwise_cons.2 ⟨?_, sorted_assign k v hes⟩
      intro f hf
      rcases mem_assign hf with rfl | hf
      · exact hlt
      · exact he f hf
    · split
      · rename_i heq
        exact List.pairwise_cons.2 ⟨fun f hf => heq ▸ he f hf, hes⟩
      · rename_i hge hne
        have hlt : k < e.1 := lt_of_le_of_ne (not_lt.1 hge) (Ne.symm hne)
        refine List.pairwise_cons.2 ⟨?_, h⟩
        intro f hf
        rcases List.mem_cons.1 hf with rfl | hf
        · exact hlt
        · exact hlt.trans (he f hf)

/-- `m[k] = v`. -/
def insert (m : OrderedMap κ ν) (k : κ) (v : ν) : OrderedMap κ ν := ⟨assign k v m.entries, sorted_assign k v m.sorted⟩

/-- Erase the entries with value `v`. -/
def eraseValue [DecidableEq ν] (m : OrderedMap κ ν) (v : ν) : OrderedMap κ ν :=
  ⟨m.entries.filter (·.2 ≠ v), m.sorted.filter _⟩

theorem mem_assign_iff {k : κ} {v : ν} {e : κ × ν} : ∀ {es : List (κ × ν)}, es.Pairwise (fun a b => a.1 < b.1) →
    (e ∈ assign k v es ↔ e = (k, v) ∨ e ∈ es ∧ e.1 ≠ k)
  | [], _ => by simp [assign]
  | f :: es, h => by
    obtain ⟨hf, hes⟩ := List.pairwise_cons.1 h
    unfold assign
    split
    · rename_i hlt
      have hne : f.1 ≠ k := hlt.ne
      rw [List.mem_cons, mem_assign_iff hes, List.mem_cons]
      grind
    · -- every later key is above `k`
      rename_i hge
      have hlater : ∀ e ∈ es, e.1 ≠ k := fun e he => ((not_lt.1 hge).trans_lt (hf e he)).ne'
      split
      · grind
      · grind

/-- What an insertion leaves: the new entry, and the old ones under other keys. -/
theorem mem_insert {m : OrderedMap κ ν} {k : κ} {v : ν} {e : κ × ν} :
    e ∈ (m.insert k v).entries ↔ e = (k, v) ∨ e ∈ m.entries ∧ e.1 ≠ k :=
  mem_assign_iff m.sorted

/-- Maps with the same entries are equal. -/
theorem eq_of_mem_iff {m m' : OrderedMap κ ν} (h : ∀ e, e ∈ m.entries ↔ e ∈ m'.entries) : m = m' := by
  have hnodup : ∀ m : OrderedMap κ ν, m.entries.Nodup := fun m => m.sorted.imp fun hlt heq => hlt.ne (congrArg _ heq)
  have hperm : m.entries.Perm m'.entries := (List.perm_ext_iff_of_nodup (hnodup m) (hnodup m')).2 h
  have heq : m.entries = m'.entries := by
    refine hperm.eq_of_pairwise ?_ m.sorted m'.sorted
    intro a b _ _ hab hba
    exact absurd hba hab.asymm
  cases m
  cases m'
  cases heq
  rfl

/-- The position of the first entry whose key is not below `k`; the end if there is none. -/
def lowerBound (m : OrderedMap κ ν) (k : κ) : Nat := m.entries.findIdx (fun e => k ≤ e.1)

/-! ## Clockwise order -/

/-- The entries met on one walk around the map: those from `k` on, then those before it. -/
def clockwise (m : OrderedMap κ ν) (k : κ) : List (κ × ν) :=
  m.entries.filter (fun e => k ≤ e.1) ++ m.entries.filter (fun e => ¬ k ≤ e.1)

theorem split_findIdx (k : κ) : ∀ {es : List (κ × ν)}, es.Pairwise (fun a b => a.1 < b.1) →
    es.drop (es.findIdx fun e => k ≤ e.1) = es.filter (fun e => k ≤ e.1) ∧
      es.take (es.findIdx fun e => k ≤ e.1) = es.filter (fun e => ¬ k ≤ e.1)
  | [], _ => by simp
  | e :: es, h => by
    obtain ⟨he, hes⟩ := List.pairwise_cons.1 h
    obtain ⟨ihdrop, ihtake⟩ := split_findIdx k hes
    by_cases hk : k ≤ e.1
    · -- from here on no key is below `k`
      have hall : ∀ f ∈ es, k ≤ f.1 := fun f hf => hk.trans (he f hf).le
      have hall : ∀ f ∈ e :: es, k ≤ f.1 := List.forall_mem_cons.2 ⟨hk, hall⟩
      have hidx : (e :: es).findIdx (fun f => k ≤ f.1) = 0 := by simp [List.findIdx_cons, hk]
      rw [hidx, List.filter_eq_self.2 fun f hf => decide_eq_true (hall f hf),
        List.filter_eq_nil_iff.2 fun f hf => by simpa using hall f hf]
      exact ⟨rfl, rfl⟩
    · simp only [List.findIdx_cons, hk, decide_false, cond_false, List.drop_succ_cons, List.take_succ_cons, ihdrop,
        ihtake]
      constructor
      · rw [List.filter_cons_of_neg (by simpa using hk)]
      · rw [List.filter_cons_of_pos (by simpa using hk)]

/-- The walk from the lower bound of `k`, wrapping around at the end, is clockwise. -/
theorem rotate_lowerBound (m : OrderedMap κ ν) (k : κ) : m.entries.rotate (m.lowerBound k) = m.clockwise k := by
  obtain ⟨hdrop, htake⟩ := split_findIdx k m.sorted
  unfold lowerBound clockwise
  rw [List.rotate_eq_drop_append_take List.findIdx_le_length, hdrop, htake]

theorem clockwise_eraseValue [DecidableEq ν] (m : OrderedMap κ ν) (v : ν) (k : κ) :
    (m.eraseValue v).clockwise k = (m.clockwise k).filter (·.2 ≠ v) := by
  unfold clockwise eraseValue
  simp only [List.filter_append, List.filter_filter, Bool.and_comm]

theorem mem_clockwise {m : OrderedMap κ ν} {k : κ} {e : κ × ν} : e ∈ m.clockwise k ↔ e ∈ m.entries := by
  unfold clockwise
  rw [List.mem_append, List.mem_filter, List.mem_filter]
  by_cases hk : k ≤ e.1 <;> simp [hk]

/-- Going clockwise from `k`, `a` comes no later than `b`. -/
def NoLater (k a b : κ) : Prop := if k ≤ a then b < k ∨ a ≤ b else b < k ∧ a ≤ b

theorem NoLater.antisymm {k a b : κ} (h : NoLater k a b) (h' : NoLater k b a) : a = b := by
  unfold NoLater at h h'
  split at h
  · rename_i ha
    split at h'
    · rename_i hb
      exact le_antisymm (h.resolve_left (not_lt.2 hb)) (h'.resolve_left (not_lt.2 ha))
    · exact absurd h'.1 (not_lt.2 ha)
  · rename_i ha
    rw [if_neg (not_le.2 h.1)] at h'
    exact le_antisymm h.2 h'.2

theorem NoLater.trans {k a b c : κ} (h : NoLater k a b) (h' : NoLater k b c) : NoLater k a c := by
  unfold NoLater at h h' ⊢
  split at h
  · rename_i ha
    rw [if_pos ha]
    rcases h with hb | hab
    · rw [if_neg (not_le.2 hb)] at h'
      exact Or.inl h'.1
    · rw [if_pos (ha.trans hab)] at h'
      exact h'.imp_right hab.trans
  · rename_i ha
    rw [if_neg (not_le.2 h.1)] at h'
    rw [if_neg ha]
    exact ⟨h'.1, h.2.trans h'.2⟩

theorem pairwise_clockwise (m : OrderedMap κ ν) (k : κ) :
    (m.clockwise k).Pairwise fun a b => NoLater k a.1 b.1 := by
  refine List.pairwise_append.2 ⟨?_, ?_, ?_⟩
  · refine (m.sorted.filter _).imp_of_mem ?_
    intro a b ha _ hab
    have ha : k ≤ a.1 := by simpa using (List.mem_filter.1 ha).2
    exact (if_pos ha).mpr (Or.inr hab.le)
  · refine (m.sorted.filter _).imp_of_mem ?_
    intro a b ha hb hab
    have ha : ¬ k ≤ a.1 := by simpa using (List.mem_filter.1 ha).2
    have hb : b.1 < k := by simpa using (List.mem_filter.1 hb).2
    exact (if_neg ha).mpr ⟨hb, hab.le⟩
  · -- the part from `k` on comes before the part that wraps around
    intro a ha b hb
    have ha : k ≤ a.1 := by simpa using (List.mem_filter.1 ha).2
    have hb : b.1 < k := by simpa using (List.mem_filter.1 hb).2
    exact (if_pos ha).mpr (Or.inl hb)

/-- The first entry of the walk comes no later than any other. -/
theorem noLater_of_head {m : OrderedMap κ ν} {k : κ} {e f : κ × ν} (he : (m.clockwise k).head? = some e)
    (hf : f ∈ m.entries) : NoLater k e.1 f.1 := by
  obtain ⟨rest, hrest⟩ := List.head?_eq_some_iff.1 he
  have hpair := m.pairwise_clockwise k
  rw [hrest] at hpair
  have hmem : f ∈ e :: rest := by rwa [← hrest, mem_clockwise]
  rcases List.mem_cons.1 hmem with rfl | hmem
  · unfold NoLater
    split
    · exact Or.inr le_rfl
    · rename_i hk
      exact ⟨not_le.1 hk, le_rfl⟩
  · exact (List.pairwise_cons.1 hpair).1 f hmem

/-- Entries of an ordered map under one key are one entry. -/
theorem eq_of_key_eq {m : OrderedMap κ ν} {e f : κ × ν} (he : e ∈ m.entries) (hf : f ∈ m.entries)
    (h : e.1 = f.1) : e = f := by
  have hkeys : (m.entries.map Prod.fst).Nodup := List.pairwise_map.2 (m.sorted.imp fun hlt => hlt.ne)
  exact List.inj_on_of_nodup_map hkeys he hf h

end OrderedMap

/-! ## Distinct values -/

variable [DecidableEq ν]

/-- Append `x` if it is not there. -/
def push (seen : List ν) (x : ν) : List ν := if x ∈ seen then seen else seen ++ [x]

/-- The values of a list after those already seen, each at its first occurrence. -/
def distinctFrom (seen : List ν) (xs : List ν) : List ν := xs.foldl push seen

/-- The values of a list, each at its first occurrence. -/
def distinct (xs : List ν) : List ν := distinctFrom [] xs

/-- The same until `n` values have been seen. -/
def firstDistinct (n : Nat) : List ν → List ν → List ν
  | seen, [] => seen
  | seen, x :: xs => if seen.length < n then firstDistinct n (push seen x) xs else seen

theorem mem_push {seen : List ν} {x y : ν} : y ∈ push seen x ↔ y ∈ seen ∨ y = x := by
  unfold push
  split
  · rename_i h
    constructor
    · exact Or.inl
    · rintro (hy | rfl)
      · exact hy
      · exact h
  · simp

theorem nodup_push {seen : List ν} (h : seen.Nodup) (x : ν) : (push seen x).Nodup := by
  unfold push
  split
  · exact h
  · rename_i hx
    exact h.append (List.nodup_singleton x) (by simpa using hx)

theorem prefix_push (seen : List ν) (x : ν) : seen <+: push seen x := by
  unfold push
  split
  · exact List.prefix_refl _
  · exact List.prefix_append _ _

theorem length_push_le (seen : List ν) (x : ν) : (push seen x).length ≤ seen.length + 1 := by
  unfold push
  split
  · omega
  · simp

theorem mem_distinctFrom {y : ν} : ∀ {xs seen : List ν}, y ∈ distinctFrom seen xs ↔ y ∈ seen ∨ y ∈ xs
  | [], seen => by simp [distinctFrom]
  | x :: xs, seen => by
    show y ∈ distinctFrom (push seen x) xs ↔ _
    rw [mem_distinctFrom, mem_push, List.mem_cons, or_assoc]

theorem nodup_distinctFrom : ∀ {xs seen : List ν}, seen.Nodup → (distinctFrom seen xs).Nodup
  | [], _, h => h
  | x :: xs, seen, h => by
    show (distinctFrom (push seen x) xs).Nodup
    exact nodup_distinctFrom (nodup_push h x)

theorem prefix_distinctFrom : ∀ (xs seen : List ν), seen <+: distinctFrom seen xs
  | [], seen => List.prefix_refl seen
  | x :: xs, seen => (prefix_push seen x).trans (prefix_distinctFrom xs _)

theorem mem_distinct {y : ν} {xs : List ν} : y ∈ distinct xs ↔ y ∈ xs := by
  simp [distinct, mem_distinctFrom]

theorem nodup_distinct (xs : List ν) : (distinct xs).Nodup := nodup_distinctFrom List.nodup_nil

theorem head?_distinct (xs : List ν) : (distinct xs).head? = xs.head? := by
  cases xs with
  | nil => rfl
  | cons x xs =>
    obtain ⟨rest, hrest⟩ := prefix_distinctFrom xs [x]
    show (distinctFrom (push [] x) xs).head? = some x
    have : push [] x = [x] := by simp [push]
    rw [this, ← hrest]
    rfl

/-- Stopping at `n` values gives the first `n` of them all. -/
theorem firstDistinct_eq_take {n : Nat} : ∀ {xs seen : List ν}, seen.length ≤ n →
    firstDistinct n seen xs = (distinctFrom seen xs).take n
  | [], seen, h => (List.take_of_length_le h).symm
  | x :: xs, seen, h => by
    unfold firstDistinct
    split
    · rename_i hlt
      have hlen := length_push_le seen x
      exact firstDistinct_eq_take (by omega)
    · rename_i hge
      obtain ⟨rest, hrest⟩ := prefix_distinctFrom (x :: xs) seen
      have hn : seen.length = n := by omega
      rw [← hrest, ← hn, List.take_left]

/-- Leaving values out of a list leaves them out of its distinct values. -/
theorem distinctFrom_filter (p : ν → Bool) : ∀ xs seen : List ν,
    distinctFrom (seen.filter p) (xs.filter p) = (distinctFrom seen xs).filter p
  | [], _ => rfl
  | x :: xs, seen => by
    show _ = (distinctFrom (push seen x) xs).filter p
    rw [← distinctFrom_filter p xs]
    by_cases hx : p x
    · have hpush : push (seen.filter p) x = (push seen x).filter p := by
        unfold push
        by_cases hmem : x ∈ seen <;> simp [hmem, hx]
      rw [List.filter_cons_of_pos hx, ← hpush]
      rfl
    · have hpush : (push seen x).filter p = seen.filter p := by
        unfold push
        split <;> simp [hx]
      rw [List.filter_cons_of_neg hx, hpush]

theorem distinct_filter (p : ν → Bool) (xs : List ν) : distinct (xs.filter p) = (distinct xs).filter p :=
  distinctFrom_filter p xs []

/-- The values come from a list without duplicates, so there are no more of them. -/
theorem length_distinct_le {xs ys : List ν} (h : ∀ x ∈ xs, x ∈ ys) : (distinct xs).length ≤ ys.length :=
  (List.subperm_of_subset (nodup_distinct xs) fun x hx => h x (mem_distinct.1 hx)).length_le

end Ring
