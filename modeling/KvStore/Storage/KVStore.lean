/-
The storage engine (`src/storage/kv_store.cpp`, `concurrent_kv_store.cpp`). `ConcurrentKVStore`
takes its lock around one call of `KVStore` and nothing else, so each of its methods is the
method here, as one atomic step. An `unordered_map` is a finite map; its unspecified iteration
order is any list that enumerates the map.
-/
import KvStore.Common.Types
import KvStore.Lib.Updates

namespace KvStore

open Bytes Updates

/-- `KVStore`: its one field, `std::unordered_map<Key, Value> store_`. -/
structure KVStore where
  data : Map Key Value
  deriving DecidableEq

namespace KVStore

/-- `KVStore()`. -/
def empty : KVStore := ⟨∅⟩

/-- `KVStore::put`. -/
def put (s : KVStore) (key : Key) (value : Value) : Response × KVStore :=
  if maxKeySize < key.length then (⟨.keyTooLarge, []⟩, s)
  else if maxValueSize < value.length then (⟨.valueTooLarge, []⟩, s)
  else (⟨.ok, []⟩, ⟨s.data.insert key value⟩)

/-- `KVStore::get`. -/
def get (s : KVStore) (key : Key) : Response :=
  match s.data.lookup key with
  | some v => ⟨.ok, v⟩
  | none => ⟨.notFound, []⟩

/-- `KVStore::del`. -/
def del (s : KVStore) (key : Key) : Response × KVStore :=
  if key ∈ s.data then (⟨.ok, []⟩, ⟨s.data.erase key⟩) else (⟨.notFound, []⟩, s)

/-- `ConcurrentKVStore::snapshot`: a copy of the map, taken under the lock. -/
def snapshot (s : KVStore) : Map Key Value := s.data

/-- `ConcurrentKVStore::loadFromSnapshot`: `clear`, then `loadData`. -/
def loadFromSnapshot (_ : KVStore) (d : Map Key Value) : KVStore := ⟨d⟩

/-- The size limits `put` enforces. -/
def Accepts (key : Key) (value : Value) : Prop := key.length ≤ maxKeySize ∧ value.length ≤ maxValueSize

instance (key : Key) (value : Value) : Decidable (Accepts key value) :=
  inferInstanceAs (Decidable (_ ∧ _))

/-- Every pair of the store is within the limits of `put`. -/
def WithinLimits (s : KVStore) : Prop := ∀ k v, s.data.lookup k = some v → Accepts k v

@[ext] theorem ext {s t : KVStore} (h : ∀ k, s.data.lookup k = t.data.lookup k) : s = t := by
  obtain ⟨a⟩ := s
  obtain ⟨b⟩ := t
  exact congrArg KVStore.mk (Finmap.ext_lookup h)

/-! ## Put -/

theorem put_ok {key : Key} {value : Value} (h : Accepts key value) (s : KVStore) :
    s.put key value = (⟨.ok, []⟩, ⟨write s.data (key, some value)⟩) := by
  unfold put
  rw [if_neg (Nat.not_lt.2 h.1), if_neg (Nat.not_lt.2 h.2)]
  rfl

/-- A pair beyond the limits is refused and the store is left as it was. -/
theorem put_refused {key : Key} {value : Value} (h : ¬ Accepts key value) (s : KVStore) :
    (s.put key value).1.status ≠ .ok ∧ (s.put key value).1.value = [] ∧ (s.put key value).2 = s := by
  unfold put
  split
  · simp
  · split
    · simp
    · rename_i h1 h2
      exact absurd ⟨Nat.not_lt.1 h1, Nat.not_lt.1 h2⟩ h

theorem put_ne_error (s : KVStore) (key : Key) (value : Value) : (s.put key value).1 ≠ ⟨.error, []⟩ := by
  unfold put
  split
  · simp
  · split <;> simp

theorem put_withinLimits {s : KVStore} (hs : s.WithinLimits) (key : Key) (value : Value) :
    (s.put key value).2.WithinLimits := by
  by_cases h : Accepts key value
  · rw [put_ok h]
    intro k v hk
    simp only [lookup_write] at hk
    split at hk
    · rename_i e
      cases hk
      exact e ▸ h
    · exact hs k v hk
  · rw [(put_refused h s).2.2]
    exact hs

/-- A PUT leaves the store as it was if it is refused or the value is there already. -/
theorem put_eq_self_iff {s : KVStore} {key : Key} {value : Value} :
    (s.put key value).2 = s ↔ ¬ (Accepts key value ∧ s.data.lookup key ≠ some value) := by
  by_cases h : Accepts key value
  · rw [put_ok h]
    constructor
    · rintro hst ⟨-, hne⟩
      apply hne
      rw [← hst]
      exact lookup_write_self _ _ _
    · intro hn
      have hv : s.data.lookup key = some value := by
        by_contra hne
        exact hn ⟨h, hne⟩
      ext1 k
      simp only [lookup_write]
      split
      · rename_i e
        rw [← e, hv]
      · rfl
  · simp [put_refused h s, h]

/-! ## Get -/

theorem get_some {s : KVStore} {key : Key} {v : Value} (h : s.data.lookup key = some v) :
    s.get key = ⟨.ok, v⟩ := by
  unfold get; rw [h]

theorem get_none {s : KVStore} {key : Key} (h : s.data.lookup key = none) :
    s.get key = ⟨.notFound, []⟩ := by
  unfold get; rw [h]

theorem get_notFound_iff (s : KVStore) (key : Key) :
    (s.get key).status = .notFound ↔ s.data.lookup key = none := by
  rcases h : s.data.lookup key with _ | v
  · simp [get_none h]
  · simp [get_some h]

theorem get_congr {s t : KVStore} {key : Key} (h : s.data.lookup key = t.data.lookup key) :
    s.get key = t.get key := by
  unfold get; rw [h]

/-! ## Delete -/

theorem del_present {s : KVStore} {key : Key} {v : Value} (h : s.data.lookup key = some v) :
    s.del key = (⟨.ok, []⟩, ⟨write s.data (key, none)⟩) := by
  unfold del
  rw [if_pos (Finmap.mem_of_lookup_eq_some h)]
  rfl

theorem del_absent {s : KVStore} {key : Key} (h : s.data.lookup key = none) :
    s.del key = (⟨.notFound, []⟩, s) := by
  unfold del
  rw [if_neg (Finmap.lookup_eq_none.1 h)]

/-- Deleting a key removes it, whether or not it was there. -/
theorem del_data (s : KVStore) (key : Key) : (s.del key).2.data = write s.data (key, none) := by
  cases h : s.data.lookup key with
  | some v => rw [del_present h]
  | none =>
    rw [del_absent h]
    apply Finmap.ext_lookup
    intro k
    rw [lookup_write]
    split
    · rename_i e
      subst e
      exact h
    · rfl

theorem del_eq_self_iff {s : KVStore} {key : Key} : (s.del key).2 = s ↔ s.data.lookup key = none := by
  constructor
  · intro h
    rw [← h, del_data, lookup_write_self]
  · intro h
    rw [del_absent h]

theorem del_status (s : KVStore) (key : Key) :
    (s.del key).1.status = .ok ∨ (s.del key).1.status = .notFound := by
  unfold del
  split
  · exact Or.inl rfl
  · exact Or.inr rfl

theorem del_withinLimits {s : KVStore} (hs : s.WithinLimits) (key : Key) : (s.del key).2.WithinLimits := by
  intro k v hk
  rw [del_data, lookup_write] at hk
  split at hk
  · cases hk
  · exact hs k v hk

theorem empty_withinLimits : empty.WithinLimits := by
  intro k v h
  cases h

/-! ## Enumerating the map -/

/-- `order` lists the pairs of `d` once each: an order in which a loop over the
`unordered_map` may visit them. -/
structure Enumerates (order : List (Key × Value)) (d : Map Key Value) : Prop where
  nodup : (order.map Prod.fst).Nodup
  mem : ∀ k v, (k, v) ∈ order ↔ d.lookup k = some v

end KVStore

end KvStore
