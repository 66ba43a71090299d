/-
Recovery (`main` of `src/server/server_main.cpp`): the two files of the data directory, and the
store a server starts with — the snapshot if there is one, then the log replayed on top.
-/
import KvStore.Persistence.Log
import KvStore.Persistence.Snapshot

namespace KvStore

open Bytes Updates

/-- The data directory: `snapshot.dat`, if it exists, and `wal.log`, which the constructor of
`WriteAheadLog` creates. -/
structure Disk where
  snapshot : Option Str
  wal : Str
  deriving DecidableEq

namespace Disk

/-- An empty data directory. -/
def empty : Disk := ⟨none, []⟩

/-- The store after the snapshot has been loaded, if there is one. -/
def loaded (d : Disk) : KVStore :=
  match d.snapshot with
  | none => KVStore.empty
  | some file => KVStore.empty.loadFromSnapshot (Snapshot.load file)

/-- The store after recovery; `none` when replay runs into undefined behaviour. -/
def recover (d : Disk) : Option KVStore := (Wal.replay d.wal d.loaded).map Prod.fst

theorem recover_eq (d : Disk) : d.recover = (Wal.entriesOf d.wal).map (Wal.applyAll d.loaded) := by
  unfold recover
  rw [Wal.replay_eq, Option.map_map]
  rfl

theorem recover_of_entries {d : Disk} {es : List Entry} (h : Wal.entriesOf d.wal = some es) :
    d.recover = some (Wal.applyAll d.loaded es) := by
  rw [recover_eq, h]; rfl

theorem recover_some {d : Disk} {store : KVStore} (h : d.recover = some store) :
    ∃ es, Wal.entriesOf d.wal = some es ∧ store = Wal.applyAll d.loaded es := by
  rw [recover_eq] at h
  obtain ⟨es, hes, he⟩ := Option.map_eq_some_iff.1 h
  exact ⟨es, hes, he.symm⟩

end Disk

/-! ## Sizes of what is recovered -/

namespace KVStore

/-- Every key and value is shorter than `2^32` bytes, so that its length fits a snapshot. -/
def Storable (s : KVStore) : Prop := ∀ k v, s.data.lookup k = some v → Snapshot.Storable (k, v)

theorem storable_write {d : Map Key Value} (h : Storable ⟨d⟩) {u : Update Key Value}
    (hu : ∀ v, u.2 = some v → Snapshot.Storable (u.1, v)) : Storable ⟨write d u⟩ := by
  intro k v hk
  simp only [lookup_write] at hk
  split at hk
  · rename_i e
    exact e ▸ hu v hk
  · exact h k v hk

theorem Accepts.storable {k : Key} {v : Value} (h : Accepts k v) : Snapshot.Storable (k, v) := by
  obtain ⟨h1, h2⟩ := h
  unfold maxKeySize at h1
  unfold maxValueSize at h2
  constructor
  · show k.length < 2 ^ 32
    omega
  · show v.length < 2 ^ 32
    omega

theorem put_storable {s : KVStore} (h : s.Storable) (key : Key) (value : Value) : (s.put key value).2.Storable := by
  by_cases ha : Accepts key value
  · rw [put_ok ha]
    apply storable_write h
    rintro v ⟨⟩
    exact ha.storable
  · rw [(put_refused ha s).2.2]
    exact h

theorem del_storable {s : KVStore} (h : s.Storable) (key : Key) : (s.del key).2.Storable := by
  have hw : Storable ⟨write s.data (key, none)⟩ := storable_write h (by rintro v ⟨⟩)
  rw [← del_data] at hw
  exact hw

end KVStore

namespace Snapshot

theorem length_read (s : IStream) (n : Nat) : (s.read n).1.length = n := by
  unfold IStream.read
  split
  · split
    · simp; omega
    · simp; omega
  · simp

theorem ofLe_read_lt (s : IStream) : ofLe (s.read 4).1 < 2 ^ 32 := by
  have := ofLe_lt (s.read 4).1
  rw [length_read] at this
  norm_num at this ⊢
  exact this

/-- Whatever the file, the lengths of what `load` returns were read as `uint32_t`. -/
theorem loadLoop_storable : ∀ (i : Nat) (s : IStream) {result : Map Key Value},
    KVStore.Storable ⟨result⟩ → KVStore.Storable ⟨loadLoop i s result⟩
  | 0, _, _, h => h
  | i + 1, s, result, h => by
    simp only [loadLoop]
    split
    · exact h
    · split
      · exact h
      · apply loadLoop_storable i
        apply KVStore.storable_write (u := (_, some _)) h
        rintro v ⟨⟩
        constructor
        · simp only [length_read]
          exact ofLe_read_lt _
        · simp only [length_read]
          exact ofLe_read_lt _

theorem load_storable (file : Str) : KVStore.Storable ⟨load file⟩ := by
  have hempty : KVStore.Storable ⟨∅⟩ := by
    intro k v h
    cases h
  unfold load
  simp only
  split
  · exact hempty
  · exact loadLoop_storable _ _ hempty

end Snapshot

theorem Wal.applyAll_storable : ∀ (es : List Entry) {s : KVStore}, s.Storable → (applyAll s es).Storable
  | [], _, h => h
  | e :: es, s, h => by
    rw [applyAll_cons]
    apply applyAll_storable es
    unfold applyEntry
    split
    · exact KVStore.put_storable h _ _
    · exact KVStore.del_storable h _
    · exact h

theorem Wal.applyEntry_withinLimits {s : KVStore} (h : s.WithinLimits) (e : Entry) :
    (applyEntry s e).WithinLimits := by
  unfold applyEntry
  split
  · exact KVStore.put_withinLimits h _ _
  · exact KVStore.del_withinLimits h _
  · exact h

theorem Wal.applyAll_withinLimits : ∀ (es : List Entry) {s : KVStore}, s.WithinLimits → (applyAll s es).WithinLimits
  | [], _, h => h
  | e :: es, _, h => applyAll_withinLimits es (applyEntry_withinLimits h e)

/-- Whatever the two files, every recovered key and value can be written to a snapshot. -/
theorem Disk.recover_storable {d : Disk} {store : KVStore} (h : d.recover = some store) : store.Storable := by
  obtain ⟨es, -, rfl⟩ := recover_some h
  apply Wal.applyAll_storable
  unfold loaded
  split
  · intro k v hk
    cases hk
  · exact Snapshot.load_storable _

end KvStore
