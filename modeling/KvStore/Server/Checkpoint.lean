/-
The checkpoint of a graceful shutdown, `save(store.snapshot()); wal.truncate()`, cut short at any
point. `save` truncates the old `snapshot.dat` before it writes the new one, and its failures go
unnoticed, so a recovery afterwards yields the store only as far as the log and the bytes written
so far still hold it: `recover_interrupted_iff` says exactly when.
-/
import KvStore.Persistence.Recovery

namespace KvStore

open Bytes Updates Snapshot

/-! ## The sequence and its interruptions -/

/-- A step of the sequence on the files. -/
inductive FileStep
  /-- `std::ofstream out(snapshotPath(), std::ios::binary | std::ios::trunc)` -/
  | openSnapshot
  /-- one more byte of the snapshot reaches the file -/
  | writeSnapshot (b : UInt8)
  /-- `wal.truncate()` -/
  | truncateWal

def FileStep.apply (d : Disk) : FileStep → Disk
  | .openSnapshot => { d with snapshot := some [] }
  | .writeSnapshot b => { d with snapshot := some (d.snapshot.getD [] ++ [b]) }
  | .truncateWal => { d with wal := [] }

/-- The sequence when `written` is what gets into the file. -/
def checkpointSteps (written : Str) : List FileStep :=
  .openSnapshot :: (written.map .writeSnapshot ++ [.truncateWal])

/-- The ways the sequence can be cut short or fail. -/
inductive Interruption
  /-- the process ends after the first `steps` steps -/
  | crash (steps : Nat)
  /-- the writing of the snapshot fails after `n` bytes and the sequence goes on -/
  | writeFailed (n : Nat)

/-- The files an interruption leaves, the store being enumerated in the order `order`. -/
def Interruption.disk (d : Disk) (order : List (Key × Value)) : Interruption → Disk
  | .crash steps => ((checkpointSteps (save order)).take steps).foldl FileStep.apply d
  | .writeFailed n => (checkpointSteps ((save order).take n)).foldl FileStep.apply d

theorem foldl_writeSnapshot : ∀ (bs file : Str) (wal : Str),
    (bs.map FileStep.writeSnapshot).foldl FileStep.apply ⟨some file, wal⟩ = ⟨some (file ++ bs), wal⟩
  | [], file, wal => by simp
  | b :: bs, file, wal => by
    rw [List.map_cons, List.foldl_cons]
    show (bs.map FileStep.writeSnapshot).foldl FileStep.apply ⟨some (file ++ [b]), wal⟩ = _
    rw [foldl_writeSnapshot bs]
    simp

theorem disk_writeFailed (d : Disk) (order : List (Key × Value)) (n : Nat) :
    (Interruption.writeFailed n).disk d order = ⟨some ((save order).take n), []⟩ := by
  simp only [Interruption.disk, checkpointSteps]
  rw [List.foldl_cons, List.foldl_append]
  show [FileStep.truncateWal].foldl FileStep.apply (List.foldl FileStep.apply ⟨some [], d.wal⟩ _) = _
  rw [foldl_writeSnapshot]
  rfl

/-- A crash leaves a prefix of the snapshot, and the log unless the last step was reached. -/
theorem disk_crash (d : Disk) (order : List (Key × Value)) (n : Nat) :
    (Interruption.crash (n + 1)).disk d order =
      ⟨some ((save order).take n), if n ≤ (save order).length then d.wal else []⟩ := by
  simp only [Interruption.disk, checkpointSteps]
  rw [List.take_succ_cons, List.foldl_cons]
  show List.foldl FileStep.apply ⟨some [], d.wal⟩ _ = _
  by_cases hn : n ≤ (save order).length
  · rw [if_pos hn, List.take_append_of_le_length (by simpa using hn), ← List.map_take, foldl_writeSnapshot,
      List.nil_append]
  · rw [if_neg hn, List.take_of_length_le (by simp; omega), List.foldl_append, foldl_writeSnapshot,
      List.take_of_length_le (by omega)]
    rfl

/-! ## What is left of the store -/

/-- The log holds an effective record of the key. -/
def Logged (wal : Str) (k : Key) : Prop := ∃ es, Wal.entriesOf wal = some es ∧ lastOf k (updates es) ≠ none

/-- The pair `(k, v)` at index `j` is in the first `n` bytes of the snapshot: it is counted in
the 32-bit header, the bytes reach its value, and what is missing of the value is zero bytes. -/
def InPrefix (order : List (Key × Value)) (n j : Nat) (k : Key) (v : Value) : Prop :=
  j < order.length % 2 ^ 32 ∧ valueStart order j k ≤ n ∧ ∀ b ∈ v.drop (n - valueStart order j k), b = 0

/-- Every pair of the store is still in one of the files after the interruption: in the bytes of
the snapshot written so far, or in the log if that has not been truncated. -/
def StillOnDisk (d : Disk) (order : List (Key × Value)) : Interruption → Prop
  | .crash 0 => True
  | .crash (n + 1) => ∀ j k v, order[j]? = some (k, v) →
      (n ≤ (save order).length ∧ Logged d.wal k) ∨ InPrefix order n j k v
  | .writeFailed n => ∀ j k v, order[j]? = some (k, v) → InPrefix order n j k v

section Prefix

variable {order : List (Key × Value)} {s : KVStore} (he : KVStore.Enumerates order s.data) (hs : s.Storable)
include he hs

theorem storable_order : ∀ p ∈ order, Snapshot.Storable p := fun p hp => hs p.1 p.2 ((he.mem p.1 p.2).1 hp)

/-- A prefix of the snapshot brings no key that the store does not have. -/
theorem load_take_none {k : Key} (hk : s.data.lookup k = none) (n : Nat) :
    (load ((save order).take n)).lookup k = none := by
  rw [Option.eq_none_iff_forall_ne_some]
  intro v hv
  obtain ⟨-, hmem⟩ := (lookup_load_take (storable_order he hs) he.nodup n k v).1 hv
  have hkey : k ∈ order.map Prod.fst :=
    (survivors_keys _ order _).subset (List.mem_map.2 ⟨_, hmem, rfl⟩)
  obtain ⟨⟨k', v'⟩, hp, rfl⟩ := List.mem_map.1 hkey
  rw [(he.mem k' v').1 hp] at hk
  cases hk

/-- A prefix of the snapshot agrees with the store on some keys exactly when it contains their
pairs. -/
theorem load_take_agrees_iff (P : Key → Prop) (n : Nat) :
    (∀ k, P k → (load ((save order).take n)).lookup k = s.data.lookup k) ↔
      ∀ j k v, order[j]? = some (k, v) → P k → InPrefix order n j k v := by
  have hindex : ∀ {j : Nat} {k : Key} {v : Value}, order[j]? = some (k, v) →
      ((load ((save order).take n)).lookup k = some v ↔ InPrefix order n j k v) := by
    intro j k v hj
    exact lookup_load_take_index (storable_order he hs) he.nodup hj n
  constructor
  · intro h j k v hj hP
    rw [← hindex hj, h k hP]
    exact (he.mem k v).1 (List.mem_of_getElem? hj)
  · intro h k hP
    cases hk : s.data.lookup k with
    | none => exact load_take_none he hs hk n
    | some v =>
      obtain ⟨j, hj⟩ := List.mem_iff_getElem?.1 ((he.mem k v).2 hk)
      exact (hindex hj).2 (h j k v hj hP)

end Prefix

/-- Replaying the same log over two stores gives the same result exactly when they agree on the
keys the log leaves alone. -/
theorem applyAll_eq_iff (es : List Entry) (s t : KVStore) :
    Wal.applyAll s es = Wal.applyAll t es ↔
      ∀ k, lastOf k (updates es) = none → s.data.lookup k = t.data.lookup k := by
  constructor
  · intro h k hk
    have := congrArg (fun u : KVStore => u.data.lookup k) h
    simpa [Wal.lookup_applyAll, hk] using this
  · intro h
    rw [Wal.applyAll_eq, Wal.applyAll_eq]
    exact congrArg KVStore.mk (writeAll_congr h)

/-- Recovery with the old log over a prefix of the new snapshot. -/
theorem recover_prefix_iff {d : Disk} {s : KVStore} {order : List (Key × Value)} (hrec : d.recover = some s)
    (he : KVStore.Enumerates order s.data) (n : Nat) :
    Disk.recover ⟨some ((save order).take n), d.wal⟩ = some s ↔
      ∀ j k v, order[j]? = some (k, v) → Logged d.wal k ∨ InPrefix order n j k v := by
  have hs := Disk.recover_storable hrec
  obtain ⟨es, hes, rfl⟩ := Disk.recover_some hrec
  have hlogged : ∀ k, Logged d.wal k ↔ ¬ lastOf k (updates es) = none := by
    intro k
    constructor
    · rintro ⟨es', hes', h⟩
      rw [hes] at hes'
      cases hes'
      exact h
    · intro h
      exact ⟨es, hes, h⟩
  -- the recovered store is the replay of its own log over itself
  have hself : Wal.applyAll (Wal.applyAll d.loaded es) es = Wal.applyAll d.loaded es := by
    simpa using Wal.applyAll_absorb d.loaded es []
  rw [Disk.recover_of_entries (d := ⟨some ((save order).take n), d.wal⟩) hes, Option.some.injEq]
  rw [← hself]
  rw [applyAll_eq_iff]
  show (∀ k, lastOf k (updates es) = none → (load ((save order).take n)).lookup k = _) ↔ _
  rw [load_take_agrees_iff he hs]
  constructor
  · intro h j k v hj
    by_cases hk : lastOf k (updates es) = none
    · exact Or.inr (h j k v hj hk)
    · exact Or.inl ((hlogged k).2 hk)
  · intro h j k v hj hk
    rcases h j k v hj with hl | hp
    · exact absurd hk ((hlogged k).1 hl)
    · exact hp

/-- Recovery from a prefix of the new snapshot with the log gone. -/
theorem recover_truncated_iff {s : KVStore} {order : List (Key × Value)} (hs : s.Storable)
    (he : KVStore.Enumerates order s.data) (n : Nat) :
    Disk.recover ⟨some ((save order).take n), []⟩ = some s ↔
      ∀ j k v, order[j]? = some (k, v) → InPrefix order n j k v := by
  have hrec : Disk.recover ⟨some ((save order).take n), []⟩ = some ⟨load ((save order).take n)⟩ := rfl
  have hagree := load_take_agrees_iff he hs (fun _ => True) n
  simp only [true_imp_iff] at hagree
  rw [hrec, ← hagree, Option.some.injEq]
  constructor
  · rintro rfl k
    rfl
  · intro h
    exact KVStore.ext h

/-- A checkpoint that is cut short or fails leaves files from which the store is recovered
exactly when every pair is still on disk. -/
theorem recover_interrupted_iff {d : Disk} {s : KVStore} {order : List (Key × Value)} (hrec : d.recover = some s)
    (he : KVStore.Enumerates order s.data) (i : Interruption) :
    (i.disk d order).recover = some s ↔ StillOnDisk d order i := by
  have hs := Disk.recover_storable hrec
  cases i with
  | crash steps =>
    cases steps with
    | zero => exact ⟨fun _ => trivial, fun _ => hrec⟩
    | succ n =>
      rw [disk_crash]
      unfold StillOnDisk
      by_cases hn : n ≤ (save order).length
      · simp only [hn, if_true, true_and]
        exact recover_prefix_iff hrec he n
      · simp only [hn, if_false, false_and, false_or]
        exact recover_truncated_iff hs he n
  | writeFailed n =>
    rw [disk_writeFailed]
    exact recover_truncated_iff hs he n

/-- The store with the one pair `"k" ↦ "v"`. -/
def onePair : KVStore := ⟨(∅ : Map Key Value).insert [107] [118]⟩

/-- The data directory of a server that was shut down with that store. -/
def savedPair : Disk := ⟨some (save [([107], [118])]), []⟩

theorem savedPair_recover : savedPair.recover = some onePair := by decide

theorem enumerates_onePair : KVStore.Enumerates [([107], [118])] onePair.data := Snapshot.enumerates_onlyK

/-- After the complete sequence (open, 14 bytes, truncate) the pair is in the snapshot, so it is
recovered; with one byte less than the whole snapshot it is in neither file, and is not. -/
theorem recover_interrupted_iff_savedPair :
    ((Interruption.crash 16).disk savedPair [([107], [118])]).recover = some onePair ∧
      ¬ StillOnDisk savedPair [([107], [118])] (.crash 14) := by
  constructor
  · refine (recover_interrupted_iff savedPair_recover enumerates_onePair _).2 ?_
    intro j k v hj
    obtain ⟨rfl, hkv⟩ : j = 0 ∧ ([107], [118]) = (k, v) := by
      cases j with
      | zero => exact ⟨rfl, Option.some.inj hj⟩
      | succ j => cases hj
    cases hkv
    exact .inr ⟨by decide, by decide, by decide +kernel⟩
  · rw [← recover_interrupted_iff savedPair_recover enumerates_onePair]
    decide

/-- The process ends right after the old snapshot has been truncated: the pair is lost. -/
theorem checkpoint_loses_pair :
    savedPair.recover = some onePair ∧ KVStore.Enumerates [([107], [118])] onePair.data ∧
    ((Interruption.crash 1).disk savedPair [([107], [118])]).recover ≠ some onePair :=
  ⟨savedPair_recover, enumerates_onePair, by decide⟩

end KvStore
