/-
`ConcurrentKVStore` (`src/storage/concurrent_kv_store.cpp`) as threads meet it. Each method takes
`mutex_`, shared for the readers and unique for the writers, and then touches the `unordered_map`
several times: `store_[key] = value` first makes room for the key and then assigns, `get` finds an
element and then reads it, a copy goes element by element, and a load clears the map before it fills
it. None of that can be seen: the calls of any number of threads, interleaved access by access, are
linearizable, and the methods of `KVStore` may be taken for atomic steps.
-/
import KvStore.Lib.RwLock
import KvStore.Storage.KVStore

namespace KvStore.ConcurrentKVStore

open Bytes Updates RwLock Machine Linear

/-- The methods of `ConcurrentKVStore`. -/
inductive Method
  | put (key : Key) (value : Value)
  | get (key : Key)
  | del (key : Key)
  | size
  | snapshot
  | loadFromSnapshot (data : Map Key Value)
  deriving DecidableEq

/-- What they return. -/
inductive Answer
  | response (r : Response)
  | size (n : Nat)
  | data (d : Map Key Value)
  | void
  deriving DecidableEq

/-- The methods of the store a single thread uses. -/
def exec : Method → KVStore → Answer × KVStore
  | .put key value, s => (.response (s.put key value).1, (s.put key value).2)
  | .get key, s => (.response (s.get key), s)
  | .del key, s => (.response (s.del key).1, (s.del key).2)
  | .size, s => (.size s.data.entries.card, s)
  | .snapshot, s => (.data s.snapshot, s)
  | .loadFromSnapshot d, s => (.void, s.loadFromSnapshot d)

/-- Where a method is between two accesses to the map: `slot` is before `operator[]`, `assign` holds
the reference it returned, `found` the iterator of `find`; `copy` and `fill` have these keys to go. -/
inductive Body
  | put (key : Key) (value : Value)
  | slot (key : Key) (value : Value)
  | assign (key : Key) (value : Value)
  | get (key : Key)
  | found (key : Key)
  | del (key : Key)
  | size
  | snapshot
  | copy (keys : List Key) (d : Map Key Value)
  | load (d : Map Key Value)
  | fill (keys : List Key) (d : Map Key Value)
  deriving DecidableEq

def start : Method → Body
  | .put key value => .put key value
  | .get key => .get key
  | .del key => .del key
  | .size => .size
  | .snapshot => .snapshot
  | .loadFromSnapshot d => .load d

/-- `unique_lock` or `shared_lock`. -/
def exclusive : Method → Bool
  | .put _ _ => true
  | .get _ => false
  | .del _ => true
  | .size => false
  | .snapshot => false
  | .loadFromSnapshot _ => true

/-- The list names the keys of the map once each, in an order a loop over it may take. -/
def Visits (keys : List Key) (d : Map Key Value) : Prop := keys.Nodup ∧ ∀ k, k ∈ keys ↔ k ∈ d

instance (keys : List Key) (d : Map Key Value) : Decidable (Visits keys d) :=
  decidable_of_iff (keys.Nodup ∧ keys.toFinset = d.keys) (by
    rw [Visits, Finset.ext_iff]
    simp [Finmap.mem_keys])

/-- One access. There is no turn through a reference or an iterator to an element that is gone. -/
def next : Body → KVStore → List Key → Option (Turn Body Answer × KVStore)
  | .put key value, s, _ =>
    if maxKeySize < key.length then some (.done (.response ⟨.keyTooLarge, []⟩), s)
    else if maxValueSize < value.length then some (.done (.response ⟨.valueTooLarge, []⟩), s)
    else some (.more (.slot key value), s)
  | .slot key value, s, _ =>
    -- `operator[]` inserts an empty value for a new key
    some (.more (.assign key value), if key ∈ s.data then s else ⟨s.data.insert key []⟩)
  | .assign key value, s, _ =>
    if key ∈ s.data then some (.done (.response ⟨.ok, []⟩), ⟨s.data.insert key value⟩) else none
  | .get key, s, _ =>
    if key ∈ s.data then some (.more (.found key), s) else some (.done (.response ⟨.notFound, []⟩), s)
  | .found key, s, _ => (s.data.lookup key).map fun v => (.done (.response ⟨.ok, v⟩), s)
  | .del key, s, _ =>
    if key ∈ s.data then some (.done (.response ⟨.ok, []⟩), ⟨s.data.erase key⟩)
    else some (.done (.response ⟨.notFound, []⟩), s)
  | .size, s, _ => some (.done (.size s.data.entries.card), s)
  | .snapshot, s, order => if Visits order s.data then some (.more (.copy order ∅), s) else none
  | .copy [] d, s, _ => some (.done (.data d), s)
  | .copy (k :: keys) d, s, _ => (s.data.lookup k).map fun v => (.more (.copy keys (d.insert k v)), s)
  | .load d, _, order => if Visits order d then some (.more (.fill order d), ⟨∅⟩) else none
  | .fill [] _, s, _ => some (.done .void, s)
  | .fill (k :: keys) d, s, _ => (d.lookup k).map fun v => (.more (.fill keys d), ⟨s.data.insert k v⟩)

def impl : Impl Method Answer KVStore Body (List Key) := { exclusive, start, next }

/-! ## A method alone -/

/-- What the store has become when a method that began with store `m` is at a point of its body. -/
def At (op : Method) (m : KVStore) : Body → KVStore → Prop
  | .put key value, s => op = .put key value ∧ s = m
  | .slot key value, s => op = .put key value ∧ KVStore.Accepts key value ∧ s = m
  | .assign key value, s => op = .put key value ∧ KVStore.Accepts key value ∧ key ∈ s.data ∧
      ∀ k, k ≠ key → s.data.lookup k = m.data.lookup k
  | .get key, s => op = .get key ∧ s = m
  | .found key, s => op = .get key ∧ s = m ∧ key ∈ m.data
  | .del key, s => op = .del key ∧ s = m
  | .size, s => op = .size ∧ s = m
  | .snapshot, s => op = .snapshot ∧ s = m
  | .copy keys d, s => op = .snapshot ∧ s = m ∧ (∀ k ∈ keys, k ∈ m.data) ∧
      ∀ k, k ∉ keys → d.lookup k = m.data.lookup k
  | .load d, s => op = .loadFromSnapshot d ∧ s = m
  | .fill keys d, s => op = .loadFromSnapshot d ∧ (∀ k ∈ keys, k ∈ d) ∧
      ∀ k, k ∉ keys → s.data.lookup k = d.lookup k

/-- One more key is copied. -/
theorem lookup_insert_of_todo {k : Key} {keys : List Key} {d d' : Map Key Value} {v : Value}
    (hv : d'.lookup k = some v) (h : ∀ k', k' ∉ k :: keys → d.lookup k' = d'.lookup k') (k' : Key) (hk' : k' ∉ keys) :
    (d.insert k v).lookup k' = d'.lookup k' := by
  by_cases he : k' = k
  · subst he
    rw [Finmap.lookup_insert, hv]
  · rw [Finmap.lookup_insert_of_ne _ he]
    exact h k' (by simp [he, hk'])

/-- Nothing is copied yet. -/
theorem lookup_of_visits {keys : List Key} {d : Map Key Value} (h : Visits keys d) (k : Key) (hk : k ∉ keys) :
    (∅ : Map Key Value).lookup k = d.lookup k := by
  rw [Finmap.lookup_empty, eq_comm, Finmap.lookup_eq_none, ← h.2 k]
  exact hk

/-- What a turn makes of the point the method is at. -/
def After (op : Method) (m : KVStore) : Turn Body Answer × KVStore → Prop
  | (.more b, s) => At op m b s
  | (.done r, s) => (r, s) = exec op m

theorem after_put {key : Key} {value : Value} {m : KVStore} {order : List Key} {t : Turn Body Answer × KVStore}
    (h : next (.put key value) m order = some t) : After (.put key value) m t := by
  by_cases hk : maxKeySize < key.length
  · rw [next, if_pos hk] at h
    cases h
    simp [After, exec, KVStore.put, hk]
  · by_cases hv : maxValueSize < value.length
    · rw [next, if_neg hk, if_pos hv] at h
      cases h
      simp [After, exec, KVStore.put, hk, hv]
    · rw [next, if_neg hk, if_neg hv] at h
      cases h
      exact ⟨rfl, ⟨Nat.not_lt.1 hk, Nat.not_lt.1 hv⟩, rfl⟩

theorem after_slot {key : Key} {value : Value} (ha : KVStore.Accepts key value) (m : KVStore) :
    At (.put key value) m (.assign key value) (if key ∈ m.data then m else ⟨m.data.insert key []⟩) := by
  by_cases hk : key ∈ m.data
  · rw [if_pos hk]
    exact ⟨rfl, ha, hk, fun _ _ => rfl⟩
  · rw [if_neg hk]
    exact ⟨rfl, ha, Finmap.mem_insert.2 (.inl rfl), fun k hne => Finmap.lookup_insert_of_ne _ hne⟩

/-- The assignment makes up for the empty value. -/
theorem after_assign {key : Key} {value : Value} {m s : KVStore} (ha : KVStore.Accepts key value)
    (h : ∀ k, k ≠ key → s.data.lookup k = m.data.lookup k) :
    (⟨s.data.insert key value⟩ : KVStore) = (m.put key value).2 := by
  rw [KVStore.put_ok ha]
  ext1 k
  rw [lookup_write]
  by_cases hk : key = k
  · subst hk
    rw [if_pos rfl, Finmap.lookup_insert]
  · rw [if_neg hk, Finmap.lookup_insert_of_ne _ (Ne.symm hk)]
    exact h k (Ne.symm hk)

/-- A turn leads from a point of the body to the next one, or to the answer of the sequential method. -/
theorem next_after {op : Method} {m s : KVStore} {b : Body} {order : List Key} {t : Turn Body Answer × KVStore}
    (hat : At op m b s) (h : next b s order = some t) : After op m t := by
  cases b with
  | put key value =>
    obtain ⟨rfl, rfl⟩ := hat
    exact after_put h
  | slot key value =>
    obtain ⟨rfl, ha, rfl⟩ := hat
    cases h
    exact after_slot ha s
  | assign key value =>
    obtain ⟨rfl, ha, hmem, hother⟩ := hat
    rw [next, if_pos hmem] at h
    cases h
    show (_, _) = (_, _)
    rw [after_assign ha hother, KVStore.put_ok ha]
  | get key =>
    obtain ⟨rfl, rfl⟩ := hat
    by_cases hk : key ∈ s.data
    · rw [next, if_pos hk] at h
      cases h
      exact ⟨rfl, rfl, hk⟩
    · rw [next, if_neg hk] at h
      cases h
      show (_, _) = (_, _)
      rw [KVStore.get_none (Finmap.lookup_eq_none.2 hk)]
  | found key =>
    obtain ⟨rfl, rfl, -⟩ := hat
    obtain ⟨v, hv, rfl⟩ := Option.map_eq_some_iff.1 h
    show (_, _) = (_, _)
    rw [KVStore.get_some hv]
  | del key =>
    obtain ⟨rfl, rfl⟩ := hat
    by_cases hk : key ∈ s.data
    · rw [next, if_pos hk] at h
      cases h
      simp [After, exec, KVStore.del, hk]
    · rw [next, if_neg hk] at h
      cases h
      simp [After, exec, KVStore.del, hk]
  | size =>
    obtain ⟨rfl, rfl⟩ := hat
    cases h
    rfl
  | snapshot =>
    obtain ⟨rfl, rfl⟩ := hat
    obtain ⟨hv, heq⟩ := Option.ite_none_right_eq_some.1 h
    cases heq
    exact ⟨rfl, rfl, fun k hk => (hv.2 k).1 hk, lookup_of_visits hv⟩
  | copy keys d =>
    obtain ⟨rfl, rfl, hmem, hcopied⟩ := hat
    cases keys with
    | nil =>
      cases h
      have hd : d = s.data := Finmap.ext_lookup fun k => hcopied k (by simp)
      rw [hd]
      rfl
    | cons k keys =>
      obtain ⟨v, hv, rfl⟩ := Option.map_eq_some_iff.1 h
      exact ⟨rfl, rfl, fun k' hk' => hmem k' (.tail k hk'), lookup_insert_of_todo hv hcopied⟩
  | load d =>
    obtain ⟨rfl, rfl⟩ := hat
    obtain ⟨hv, heq⟩ := Option.ite_none_right_eq_some.1 h
    cases heq
    exact ⟨rfl, fun k hk => (hv.2 k).1 hk, lookup_of_visits hv⟩
  | fill keys d =>
    obtain ⟨rfl, hmem, hfilled⟩ := hat
    cases keys with
    | nil =>
      cases h
      have hs : s = ⟨d⟩ := KVStore.ext fun k => hfilled k (by simp)
      rw [hs]
      rfl
    | cons k keys =>
      obtain ⟨v, hv, rfl⟩ := Option.map_eq_some_iff.1 h
      exact ⟨rfl, fun k' hk' => hmem k' (.tail k hk'), lookup_insert_of_todo hv hfilled⟩

theorem at_of_solo {op : Method} {m s : KVStore} {b : Body} (h : Solo impl op m b s) : At op m b s := by
  induction h with
  | start => cases op <;> exact ⟨rfl, rfl⟩
  | more _ hn ih => exact next_after ih hn

/-- The readers do not write. -/
theorem next_reads {op : Method} {m s s' : KVStore} {b : Body} {order : List Key} {t : Turn Body Answer}
    (hx : exclusive op = false) (hat : At op m b s) (h : next b s order = some (t, s')) : s' = s := by
  cases b with
  | put key value =>
    obtain ⟨rfl, -⟩ := hat
    cases hx
  | slot key value =>
    obtain ⟨rfl, -⟩ := hat
    cases hx
  | assign key value =>
    obtain ⟨rfl, -⟩ := hat
    cases hx
  | del key =>
    obtain ⟨rfl, -⟩ := hat
    cases hx
  | load d =>
    obtain ⟨rfl, -⟩ := hat
    cases hx
  | fill keys d =>
    obtain ⟨rfl, -⟩ := hat
    cases hx
  | get key =>
    by_cases hk : key ∈ s.data
    · rw [next, if_pos hk] at h
      cases h
      rfl
    · rw [next, if_neg hk] at h
      cases h
      rfl
  | found key =>
    obtain ⟨v, -, heq⟩ := Option.map_eq_some_iff.1 h
    cases heq
    rfl
  | size =>
    cases h
    rfl
  | snapshot =>
    obtain ⟨-, heq⟩ := Option.ite_none_right_eq_some.1 h
    cases heq
    rfl
  | copy keys d =>
    cases keys with
    | nil =>
      cases h
      rfl
    | cons k keys =>
      obtain ⟨v, -, heq⟩ := Option.map_eq_some_iff.1 h
      cases heq
      rfl

theorem impl_correct : Correct impl exec where
  result hat hn := next_after (at_of_solo hat) hn
  reads hx hat hn := next_reads hx (at_of_solo hat) hn

/-- A map can be gone through. -/
theorem exists_visits (d : Map Key Value) : ∃ order, Visits order d :=
  ⟨d.keys.toList, Finset.nodup_toList _, fun k => by rw [Finset.mem_toList, Finmap.mem_keys]⟩

/-- A method alone never comes to a reference or an iterator whose element is gone. -/
theorem next_defined {op : Method} {m s : KVStore} {b : Body} (hat : At op m b s) :
    ∃ order t, next b s order = some t := by
  cases b with
  | put key value =>
    by_cases hk : maxKeySize < key.length
    · exact ⟨[], _, if_pos hk⟩
    · by_cases hv : maxValueSize < value.length
      · exact ⟨[], _, (if_neg hk).trans (if_pos hv)⟩
      · exact ⟨[], _, (if_neg hk).trans (if_neg hv)⟩
  | slot key value => exact ⟨[], _, rfl⟩
  | assign key value => exact ⟨[], _, if_pos hat.2.2.1⟩
  | get key =>
    by_cases hk : key ∈ s.data
    · exact ⟨[], _, if_pos hk⟩
    · exact ⟨[], _, if_neg hk⟩
  | found key =>
    obtain ⟨rfl, rfl, hk⟩ := hat
    obtain ⟨v, hv⟩ := Finmap.mem_iff.1 hk
    exact ⟨[], _, Option.map_eq_some_iff.2 ⟨v, hv, rfl⟩⟩
  | del key =>
    by_cases hk : key ∈ s.data
    · exact ⟨[], _, if_pos hk⟩
    · exact ⟨[], _, if_neg hk⟩
  | size => exact ⟨[], _, rfl⟩
  | snapshot =>
    obtain ⟨order, hv⟩ := exists_visits s.data
    exact ⟨order, _, if_pos hv⟩
  | copy keys d =>
    obtain ⟨rfl, rfl, hmem, -⟩ := hat
    cases keys with
    | nil => exact ⟨[], _, rfl⟩
    | cons k keys =>
      obtain ⟨v, hv⟩ := Finmap.mem_iff.1 (hmem k List.mem_cons_self)
      exact ⟨[], _, Option.map_eq_some_iff.2 ⟨v, hv, rfl⟩⟩
  | load d =>
    obtain ⟨order, hv⟩ := exists_visits d
    exact ⟨order, _, if_pos hv⟩
  | fill keys d =>
    obtain ⟨rfl, hmem, -⟩ := hat
    cases keys with
    | nil => exact ⟨[], _, rfl⟩
    | cons k keys =>
      obtain ⟨v, hv⟩ := Finmap.mem_iff.1 (hmem k List.mem_cons_self)
      exact ⟨[], _, Option.map_eq_some_iff.2 ⟨v, hv, rfl⟩⟩

/-! ## Any number of threads -/

/-- Threads use the store access by access. -/
def stepCall (w : World Method Answer KVStore Body) (a : Action Method (List Key)) :
    Option (World Method Answer KVStore Body) :=
  step impl w a

/-- Whatever the threads do and however their accesses interleave, what they are answered is what one
thread would have been that made the calls one after the other, in an order that keeps the order of
calls that do not overlap. A snapshot in particular is a copy of the store at one moment. -/
theorem calls_linearizable {s₀ : KVStore} {w : World Method Answer KVStore Body}
    {as : List (Action Method (List Key))}
    (h : Runs stepCall (fun _ _ => True) (.start s₀) as w) : Linearizable exec s₀ w.history := by
  obtain ⟨order, s, hs⟩ := sound_of_runs impl_correct h
  exact hs.linearized.linearizable

/-- A snapshot is begun beside a GET, and a PUT of a new key after it has to wait for both. -/
def overlapping : List (Action Method (List Key)) :=
  [.invoke 0 .snapshot, .acquire 0, .turn 0 [[1]], .invoke 1 (.get [1]), .invoke 2 (.put [2] [9]), .acquire 1,
    .turn 1 [], .turn 0 [], .turn 1 [], .release 1, .respond 1, .turn 0 [], .release 0, .acquire 2, .turn 2 [],
    .turn 2 [], .turn 2 [], .release 2, .respond 2, .respond 0]

theorem calls_linearizable_overlapping :
    ∃ w, Runs stepCall (fun _ _ => True) (.start ⟨(∅ : Map Key Value).insert [1] [7]⟩) overlapping w ∧
      w.history = [.invoke 0 .snapshot, .invoke 1 (.get [1]), .invoke 2 (.put [2] [9]),
        .respond 1 (.response ⟨.ok, [7]⟩), .respond 2 (.response ⟨.ok, []⟩),
        .respond 0 (.data ((∅ : Map Key Value).insert [1] [7]))] ∧
      Linearizable exec ⟨(∅ : Map Key Value).insert [1] [7]⟩ w.history := by
  obtain ⟨w, hr, hw⟩ :
      ∃ w, Runs stepCall (fun _ _ => True) (.start ⟨(∅ : Map Key Value).insert [1] [7]⟩) overlapping w ∧
      w.history = [.invoke 0 .snapshot, .invoke 1 (.get [1]), .invoke 2 (.put [2] [9]),
        .respond 1 (.response ⟨.ok, [7]⟩), .respond 2 (.response ⟨.ok, []⟩),
        .respond 0 (.data ((∅ : Map Key Value).insert [1] [7]))] :=
    exists_runs (by decide)
  exact ⟨w, hr, hw, calls_linearizable hr⟩

/-- No access of a call meets a map that another one is changing, and none goes through a reference or an
iterator to an element that is gone: whoever is inside can go on, and whoever is about to change the map
is inside alone. So is a call that holds the lock in unique mode, from its first access to its last. -/
theorem inside_safe {s₀ : KVStore} {w : World Method Answer KVStore Body} {as : List (Action Method (List Key))}
    (h : Runs stepCall (fun _ _ => True) (.start s₀) as w) {id : Nat} {op : Method} {b : Body}
    (hin : w.calls id = .inside op b) :
    (∃ order w', stepCall w (.turn id order) = some w') ∧
      (∀ order w', stepCall w (.turn id order) = some w' → w'.memory ≠ w.memory →
        ∀ id' op' b', w.calls id' = .inside op' b' → id' = id) ∧
      (exclusive op = true → ∀ id' op' b', w.calls id' = .inside op' b' → id' = id) := by
  obtain ⟨order, s, hs⟩ := sound_of_runs impl_correct h
  have hfit := hs.fits id
  rw [hin] at hfit
  have halone : exclusive op = true → ∀ id' op' b', w.calls id' = .inside op' b' → id' = id := by
    intro hx id' op' b' hin'
    exact hs.locking.alone (by rw [hin]; rfl) hx (show (w.calls id').held = some op' by rw [hin']; rfl)
  refine ⟨?_, ?_, halone⟩
  · obtain ⟨order, t, hn⟩ := next_defined (at_of_solo hfit.2)
    exact ⟨order, exists_turn hin hn⟩
  · -- in shared mode a turn leaves the map as it is
    intro order w' hturn hchanged
    apply halone
    by_contra hx
    obtain ⟨t, hn⟩ := turn_memory hin hturn
    exact hchanged (impl_correct.reads (Bool.eq_false_of_not_eq_true hx) hfit.2 hn)

/-- A writer is between `operator[]` and the assignment of another value, while a reader of the key waits. -/
def readerWaits : List (Action Method (List Key)) :=
  [.invoke 0 (.put [2] [9]), .acquire 0, .turn 0 [], .invoke 1 (.get [2]), .turn 0 []]

theorem inside_safe_readerWaits :
    ∃ w, Runs stepCall (fun _ _ => True) (.start .empty) readerWaits w ∧ w.calls 1 = .waiting (.get [2]) ∧
      (∃ order w', stepCall w (.turn 0 order) = some w') ∧
      ∀ id' op' b', w.calls id' = .inside op' b' → id' = 0 := by
  obtain ⟨w, hr, hw, hwaits, hwrites⟩ : ∃ w, Runs stepCall (fun _ _ => True) (.start .empty) readerWaits w ∧
      w.calls 0 = .inside (.put [2] [9]) (.assign [2] [9]) ∧ w.calls 1 = .waiting (.get [2]) ∧
      (stepCall w (.turn 0 [])).any (fun w' => w'.memory ≠ w.memory) = true :=
    exists_runs (by decide)
  obtain ⟨w', hturn, hchanged⟩ := (Option.any_eq_true _ _).1 hwrites
  obtain ⟨hgoes, halone, -⟩ := inside_safe hr hw
  exact ⟨w, hr, hwaits, hgoes, halone [] w' hturn (of_decide_eq_true hchanged)⟩

end KvStore.ConcurrentKVStore
