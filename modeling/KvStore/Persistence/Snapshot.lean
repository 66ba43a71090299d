/-
Snapshots (`src/persistence/snapshot.cpp`): the bytes `save` writes for a map visited in some
order, and `load`, which checks some of its reads and not others. A stream whose read came up
short has its fail bit set and gives nothing more, so on a file cut short `load` keeps the pairs
before the cut and, if the cut lies inside a value, that value filled up with zero bytes; so it
returns only pairs of the map exactly when no byte other than zero is missing from such a value
(`load_take_subset_iff`).
-/
import KvStore.Storage.KVStore

namespace KvStore

open Bytes Updates

namespace Snapshot

/-! ## Saving -/

/-- What `save` writes for one pair; the lengths are `uint32_t` and bound the bytes written. -/
def pair (p : Key × Value) : Str :=
  le32 p.1.length ++ (p.1.take (p.1.length % 2 ^ 32) ++ (le32 p.2.length ++ p.2.take (p.2.length % 2 ^ 32)))

/-- The bytes of the pairs. -/
def pairs (order : List (Key × Value)) : Str := order.flatMap pair

/-- `SnapshotManager::save` of a map whose iteration order is `order`: the whole file. -/
def save (order : List (Key × Value)) : Str := le32 order.length ++ pairs order

/-! ## Loading -/

/-- An input stream: the bytes not yet read, and whether its state is still good. -/
structure IStream where
  rest : Str
  good : Bool

/-- `in.read(&buf[0], n)` into a buffer of `n` zero bytes: the buffer and the stream afterwards.
A short read leaves what it got in the buffer and sets the fail bit; a failed stream reads
nothing. -/
def IStream.read (s : IStream) (n : Nat) : Str × IStream :=
  if s.good then
    if n ≤ s.rest.length then (s.rest.take n, ⟨s.rest.drop n, true⟩)
    else (s.rest ++ List.replicate (n - s.rest.length) 0, ⟨[], false⟩)
  else (List.replicate n 0, s)

/-- The loop of `SnapshotManager::load`, with the number of turns left. -/
def loadLoop : Nat → IStream → Map Key Value → Map Key Value
  | 0, _, result => result
  | i + 1, s, result =>
    let (keyLen, s) := s.read 4
    if !s.good then result
    else
      let (key, s) := s.read (ofLe keyLen)
      let (valLen, s) := s.read 4
      if !s.good then result
      else
        let (val, s) := s.read (ofLe valLen)
        loadLoop i s (result.insert key val)

/-- `SnapshotManager::load` on a file with these bytes. -/
def load (file : Str) : Map Key Value :=
  let (numEntries, s) := (IStream.mk file true).read 4
  if !s.good then ∅ else loadLoop (ofLe numEntries) s ∅

/-! ## Reads -/

theorem read_append {a : Str} {n : Nat} (b : Str) (h : a.length = n) :
    (IStream.mk (a ++ b) true).read n = (a, ⟨b, true⟩) := by
  subst h
  simp [IStream.read]

theorem read_short {a : Str} {n : Nat} (h : a.length < n) :
    (IStream.mk a true).read n = (a ++ List.replicate (n - a.length) 0, ⟨[], false⟩) := by
  simp only [IStream.read, if_true]
  rw [if_neg (by omega)]

theorem read_bad (a : Str) (n : Nat) : (IStream.mk a false).read n = (List.replicate n 0, ⟨a, false⟩) := rfl

/-- A failed stream ends the loop at its next check. -/
theorem loadLoop_bad (i : Nat) (a : Str) (result : Map Key Value) : loadLoop i ⟨a, false⟩ result = result := by
  cases i with
  | zero => rfl
  | succ i => simp [loadLoop, read_bad]

/-- So does the end of the file. -/
theorem loadLoop_eof (i : Nat) (result : Map Key Value) : loadLoop i ⟨[], true⟩ result = result := by
  cases i with
  | zero => rfl
  | succ i => simp [loadLoop, read_short]

/-! ## Pairs read back -/

/-- A pair whose two lengths fit their `uint32_t`. -/
def Storable (p : Key × Value) : Prop := p.1.length < 2 ^ 32 ∧ p.2.length < 2 ^ 32

theorem pair_eq {p : Key × Value} (h : Storable p) :
    pair p = le32 p.1.length ++ (p.1 ++ (le32 p.2.length ++ p.2)) := by
  unfold pair
  rw [Nat.mod_eq_of_lt h.1, Nat.mod_eq_of_lt h.2, List.take_length, List.take_length]

theorem length_pair {p : Key × Value} (h : Storable p) : (pair p).length = 8 + p.1.length + p.2.length := by
  rw [pair_eq h]
  simp only [List.length_append, length_le32]
  omega

/-- A value cut off after `n` bytes, filled up with zero bytes to its length. -/
def padded (n : Nat) (v : Value) : Value := v.take n ++ List.replicate (v.length - n) 0

theorem padded_of_le {n : Nat} {v : Value} (h : v.length ≤ n) : padded n v = v := by
  unfold padded
  rw [List.take_of_length_le h, Nat.sub_eq_zero_of_le h]
  simp

/-- Filling up restores the value exactly when the bytes cut off were zero. -/
theorem padded_eq_iff (n : Nat) (v : Value) : padded n v = v ↔ ∀ b ∈ v.drop n, b = 0 := by
  have hsplit : padded n v = v ↔ List.replicate (v.length - n) 0 = v.drop n := by
    constructor
    · intro h
      have : v.take n ++ List.replicate (v.length - n) 0 = v.take n ++ v.drop n :=
        h.trans (List.take_append_drop n v).symm
      exact List.append_cancel_left this
    · intro h
      unfold padded
      rw [h, List.take_append_drop]
  rw [hsplit, eq_comm, List.eq_replicate_iff]
  simp

/-- A pair that is followed by anything, or cut inside its value, is inserted (with the value
filled up); the loop goes on behind it. -/
theorem loadLoop_pair {p : Key × Value} (h : Storable p) (i : Nat) (rest : Str) (result : Map Key Value) :
    loadLoop (i + 1) ⟨pair p ++ rest, true⟩ result = loadLoop i ⟨rest, true⟩ (result.insert p.1 p.2) := by
  rw [pair_eq h]
  simp only [loadLoop, List.append_assoc, read_append _ (length_le32 _), ofLe_le32 h.1, ofLe_le32 h.2,
    read_append _ rfl, Bool.not_true, Bool.false_eq_true, if_false]

theorem take_le32_add (n m : Nat) (rest : Str) : (le32 n ++ rest).take (4 + m) = le32 n ++ rest.take m := by
  rw [← length_le32 n, List.take_length_add_append]

/-- A pair cut before its value is cut in its key length, in its key, or in its value length. -/
theorem take_pair {p : Key × Value} (h : Storable p) {m : Nat} (hm : m < 8 + p.1.length) :
    ((pair p).take m).length < 4 ∨
    (∃ b, (pair p).take m = le32 p.1.length ++ b ∧ b.length < p.1.length) ∨
    (∃ c, (pair p).take m = le32 p.1.length ++ (p.1 ++ c) ∧ c.length < 4) := by
  rw [pair_eq h]
  by_cases h4 : m < 4
  · left
    rw [List.length_take]
    omega
  · right
    obtain ⟨m, rfl⟩ : ∃ m', m = 4 + m' := ⟨m - 4, by omega⟩
    rw [take_le32_add]
    by_cases hk : m < p.1.length
    · left
      exact ⟨_, rfl, by rw [List.length_take]; omega⟩
    · right
      obtain ⟨m, rfl⟩ : ∃ m', m = p.1.length + m' := ⟨m - p.1.length, by omega⟩
      rw [List.take_length_add_append]
      exact ⟨_, rfl, by rw [List.length_take]; omega⟩

/-- A pair cut before its value is dropped and ends the loop. -/
theorem loadLoop_cut {p : Key × Value} (h : Storable p) {m : Nat} (hm : m < 8 + p.1.length) (i : Nat)
    (result : Map Key Value) : loadLoop i ⟨(pair p).take m, true⟩ result = result := by
  cases i with
  | zero => rfl
  | succ i =>
    rcases take_pair h hm with h4 | ⟨b, hb, hk⟩ | ⟨c, hc, h4⟩
    · simp [loadLoop, read_short h4]
    · rw [hb]
      simp [loadLoop, read_append b (length_le32 _), ofLe_le32 h.1, read_short hk, read_bad]
    · rw [hc]
      simp [loadLoop, read_append _ (length_le32 p.1.length), ofLe_le32 h.1, read_append c rfl, read_short h4]

/-- A pair cut inside its value is inserted with the value filled up, and ends the loop. -/
theorem loadLoop_padded {p : Key × Value} (h : Storable p) {m : Nat} (hm : 8 + p.1.length ≤ m)
    (hm' : m < (pair p).length) (i : Nat) (result : Map Key Value) :
    loadLoop (i + 1) ⟨(pair p).take m, true⟩ result = result.insert p.1 (padded (m - (8 + p.1.length)) p.2) := by
  rw [length_pair h] at hm'
  obtain ⟨j, rfl⟩ : ∃ j, m = 4 + (p.1.length + (4 + j)) := ⟨m - (8 + p.1.length), by omega⟩
  have hsplit : (pair p).take (4 + (p.1.length + (4 + j))) =
      le32 p.1.length ++ (p.1 ++ (le32 p.2.length ++ p.2.take j)) := by
    rw [pair_eq h, take_le32_add, List.take_length_add_append, take_le32_add]
  have hlen : (p.2.take j).length = j := by simp; omega
  have hj : 4 + (p.1.length + (4 + j)) - (8 + p.1.length) = j := by omega
  rw [hsplit, hj]
  simp only [loadLoop, read_append _ (length_le32 _), ofLe_le32 h.1, ofLe_le32 h.2, read_append _ rfl,
    Bool.not_true, Bool.false_eq_true, if_false]
  rw [read_short (by rw [hlen]; omega)]
  simp only [loadLoop_bad, hlen, padded]

/-! ## Files cut short -/

/-- The pairs `load` inserts from the first `n` bytes of the pairs, with `i` turns. -/
def survivors : Nat → List (Key × Value) → Nat → List (Key × Value)
  | 0, _, _ => []
  | _ + 1, [], _ => []
  | i + 1, p :: order, n =>
    if (pair p).length ≤ n then p :: survivors i order (n - (pair p).length)
    else if 8 + p.1.length ≤ n then [(p.1, padded (n - (8 + p.1.length)) p.2)]
    else []

/-- Insert pairs in order. -/
def insertAll (result : Map Key Value) (ps : List (Key × Value)) : Map Key Value :=
  writeAll result (ps.map fun p => (p.1, some p.2))

theorem pairs_cons (p : Key × Value) (order : List (Key × Value)) : pairs (p :: order) = pair p ++ pairs order := rfl

theorem loadLoop_pairs : ∀ {order : List (Key × Value)}, (∀ p ∈ order, Storable p) →
    ∀ (i n : Nat) (result : Map Key Value),
      loadLoop i ⟨(pairs order).take n, true⟩ result = insertAll result (survivors i order n)
  | [], _, i, n, result => by
    have : (pairs []).take n = [] := by simp [pairs]
    rw [this, loadLoop_eof]
    cases i <;> rfl
  | p :: order, h, 0, n, result => rfl
  | p :: order, h, i + 1, n, result => by
    have hp := h p List.mem_cons_self
    rw [pairs_cons, survivors]
    by_cases hn : (pair p).length ≤ n
    · rw [if_pos hn, List.take_append, List.take_of_length_le hn, loadLoop_pair hp,
        loadLoop_pairs (fun q hq => h q (List.mem_cons_of_mem _ hq))]
      rfl
    · rw [if_neg hn, List.take_append_of_le_length (by omega)]
      by_cases hv : 8 + p.1.length ≤ n
      · rw [if_pos hv, loadLoop_padded hp hv (by omega)]
        rfl
      · rw [if_neg hv, loadLoop_cut hp (by omega)]
        rfl

/-- `load` on the first `n` bytes of a snapshot. -/
theorem load_take {order : List (Key × Value)} (h : ∀ p ∈ order, Storable p) (n : Nat) :
    load ((save order).take n) =
      if 4 ≤ n then insertAll ∅ (survivors (order.length % 2 ^ 32) order (n - 4)) else ∅ := by
  unfold load save
  by_cases h4 : 4 ≤ n
  · obtain ⟨m, rfl⟩ : ∃ m, n = 4 + m := ⟨n - 4, by omega⟩
    rw [if_pos h4, take_le32_add, read_append _ (length_le32 _), Nat.add_sub_cancel_left]
    simp only [Bool.not_true, Bool.false_eq_true, if_false, ofLe_le32_mod]
    exact loadLoop_pairs h _ _ _
  · rw [if_neg h4, read_short (by rw [List.length_take]; omega)]
    rfl

theorem survivors_keys : ∀ (i : Nat) (order : List (Key × Value)) (n : Nat),
    (survivors i order n).map Prod.fst <+: order.map Prod.fst
  | 0, _, _ => List.nil_prefix
  | _ + 1, [], _ => List.nil_prefix
  | i + 1, p :: order, n => by
    rw [survivors]
    split
    · exact (List.prefix_cons_inj p.1).2 (survivors_keys i order _)
    · split
      · exact ⟨order.map Prod.fst, rfl⟩
      · exact List.nil_prefix

theorem lookup_insertAll {ps : List (Key × Value)} (h : (ps.map Prod.fst).Nodup) (k : Key) (v : Value) :
    (insertAll ∅ ps).lookup k = some v ↔ (k, v) ∈ ps := by
  have hkeys : (ps.map fun p => ((p.1, some p.2) : Update Key Value)).map Prod.fst = ps.map Prod.fst := by
    rw [List.map_map]; rfl
  have hmem : ((k, some v) : Update Key Value) ∈ ps.map (fun p => (p.1, some p.2)) ↔ (k, v) ∈ ps := by
    simp [Prod.ext_iff]
  unfold insertAll
  rw [lookup_writeAll, ← hmem]
  constructor
  · intro hl
    cases hlast : lastOf k (ps.map fun p => ((p.1, some p.2) : Update Key Value)) with
    | none => rw [hlast] at hl; cases hl
    | some o =>
      rw [hlast] at hl
      simp only [Option.getD_some] at hl
      subst hl
      exact mem_of_lastOf hlast
  · intro hm
    rw [lastOf_of_nodup (by rw [hkeys]; exact h) hm]
    rfl

theorem enumerates_iff (order : List (Key × Value)) (d : Map Key Value) :
    KVStore.Enumerates order d ↔ (order.map Prod.fst).Nodup ∧ insertAll ∅ order = d := by
  constructor
  · rintro ⟨hnd, hmem⟩
    refine ⟨hnd, Finmap.ext_lookup fun k => Option.ext fun v => ?_⟩
    rw [lookup_insertAll hnd, hmem]
  · rintro ⟨hnd, rfl⟩
    exact ⟨hnd, fun k v => (lookup_insertAll hnd k v).symm⟩

instance (order : List (Key × Value)) (d : Map Key Value) : Decidable (KVStore.Enumerates order d) :=
  decidable_of_iff _ (enumerates_iff order d).symm

/-- What `load` knows after the first `n` bytes of a snapshot. -/
theorem lookup_load_take {order : List (Key × Value)} (h : ∀ p ∈ order, Storable p)
    (hnd : (order.map Prod.fst).Nodup) (n : Nat) (k : Key) (v : Value) :
    (load ((save order).take n)).lookup k = some v ↔
      4 ≤ n ∧ (k, v) ∈ survivors (order.length % 2 ^ 32) order (n - 4) := by
  rw [load_take h]
  split
  · rename_i h4
    rw [lookup_insertAll ((survivors_keys _ order _).sublist.nodup hnd)]
    simp [h4]
  · rename_i h4
    simp [h4]

/-- A file that is not cut short gives the pairs that were counted. -/
theorem survivors_all : ∀ {order : List (Key × Value)} (i n : Nat), (pairs order).length ≤ n →
    survivors i order n = order.take i
  | [], 0, _, _ => rfl
  | [], i + 1, _, _ => rfl
  | _ :: _, 0, _, _ => rfl
  | p :: order, i + 1, n, h => by
    rw [pairs_cons, List.length_append] at h
    rw [survivors, if_pos (by omega), survivors_all i _ (by omega), List.take_succ_cons]

/-- Round trip: `load` on the file `save` writes gives the map back, whatever the order. -/
theorem load_save {order : List (Key × Value)} {d : Map Key Value} (he : KVStore.Enumerates order d)
    (h : ∀ p ∈ order, Storable p) (hlen : order.length < 2 ^ 32) : load (save order) = d := by
  have hall : survivors (order.length % 2 ^ 32) order ((save order).length - 4) = order := by
    rw [survivors_all _ _ (by simp [save]), Nat.mod_eq_of_lt hlen, List.take_length]
  have hmem : ∀ k v, (load (save order)).lookup k = some v ↔ d.lookup k = some v := by
    intro k v
    have := lookup_load_take h he.nodup (save order).length k v
    rw [List.take_length, hall, he.mem] at this
    rw [this]
    simp [save]
  apply Finmap.ext_lookup
  intro k
  exact Option.ext fun v => hmem k v

/-- Snapshot round trip: the file `save` writes for a map, in whatever order, loaded into any store
leaves exactly the map. -/
theorem loadFromSnapshot_saved {order : List (Key × Value)} {m : Map Key Value} (he : KVStore.Enumerates order m)
    (hs : ∀ k v, m.lookup k = some v → k.length < 2 ^ 32 ∧ v.length < 2 ^ 32) (hlen : order.length < 2 ^ 32)
    (store : KVStore) : (store.loadFromSnapshot (load (save order))).data = m := by
  have hstorable : ∀ p ∈ order, Storable p := fun p hp => hs p.1 p.2 ((he.mem p.1 p.2).1 hp)
  exact load_save he hstorable hlen

/-- A map with an empty key and empty values, over a store that held something else. -/
theorem loadFromSnapshot_saved_emptyKey :
    ((KVStore.mk ((∅ : Map Key Value).insert [97] [98])).loadFromSnapshot
      (load (save [([], []), ([107], [])]))).data = ((∅ : Map Key Value).insert [] []).insert [107] [] := by
  have he : KVStore.Enumerates [([], []), ([107], [])] (((∅ : Map Key Value).insert [] []).insert [107] []) := by
    decide
  refine loadFromSnapshot_saved he ?_ (by decide) _
  intro k v h
  have hmem := (he.mem k v).2 h
  simp only [List.mem_cons, List.not_mem_nil, or_false] at hmem
  rcases hmem with hmem | hmem <;> cases hmem <;> decide

/-! ## The pair at an index -/

/-- A key stands at one index only. -/
theorem getElem?_key_inj {order : List (Key × Value)} (hnd : (order.map Prod.fst).Nodup) {i j : Nat} {k : Key}
    {v w : Value} (hi : order[i]? = some (k, v)) (hj : order[j]? = some (k, w)) : j = i ∧ w = v := by
  have hki : (order.map Prod.fst)[i]? = some k := by rw [List.getElem?_map, hi]; rfl
  have hkj : (order.map Prod.fst)[j]? = some k := by rw [List.getElem?_map, hj]; rfl
  have hlt : i < (order.map Prod.fst).length := (List.getElem?_eq_some_iff.1 hki).1
  obtain rfl : i = j := (List.getElem?_inj hlt hnd).1 (hki.trans hkj.symm)
  rw [hi] at hj
  cases hj
  exact ⟨rfl, rfl⟩

/-- Where the value of the pair at index `j` starts in the file. -/
def valueStart (order : List (Key × Value)) (j : Nat) (k : Key) : Nat :=
  4 + (pairs (order.take j)).length + (8 + k.length)

/-- A pair that survives is a counted one whose value starts within the bytes, its value filled up. -/
theorem mem_survivors : ∀ {order : List (Key × Value)}, (∀ p ∈ order, Storable p) →
    ∀ (i n : Nat) (k : Key) (w : Value), (k, w) ∈ survivors i order n ↔ ∃ j v, j < i ∧ order[j]? = some (k, v) ∧
      (pairs (order.take j)).length + (8 + k.length) ≤ n ∧
        w = padded (n - ((pairs (order.take j)).length + (8 + k.length))) v
  | [], _, i, _, _, _ => by cases i <;> simp [survivors]
  | p :: order, _, 0, _, _, _ => by simp [survivors]
  | p :: order, h, i + 1, n, k, w => by
    obtain ⟨k₀, v₀⟩ := p
    have hp : (pair (k₀, v₀)).length = 8 + k₀.length + v₀.length := length_pair (h _ List.mem_cons_self)
    have ih := mem_survivors (fun q hq => h q (List.mem_cons_of_mem _ hq)) i
    rw [survivors]
    by_cases hn : (pair (k₀, v₀)).length ≤ n
    · rw [if_pos hn, List.mem_cons, ih]
      constructor
      · rintro (heq | ⟨j, v, hj, hget, hstart, rfl⟩)
        · cases heq
          refine ⟨0, w, Nat.succ_pos i, rfl, ?_, ?_⟩
          · simp only [List.take_zero, pairs, List.flatMap_nil, List.length_nil]
            omega
          · simp only [List.take_zero, pairs, List.flatMap_nil, List.length_nil]
            exact (padded_of_le (by omega)).symm
        · refine ⟨j + 1, v, Nat.succ_lt_succ hj, hget, ?_, ?_⟩
          · rw [List.take_succ_cons, pairs_cons, List.length_append]
            omega
          · rw [List.take_succ_cons, pairs_cons, List.length_append, Nat.sub_sub, Nat.add_assoc]
      · rintro ⟨j, v, hj, hget, hstart, rfl⟩
        cases j with
        | zero =>
          left
          cases hget
          simp only [List.take_zero, pairs, List.flatMap_nil, List.length_nil]
          rw [padded_of_le (by omega)]
        | succ j =>
          right
          rw [List.take_succ_cons, pairs_cons, List.length_append] at hstart ⊢
          refine ⟨j, v, Nat.lt_of_succ_lt_succ hj, hget, by omega, ?_⟩
          rw [Nat.sub_sub, Nat.add_assoc]
    · -- the cut is in this pair, the last one that can survive
      rw [if_neg hn]
      have hlast : (∃ j v, j < i + 1 ∧ ((k₀, v₀) :: order)[j]? = some (k, v) ∧
          (pairs (((k₀, v₀) :: order).take j)).length + (8 + k.length) ≤ n ∧
            w = padded (n - ((pairs (((k₀, v₀) :: order).take j)).length + (8 + k.length))) v) ↔
          k = k₀ ∧ 8 + k₀.length ≤ n ∧ w = padded (n - (8 + k₀.length)) v₀ := by
        constructor
        · rintro ⟨j, v, -, hget, hstart, rfl⟩
          cases j with
          | zero =>
            cases hget
            simp only [List.take_zero, pairs, List.flatMap_nil, List.length_nil, Nat.zero_add] at hstart ⊢
            exact ⟨trivial, hstart, trivial⟩
          | succ j =>
            rw [List.take_succ_cons, pairs_cons, List.length_append] at hstart
            omega
        · rintro ⟨rfl, hstart, rfl⟩
          refine ⟨0, v₀, Nat.succ_pos i, rfl, ?_, ?_⟩
          · simpa [pairs] using hstart
          · simp [pairs]
      rw [hlast]
      split
      · rename_i hv
        simp [hv]
      · rename_i hv
        simp [hv]

/-- The pair at index `j` is read back from the first `n` bytes of the file exactly when it is
counted in the header, the cut does not come before its value, and every byte of the value
behind the cut is zero. -/
theorem lookup_load_take_index {order : List (Key × Value)} (h : ∀ p ∈ order, Storable p)
    (hnd : (order.map Prod.fst).Nodup) {j : Nat} {k : Key} {v : Value} (hj : order[j]? = some (k, v)) (n : Nat) :
    (load ((save order).take n)).lookup k = some v ↔
      j < order.length % 2 ^ 32 ∧ valueStart order j k ≤ n ∧ ∀ b ∈ v.drop (n - valueStart order j k), b = 0 := by
  unfold valueStart
  rw [lookup_load_take h hnd, mem_survivors h, ← padded_eq_iff]
  have e : n - 4 - ((pairs (order.take j)).length + (8 + k.length)) =
      n - (4 + (pairs (order.take j)).length + (8 + k.length)) := by omega
  constructor
  · rintro ⟨h4, j', v', hi, hj', hstart, hv⟩
    obtain ⟨rfl, rfl⟩ := getElem?_key_inj hnd hj hj'
    rw [e] at hv
    exact ⟨hi, by omega, hv.symm⟩
  · rintro ⟨hi, hstart, hv⟩
    refine ⟨by omega, j, v, hi, hj, by omega, ?_⟩
    rw [e, hv]

/-! ## Invented pairs -/

/-- A prefix of a snapshot gives only pairs of the map exactly if no value is cut with a byte
other than zero missing: `load` does not check the read of the value and fills it up. -/
theorem load_take_subset_iff {order : List (Key × Value)} {m : Map Key Value} (he : KVStore.Enumerates order m)
    (hs : ∀ k v, m.lookup k = some v → k.length < 2 ^ 32 ∧ v.length < 2 ^ 32) (hlen : order.length < 2 ^ 32)
    (n : Nat) :
    (∀ k v, (load ((save order).take n)).lookup k = some v → m.lookup k = some v) ↔
      ∀ j k v, order[j]? = some (k, v) → valueStart order j k ≤ n →
        ∀ b ∈ v.drop (n - valueStart order j k), b = 0 := by
  have hstorable : ∀ p ∈ order, Storable p := fun p hp => hs p.1 p.2 ((he.mem p.1 p.2).1 hp)
  have hmod : order.length % 2 ^ 32 = order.length := Nat.mod_eq_of_lt hlen
  constructor
  · intro h j k v hj hstart
    have hjlt : j < order.length := (List.getElem?_eq_some_iff.1 hj).1
    rw [← padded_eq_iff]
    -- the value as it is read back is the one of the map
    have hread : (load ((save order).take n)).lookup k = some (padded (n - valueStart order j k) v) := by
      unfold valueStart at hstart ⊢
      rw [lookup_load_take hstorable he.nodup, mem_survivors hstorable, hmod]
      refine ⟨by omega, j, v, hjlt, hj, by omega, ?_⟩
      congr 1
      omega
    have hm := h k _ hread
    rw [(he.mem k v).1 (List.mem_of_getElem? hj), Option.some.injEq] at hm
    exact hm.symm
  · intro h k w hw
    obtain ⟨h4, hw⟩ := (lookup_load_take hstorable he.nodup n k w).1 hw
    obtain ⟨j, v, -, hj, hstart, rfl⟩ := (mem_survivors hstorable _ _ k w).1 hw
    have hzero := h j k v hj (by unfold valueStart; omega)
    have heq : n - 4 - ((pairs (order.take j)).length + (8 + k.length)) = n - valueStart order j k := by
      unfold valueStart
      omega
    rw [heq, (padded_eq_iff _ v).2 hzero]
    exact (he.mem k v).1 (List.mem_of_getElem? hj)

/-- The map of `"k"` alone, whose value is `"v"`. -/
def onlyK : Map Key Value := (∅ : Map Key Value).insert [107] [118]

theorem enumerates_onlyK : KVStore.Enumerates [([107], [118])] onlyK := by decide

/-- Its file cut before the length of the value: what is read back was there. -/
theorem load_take_subset_iff_onlyK :
    KVStore.Enumerates [([107], [118])] onlyK ∧
      ∀ k v, (load ((save [([107], [118])]).take 10)).lookup k = some v → onlyK.lookup k = some v := by
  refine ⟨enumerates_onlyK, (load_take_subset_iff enumerates_onlyK ?_ (by decide) 10).2 ?_⟩
  · intro k v h
    have hmem := (enumerates_onlyK.mem k v).2 h
    rw [List.mem_singleton] at hmem
    cases hmem
    decide
  · -- no value starts before the two lengths and the key are over
    intro j k v _ hstart
    unfold valueStart at hstart
    omega

/-- Cut right before its value, the file gives `"k"` a zero byte. -/
theorem cut_value_invented : KVStore.Enumerates [([107], [118])] onlyK ∧
    (load ((save [([107], [118])]).take 13)).lookup [107] = some [0] ∧ onlyK.lookup [107] ≠ some [0] := by
  refine ⟨enumerates_onlyK, by decide, by decide⟩

end Snapshot

end KvStore
