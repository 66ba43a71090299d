/-
The hash ring (`src/cluster/consistent_hash.cpp`, `include/cluster/node.h`). Every node puts
`virtual_nodes_per_node` positions `hash("id#i")` on the ring, and a key belongs to the nodes met
clockwise from its own hash. `getNodes` is the loop of the source, with its wrap-around and its two
size bounds; `Walks` is the loop without a bound on its turns. It ends with the first `count` nodes of
the preference list (`walks_preferenceList`), and `getNodes` returns them (`getNodes_eq`).
-/
import KvStore.Common.Types
import KvStore.Lib.Ring

namespace KvStore

open Bytes Ring

/-- The id of a node. -/
abbrev NodeId := Str

/-- `NodeInfo::Status`. -/
inductive NodeStatus
  | up
  | suspect
  | down
  deriving DecidableEq, Repr

structure NodeInfo where
  id : NodeId
  host : Str
  port : UInt16
  status : NodeStatus
  deriving DecidableEq, Repr

/-! ## Hashing -/

/-- One turn of the loop in `hash`. `char` is signed, so `static_cast<size_t>(c)` extends its
sign. -/
def hashByte (h : UInt64) (c : UInt8) : UInt64 := (h ^^^ c.toInt8.toInt64.toUInt64) * 1099511628211

/-- `ConsistentHashRing::hash`, with a `size_t` of 64 bits. -/
def hash (key : Str) : UInt64 := key.foldl hashByte 14695981039346656037

/-- `std::to_string` of a `size_t`. -/
def decimal (i : Nat) : Str := (Nat.toDigits 10 i).map fun c => UInt8.ofNat c.toNat

/-- `node.id + "#" + std::to_string(i)`. -/
def vnodeKey (id : NodeId) (i : Nat) : Str := id ++ 35 :: decimal i

/-! ## The ring -/

/-- `ConsistentHashRing`: `ring_` from hashes to node ids and the vector `nodes_` of ids, which
has no duplicates and contains every id on the ring. -/
structure ConsistentHashRing where
  virtualNodes : Nat
  ring : OrderedMap Nat NodeId
  nodes : List NodeId
  distinct : nodes.Nodup
  owned : ∀ e ∈ ring.entries, e.2 ∈ nodes

namespace ConsistentHashRing

/-- `ConsistentHashRing(virtual_nodes_per_node)`. -/
def new (virtualNodes : Nat) : ConsistentHashRing :=
  ⟨virtualNodes, OrderedMap.empty, [], List.nodup_nil, by simp [OrderedMap.empty]⟩

/-- The loop of `addNode`: `ring_[hash(vnode_key)] = node.id` for `i = 0, 1, …, n - 1`. -/
def addVnodes (id : NodeId) (m : OrderedMap Nat NodeId) (n : Nat) : OrderedMap Nat NodeId :=
  (List.range n).foldl (fun m i => m.insert (hash (vnodeKey id i)).toNat id) m

/-- What the loop leaves: the positions of `id`, and the old ones that it did not take. -/
theorem mem_addVnodes_iff {id : NodeId} {m : OrderedMap Nat NodeId} {n : Nat} {e : Nat × NodeId} :
    e ∈ (addVnodes id m n).entries ↔
      (e.2 = id ∧ ∃ i < n, (hash (vnodeKey id i)).toNat = e.1) ∨
        (e ∈ m.entries ∧ ∀ i < n, (hash (vnodeKey id i)).toNat ≠ e.1) := by
  unfold addVnodes
  induction n with
  | zero => simp
  | succ n ih =>
    rw [List.range_succ, List.foldl_append, List.foldl_cons, List.foldl_nil, OrderedMap.mem_insert, ih]
    simp only [Nat.lt_succ_iff_lt_or_eq, Prod.ext_iff]
    grind

theorem mem_addVnodes {id : NodeId} {m : OrderedMap Nat NodeId} {n : Nat} {e : Nat × NodeId}
    (h : e ∈ (addVnodes id m n).entries) : e.2 = id ∨ e ∈ m.entries :=
  (mem_addVnodes_iff.1 h).imp And.left And.left

theorem addVnodes_ne_nil (id : NodeId) (m : OrderedMap Nat NodeId) {n : Nat} (h : 0 < n) :
    (addVnodes id m n).entries ≠ [] := by
  obtain ⟨n, rfl⟩ : ∃ k, n = k + 1 := ⟨n - 1, by omega⟩
  unfold addVnodes
  rw [List.range_succ, List.foldl_append]
  exact OrderedMap.assign_ne_nil _ _ _

/-- `addNode`. -/
def addNode (r : ConsistentHashRing) (id : NodeId) : ConsistentHashRing where
  virtualNodes := r.virtualNodes
  ring := addVnodes id r.ring r.virtualNodes
  nodes := push r.nodes id
  distinct := nodup_push r.distinct id
  owned := by
    intro e he
    rw [mem_push]
    rcases mem_addVnodes he with h | h
    · exact Or.inr h
    · exact Or.inl (r.owned e h)

/-- `removeNode`. -/
def removeNode (r : ConsistentHashRing) (id : NodeId) : ConsistentHashRing where
  virtualNodes := r.virtualNodes
  ring := r.ring.eraseValue id
  nodes := r.nodes.filter (· ≠ id)
  distinct := r.distinct.filter _
  owned := by
    intro e he
    obtain ⟨he, hid⟩ := List.mem_filter.1 he
    exact List.mem_filter.2 ⟨r.owned e he, hid⟩

def nodeCount (r : ConsistentHashRing) : Nat := r.nodes.length

/-- `ring_.lower_bound(hash(key))`, or the beginning if that is the end. -/
def start (r : ConsistentHashRing) (key : Key) : Nat :=
  let it := r.ring.lowerBound (hash key).toNat
  if it = r.ring.entries.length then 0 else it

/-- `getNode`; the empty string on an empty ring. -/
def getNode (r : ConsistentHashRing) (key : Key) : NodeId :=
  match r.ring.entries[r.start key]? with
  | some e => e.2
  | none => []

/-- `++it`, and to the beginning from the end. -/
def next (ring : List (Nat × NodeId)) (it : Nat) : Nat := if it + 1 = ring.length then 0 else it + 1

/-- The `while` loop of `getNodes` at position `it`; each turn takes one unit of fuel. -/
def walkLoop (ring : List (Nat × NodeId)) (start count size : Nat) : Nat → Nat → List NodeId → List NodeId
  | 0, _, result => result
  | fuel + 1, it, result =>
    if result.length < count ∧ result.length < size then
      match ring[it]? with
      | none => result
      | some e =>
        if next ring it = start then push result e.2
        else walkLoop ring start count size fuel (next ring it) (push result e.2)
    else result

/-- The `while` loop without a bound on its turns: from position `it` and what it has collected so
far, it ends after the given number of turns with the final list. -/
inductive Walks (ring : List (Nat × NodeId)) (start count size : Nat) :
    Nat → Nat → List NodeId → List NodeId → Prop
  | full {it : Nat} {result : List NodeId} (h : ¬ (result.length < count ∧ result.length < size)) :
    Walks ring start count size 0 it result result
  | back {it : Nat} {result : List NodeId} {e : Nat × NodeId} (h : result.length < count ∧ result.length < size)
    (he : ring[it]? = some e) (hnext : next ring it = start) :
    Walks ring start count size 1 it result (push result e.2)
  | turn {turns it : Nat} {result final : List NodeId} {e : Nat × NodeId}
    (h : result.length < count ∧ result.length < size) (he : ring[it]? = some e) (hnext : next ring it ≠ start)
    (hrest : Walks ring start count size turns (next ring it) (push result e.2) final) :
    Walks ring start count size (turns + 1) it result final

/-- `getNodes`. -/
def getNodes (r : ConsistentHashRing) (key : Key) (count : Nat) : List NodeId :=
  if r.ring.entries = [] ∨ count = 0 then []
  else
    walkLoop r.ring.entries (r.start key) count r.nodes.length r.ring.entries.length (r.start key) []

/-- The preference list of a key: the owners met on one clockwise walk around the ring from the
first position not below the key's hash, each at its first occurrence. -/
def preferenceList (r : ConsistentHashRing) (key : Key) : List NodeId :=
  Ring.distinct ((r.ring.entries.rotate (r.ring.lowerBound (hash key).toNat)).map Prod.snd)

/-! ## The walk -/

theorem next_mod {ring : List (Nat × NodeId)} (h : 0 < ring.length) (i : Nat) :
    next ring (i % ring.length) = (i + 1) % ring.length := by
  unfold next
  rw [← Nat.mod_add_mod i ring.length 1]
  split
  · rename_i he
    rw [he, Nat.mod_self]
  · rename_i hne
    have hlt := Nat.mod_lt i h
    exact (Nat.mod_eq_of_lt (by omega)).symm

/-- The walk is back at its start after the last entry, and not before. -/
theorem mod_eq_start_iff {n start j : Nat} (hs : start < n) (hj : j < n) :
    (j + start + 1) % n = start ↔ j + 1 = n := by
  rcases Nat.lt_or_ge (j + start + 1) n with h | h
  · rw [Nat.mod_eq_of_lt h]
    omega
  · rw [Nat.mod_eq_sub_mod h, Nat.mod_eq_of_lt (by omega)]
    omega

/-- With enough fuel, `walkLoop` is the loop. -/
theorem Walks.walkLoop {ring : List (Nat × NodeId)} {start count size turns it : Nat} {result final : List NodeId}
    (h : Walks ring start count size turns it result final) :
    ∀ fuel, turns ≤ fuel → walkLoop ring start count size fuel it result = final := by
  induction h with
  | full h =>
    intro fuel _
    cases fuel with
    | zero => rfl
    | succ fuel => rw [ConsistentHashRing.walkLoop, if_neg h]
  | back h he hnext =>
    intro fuel hfuel
    obtain ⟨fuel, rfl⟩ := Nat.exists_eq_add_of_le' hfuel
    rw [ConsistentHashRing.walkLoop, if_pos h, he]
    exact if_pos hnext
  | turn h he hnext _ ih =>
    intro fuel hfuel
    obtain ⟨fuel, rfl⟩ := Nat.exists_eq_add_of_le' (Nat.one_le_of_lt hfuel)
    rw [ConsistentHashRing.walkLoop, if_pos h, he]
    exact (if_neg hnext).trans (ih fuel (by omega))

/-- The loop ends, and collects the distinct owners of what is left of the walk. -/
theorem exists_walks {ring : List (Nat × NodeId)} {start : Nat} (hs : start < ring.length) (count size : Nat) :
    ∀ (left j : Nat) (result : List NodeId), j + left = ring.length → 0 < left →
      ∃ turns ≤ left, Walks ring start count size turns ((j + start) % ring.length) result
        (firstDistinct (min count size) result (((ring.rotate start).drop j).map Prod.snd))
  | 0, _, _, _, h => absurd h (by omega)
  | left + 1, j, result, hj, _ => by
    have hlt : (j + start) % ring.length < ring.length := Nat.mod_lt _ (by omega)
    have hjlt : j < (ring.rotate start).length := by
      rw [List.length_rotate]
      omega
    have hdrop : (ring.rotate start).drop j =
        ring[(j + start) % ring.length] :: (ring.rotate start).drop (j + 1) := by
      rw [List.drop_eq_getElem_cons hjlt, List.getElem_rotate]
    have he := List.getElem?_eq_getElem hlt
    have hnext : next ring ((j + start) % ring.length) = (j + start + 1) % ring.length := next_mod (by omega) _
    rw [hdrop, List.map_cons, firstDistinct]
    by_cases hcond : result.length < count ∧ result.length < size
    · rw [if_pos (lt_min hcond.1 hcond.2)]
      by_cases hlast : left = 0
      · have hend : (ring.rotate start).drop (j + 1) = [] :=
          List.drop_eq_nil_of_le (by rw [List.length_rotate]; omega)
        have hback := (mod_eq_start_iff hs (by omega)).2 (by omega : j + 1 = ring.length)
        rw [hend]
        exact ⟨1, by omega, .back hcond he (hnext.trans hback)⟩
      · have hgo : next ring ((j + start) % ring.length) ≠ start := by
          rw [hnext, Ne, mod_eq_start_iff hs (by omega)]
          omega
        obtain ⟨turns, hturns, hwalks⟩ := exists_walks hs count size left (j + 1)
          (push result ring[(j + start) % ring.length].2) (by omega) (by omega)
        have hpos : (j + 1 + start) % ring.length = next ring ((j + start) % ring.length) := by
          rw [hnext, Nat.add_right_comm]
        rw [hpos] at hwalks
        exact ⟨turns + 1, by omega, .turn hcond he hgo hwalks⟩
    · rw [if_neg (fun h => hcond (lt_min_iff.1 h))]
      exact ⟨0, by omega, .full hcond⟩

variable (r : ConsistentHashRing) (key : Key)

theorem start_lt (h : r.ring.entries ≠ []) : r.start key < r.ring.entries.length := by
  have hpos := List.length_pos_iff.2 h
  have hle : r.ring.lowerBound (hash key).toNat ≤ r.ring.entries.length := List.findIdx_le_length
  unfold start
  simp only
  split
  · exact hpos
  · omega

/-- Starting at the end or at the beginning makes no difference to the walk. -/
theorem rotate_start : r.ring.entries.rotate (r.start key) =
    r.ring.entries.rotate (r.ring.lowerBound (hash key).toNat) := by
  unfold start
  simp only
  split
  · rename_i h
    rw [h, List.rotate_length, List.rotate_zero]
  · rfl

variable {key} in
/-- Whoever owns a position is a member. -/
theorem mem_of_preferenceList {id : NodeId} (h : id ∈ r.preferenceList key) : id ∈ r.nodes := by
  obtain ⟨e, he, rfl⟩ := List.mem_map.1 (mem_distinct.1 h)
  exact r.owned e (List.mem_rotate.1 he)

theorem length_preferenceList_le : (r.preferenceList key).length ≤ r.nodeCount :=
  length_distinct_le fun _ h => r.mem_of_preferenceList (mem_distinct.2 h)

/-- A bound by at least the number of nodes never cuts the loop short of the preference list. -/
theorem walks_preferenceList (h : r.ring.entries ≠ []) (count : Nat) {size : Nat} (hsize : r.nodeCount ≤ size) :
    ∃ turns ≤ r.ring.entries.length, Walks r.ring.entries (r.start key) count size turns (r.start key) []
      ((r.preferenceList key).take count) := by
  have hs := r.start_lt key h
  obtain ⟨turns, hturns, hwalks⟩ := exists_walks hs count size r.ring.entries.length 0 [] (by omega) (by omega)
  rw [Nat.zero_add, Nat.mod_eq_of_lt hs, List.drop_zero, rotate_start, firstDistinct_eq_take (by simp)] at hwalks
  have hlen : (r.preferenceList key).length ≤ size := (r.length_preferenceList_le key).trans hsize
  have htake : (r.preferenceList key).take (min count size) = (r.preferenceList key).take count := by
    rw [List.take_eq_take_iff]
    omega
  exact ⟨turns, hturns, htake ▸ hwalks⟩

/-- `getNodes` returns the first `count` nodes of the preference list. -/
theorem getNodes_eq (count : Nat) : r.getNodes key count = (r.preferenceList key).take count := by
  unfold getNodes
  split
  · rename_i h
    rcases h with h | rfl
    · unfold preferenceList
      rw [h]
      simp [Ring.distinct, distinctFrom]
    · simp
  · rename_i h
    push Not at h
    obtain ⟨turns, hturns, hwalks⟩ := r.walks_preferenceList key h.1 count le_rfl
    exact hwalks.walkLoop _ hturns

theorem nodup_getNodes (count : Nat) : (r.getNodes key count).Nodup := by
  rw [getNodes_eq]
  exact (nodup_distinct _).sublist (List.take_sublist _ _)

theorem mem_getNodes {id : NodeId} {count : Nat} (h : id ∈ r.getNodes key count) : id ∈ r.nodes := by
  rw [getNodes_eq] at h
  exact r.mem_of_preferenceList (List.mem_of_mem_take h)

theorem length_getNodes_le (count : Nat) : (r.getNodes key count).length ≤ count := by
  rw [getNodes_eq]
  exact List.length_take_le _ _

/-- If every member is on the ring, every preference list goes through all of them. -/
theorem length_getNodes (h : ∀ id ∈ r.nodes, ∃ e ∈ r.ring.entries, e.2 = id) (count : Nat) :
    (r.getNodes key count).length = min count r.nodeCount := by
  have hmem : ∀ id, id ∈ r.preferenceList key ↔ id ∈ r.nodes := by
    intro id
    constructor
    · exact r.mem_of_preferenceList
    · intro hid
      obtain ⟨e, he, rfl⟩ := h id hid
      exact mem_distinct.2 (List.mem_map.2 ⟨e, List.mem_rotate.2 he, rfl⟩)
  have hperm : (r.preferenceList key).Perm r.nodes :=
    (List.perm_ext_iff_of_nodup (nodup_distinct _) r.distinct).2 hmem
  rw [getNodes_eq, List.length_take, hperm.length_eq]
  rfl

/-- The first node of the list is the key's primary. -/
theorem head?_getNodes (h : r.ring.entries ≠ []) {count : Nat} (hc : 0 < count) :
    (r.getNodes key count).head? = some (r.getNode key) := by
  have hs := r.start_lt key h
  obtain ⟨c, rfl⟩ : ∃ c, count = c + 1 := ⟨count - 1, by omega⟩
  have hhead : ((r.preferenceList key).take (c + 1)).head? = (r.preferenceList key).head? := by
    cases r.preferenceList key <;> rfl
  rw [getNodes_eq, hhead, preferenceList, head?_distinct, ← rotate_start, List.head?_map, List.head?_rotate hs]
  unfold getNode
  rw [List.getElem?_eq_getElem hs]
  rfl

end ConsistentHashRing

end KvStore
