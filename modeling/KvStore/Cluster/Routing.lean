/-
Routing as nodes join and leave. The walk of `getNodes` ends with the first nodes of the key's
preference list; taking a node off the ring deletes it from every preference list and moves nothing
else; and putting one on moves keys to that node only, namely those one of its positions comes first
for.
-/
import KvStore.Cluster.Membership

namespace KvStore

open Bytes Ring

namespace ConsistentHashRing

variable (r : ConsistentHashRing) (key : Key)

/-! ## The owner of a key -/

theorem preferenceList_eq :
    r.preferenceList key = Ring.distinct ((r.ring.clockwise (hash key).toNat).map Prod.snd) := by
  unfold preferenceList
  rw [OrderedMap.rotate_lowerBound]

/-- The position that decides the owner of a key is the first one clockwise from its hash. -/
theorem getElem?_start : r.ring.entries[r.start key]? = (r.ring.clockwise (hash key).toNat).head? := by
  by_cases h : r.ring.entries = []
  · simp [OrderedMap.clockwise, h]
  · rw [← OrderedMap.rotate_lowerBound, ← rotate_start, List.head?_rotate (r.start_lt key h)]

/-- On a ring that is not empty some position decides the owner. -/
theorem exists_deciding (h : r.ring.entries ≠ []) : ∃ e, r.ring.entries[r.start key]? = some e ∧
    (r.ring.clockwise (hash key).toNat).head? = some e ∧ r.getNode key = e.2 := by
  have hat := List.getElem?_eq_getElem (r.start_lt key h)
  refine ⟨_, hat, (r.getElem?_start key).symm.trans hat, ?_⟩
  unfold getNode
  rw [hat]

theorem getNode_eq : r.getNode key = (r.preferenceList key).head?.getD [] := by
  unfold getNode
  rw [getElem?_start, preferenceList_eq, head?_distinct, List.head?_map]
  cases (r.ring.clockwise (hash key).toNat).head? <;> rfl

theorem preferenceList_eq_getNodes : r.preferenceList key = r.getNodes key r.nodeCount := by
  rw [getNodes_eq, List.take_of_length_le (r.length_preferenceList_le key)]

end ConsistentHashRing

/-! ## The preference list -/

/-- `getNodes` is the clockwise preference list. Its loop ends, under the bound by the number of
nodes or under any larger one, with the first `count` nodes met on one walk around the ring; they
are different members, begin with the key's owner, and a smaller count gives a prefix. -/
theorem getNodes_clockwise (V : Nat) (calls : List RingCall) (key : Key) (count : Nat) :
    let r := RingCall.build V calls
    let walk := Ring.distinct ((r.ring.clockwise (hash key).toNat).map Prod.snd)
    r.getNodes key count = walk.take count ∧
      (r.ring.entries ≠ [] → ∀ size, r.nodeCount ≤ size → ∃ turns,
        ConsistentHashRing.Walks r.ring.entries (r.start key) count size turns (r.start key) []
          (r.getNodes key count)) ∧
      (r.getNodes key count).Nodup ∧
      (∀ id ∈ r.getNodes key count, RingCall.IsMember calls id) ∧
      (1 ≤ count → r.ring.entries ≠ [] → (r.getNodes key count).head? = some (r.getNode key)) ∧
      ∀ fewer ≤ count, r.getNodes key fewer <+: r.getNodes key count := by
  intro r walk
  have hlist : r.getNodes key count = walk.take count := by
    rw [ConsistentHashRing.getNodes_eq, ConsistentHashRing.preferenceList_eq]
  refine ⟨hlist, ?_, r.nodup_getNodes key count, ?_, ?_, ?_⟩
  · intro hne size hsize
    obtain ⟨turns, -, hwalks⟩ := r.walks_preferenceList key hne count hsize
    rw [← ConsistentHashRing.getNodes_eq] at hwalks
    exact ⟨turns, hwalks⟩
  · intro id hid
    exact RingCall.mem_nodes_build.1 (r.mem_getNodes key hid)
  · intro hcount hne
    exact r.head?_getNodes key hne hcount
  · intro fewer hfewer
    rw [ConsistentHashRing.getNodes_eq, ConsistentHashRing.getNodes_eq]
    exact List.take_prefix_take_left hfewer

/-! ## Leaving -/

namespace ConsistentHashRing

variable (r : ConsistentHashRing) (key : Key)

/-- Taking a node off the ring deletes it from the preference list. -/
theorem preferenceList_removeNode (x : NodeId) :
    (r.removeNode x).preferenceList key = (r.preferenceList key).filter (· ≠ x) := by
  rw [preferenceList_eq, preferenceList_eq, ← distinct_filter, List.filter_map]
  show Ring.distinct (((r.ring.eraseValue x).clockwise _).map _) = _
  rw [OrderedMap.clockwise_eraseValue]
  rfl

/-- Off the ring, a node's keys go to the first other node clockwise. -/
theorem getNode_removeNode (x : NodeId) : (r.removeNode x).getNode key =
    (((r.ring.clockwise (hash key).toNat).map Prod.snd).find? (· ≠ x)).getD [] := by
  rw [getNode_eq, preferenceList_eq, head?_distinct]
  show ((((r.ring.eraseValue x).clockwise _).map _).head?).getD [] = _
  rw [OrderedMap.clockwise_eraseValue, ← List.head?_filter, List.filter_map]
  rfl

end ConsistentHashRing

/-- Removing a node disturbs only what it owned: every list loses that node and nothing else, so a
key of another node stays where it is, and a key of the node goes to the next different one
clockwise (to the empty id if there is none). -/
theorem getNodes_after_removeNode (V : Nat) (calls : List RingCall) (x : NodeId) (key : Key) (count : Nat) :
    let r := RingCall.build V calls
    let r' := r.removeNode x
    r'.getNodes key count = ((r.getNodes key r.nodeCount).filter (· ≠ x)).take count ∧
      (r.getNode key ≠ x → r'.getNode key = r.getNode key) ∧
      (r.getNode key = x →
        r'.getNode key = (((r.ring.clockwise (hash key).toNat).map Prod.snd).find? (· ≠ x)).getD []) := by
  intro r r'
  refine ⟨?_, ?_, ?_⟩
  · rw [ConsistentHashRing.getNodes_eq, r.preferenceList_removeNode, r.preferenceList_eq_getNodes]
  · intro howner
    rw [ConsistentHashRing.getNode_eq] at howner ⊢
    rw [ConsistentHashRing.getNode_eq, r.preferenceList_removeNode]
    rcases hlist : r.preferenceList key with _ | ⟨first, rest⟩
    · rfl
    · rw [hlist] at howner
      rw [List.filter_cons_of_pos (by simpa using howner)]
      rfl
  · intro _
    exact r.getNode_removeNode key x

/-! ## Joining -/

/-- How far `p` is from `h`, going clockwise around the `2 ^ 64` hashes. -/
def clockwiseDistance (h p : UInt64) : UInt64 := p - h

theorem noLater_iff_clockwiseDistance (h p q : UInt64) :
    OrderedMap.NoLater h.toNat p.toNat q.toNat ↔ clockwiseDistance h p ≤ clockwiseDistance h q := by
  have hh := h.toNat_lt
  have hp := p.toNat_lt
  have hq := q.toNat_lt
  unfold OrderedMap.NoLater clockwiseDistance
  rw [UInt64.le_iff_toNat_le, UInt64.toNat_sub, UInt64.toNat_sub]
  split <;> omega

namespace ConsistentHashRing

variable {r : ConsistentHashRing} {key : Key} {x : NodeId} {e e' : Nat × NodeId}

theorem addNode_ne_nil (h : r.ring.entries ≠ []) : (r.addNode x).ring.entries ≠ [] := by
  by_cases hV : 0 < r.virtualNodes
  · exact addVnodes_ne_nil x r.ring hV
  · -- without virtual nodes the ring stays as it is
    show (addVnodes x r.ring r.virtualNodes).entries ≠ []
    rw [Nat.eq_zero_of_not_pos hV]
    exact h

/-- The owner stays if every position of the new node comes later. -/
theorem start_addNode_of_later (he : (r.ring.clockwise (hash key).toNat).head? = some e)
    (he' : ((r.addNode x).ring.clockwise (hash key).toNat).head? = some e')
    (hlater : ∀ i < r.virtualNodes, ¬ OrderedMap.NoLater (hash key).toNat (hash (vnodeKey x i)).toNat e.1) :
    e' = e := by
  have hmem := OrderedMap.mem_clockwise.1 (List.mem_of_head? he)
  have hmem' := OrderedMap.mem_clockwise.1 (List.mem_of_head? he')
  -- no position of `x` takes the place of the old one
  have hkept : e ∈ (r.addNode x).ring.entries := by
    refine mem_addVnodes_iff.2 (Or.inr ⟨hmem, ?_⟩)
    intro i hi hpos
    exact hlater i hi (hpos ▸ OrderedMap.noLater_of_head he hmem)
  have hle : OrderedMap.NoLater (hash key).toNat e'.1 e.1 := OrderedMap.noLater_of_head he' hkept
  rcases mem_addVnodes_iff.1 hmem' with ⟨-, i, hi, hpos⟩ | ⟨hold, -⟩
  · exact absurd (hpos ▸ hle) (hlater i hi)
  · exact OrderedMap.eq_of_key_eq hold hmem (hle.antisymm (OrderedMap.noLater_of_head he hold))

/-- The new node becomes the owner if one of its positions does not come later. -/
theorem owner_addNode_of_noLater (he : (r.ring.clockwise (hash key).toNat).head? = some e)
    (he' : ((r.addNode x).ring.clockwise (hash key).toNat).head? = some e') {i : Nat} (hi : i < r.virtualNodes)
    (h : OrderedMap.NoLater (hash key).toNat (hash (vnodeKey x i)).toNat e.1) : e'.2 = x := by
  have hmem' := OrderedMap.mem_clockwise.1 (List.mem_of_head? he')
  have hnew : ((hash (vnodeKey x i)).toNat, x) ∈ (r.addNode x).ring.entries :=
    mem_addVnodes_iff.2 (Or.inl ⟨rfl, i, hi, rfl⟩)
  have hle := OrderedMap.noLater_of_head he' hnew
  rcases mem_addVnodes_iff.1 hmem' with ⟨howner, -⟩ | ⟨hold, hkept⟩
  · exact howner
  · -- an old position could only come first by being the position of `x`, which replaced it
    have hfirst := OrderedMap.noLater_of_head he hold
    exact absurd ((h.trans hfirst).antisymm hle) (hkept i hi)

end ConsistentHashRing

/-- The positions on a ring are hashes. -/
theorem RingCall.ring_position_lt {V : Nat} {calls : List RingCall} :
    ∀ e ∈ (RingCall.build V calls).ring.entries, e.1 < 2 ^ 64 := by
  induction calls using List.reverseRecOn with
  | nil =>
    intro e he
    cases he
  | append_singleton calls c ih =>
    rw [RingCall.build_snoc]
    intro e he
    cases c with
    | addNode x =>
      rcases ConsistentHashRing.mem_addVnodes_iff.1 he with ⟨-, i, -, hpos⟩ | ⟨hold, -⟩
      · rw [← hpos]
        exact UInt64.toNat_lt _
      · exact ih e hold
    | removeNode x => exact ih e (List.mem_filter.1 he).1

/-- Adding a node moves keys only to it. The owner of a key stays or becomes the new node; and it is
the new node exactly if it was before, or one of the node's positions is no further from the key,
clockwise, than the position `p` that decided the former owner. -/
theorem getNode_after_addNode (V : Nat) (calls : List RingCall) (x : NodeId) (key : Key)
    (hne : (RingCall.build V calls).ring.entries ≠ []) :
    let r := RingCall.build V calls
    let r' := r.addNode x
    (r'.getNode key = r.getNode key ∨ r'.getNode key = x) ∧
      ∃ p : UInt64, r.ring.entries[r.start key]? = some (p.toNat, r.getNode key) ∧
        (r'.getNode key = x ↔ r.getNode key = x ∨
          ∃ i < V, clockwiseDistance (hash key) (hash (vnodeKey x i)) ≤ clockwiseDistance (hash key) p) := by
  intro r r'
  have hV : r.virtualNodes = V := RingCall.build_virtualNodes V calls
  obtain ⟨e, hat, hhead, howner⟩ := r.exists_deciding key hne
  obtain ⟨e', -, hhead', howner'⟩ := r'.exists_deciding key (ConsistentHashRing.addNode_ne_nil hne)
  have hlt : e.1 < 2 ^ 64 := RingCall.ring_position_lt e (List.mem_of_getElem? hat)
  have hp : (UInt64.ofNat e.1).toNat = e.1 := UInt64.toNat_ofNat_of_lt' hlt
  by_cases hfirst : ∃ i < V, clockwiseDistance (hash key) (hash (vnodeKey x i)) ≤
      clockwiseDistance (hash key) (UInt64.ofNat e.1)
  · have hx : r'.getNode key = x := by
      obtain ⟨i, hi, hle⟩ := hfirst
      rw [← noLater_iff_clockwiseDistance, hp] at hle
      rw [howner']
      exact ConsistentHashRing.owner_addNode_of_noLater hhead hhead' (hV.symm ▸ hi) hle
    refine ⟨Or.inr hx, UInt64.ofNat e.1, ?_, ?_⟩
    · rw [hat, hp, howner]
    · exact ⟨fun _ => Or.inr hfirst, fun _ => hx⟩
  · have hsame : r'.getNode key = r.getNode key := by
      have heq : e' = e := by
        refine ConsistentHashRing.start_addNode_of_later hhead hhead' ?_
        intro i hi hle
        rw [← hp, noLater_iff_clockwiseDistance] at hle
        exact hfirst ⟨i, hV ▸ hi, hle⟩
      rw [howner', howner, heq]
    refine ⟨Or.inl hsame, UInt64.ofNat e.1, ?_, ?_⟩
    · rw [hat, hp, howner]
    · rw [hsame]
      exact ⟨Or.inl, fun h => h.resolve_right hfirst⟩

theorem getNode_after_addNode_second :
    let a : NodeId := [97]
    let b : NodeId := [98]
    let r := RingCall.build 2 [.addNode a]
    r.ring.entries ≠ [] ∧ ∀ key, (r.addNode b).getNode key = a ∨ (r.addNode b).getNode key = b := by
  intro a b r
  have hne : r.ring.entries ≠ [] := ConsistentHashRing.addVnodes_ne_nil a _ (by decide)
  refine ⟨hne, ?_⟩
  intro key
  have hmem := ConsistentHashRing.getNode_mem hne key
  have ha : r.getNode key = a := List.mem_singleton.1 hmem
  rw [← ha]
  exact (getNode_after_addNode 2 [.addNode a] b key hne).1

end KvStore
