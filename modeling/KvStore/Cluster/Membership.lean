/-
Rings as functions of their members. Whatever calls of `addNode` and `removeNode` a ring has gone
through, its positions are those of the present members, as long as no two ids share one; so nodes
that know the same members route every key alike, however they came to know them.
-/
import KvStore.Cluster.ClusterManager

namespace KvStore

open Bytes Ring

/-- A call that changes the members of a ring. -/
inductive RingCall
  | addNode (id : NodeId)
  | removeNode (id : NodeId)
  deriving DecidableEq, Repr

namespace RingCall

/-- The id the call is about. -/
def about : RingCall → NodeId
  | addNode id => id
  | removeNode id => id

def apply (r : ConsistentHashRing) : RingCall → ConsistentHashRing
  | addNode id => r.addNode id
  | removeNode id => r.removeNode id

/-- The ring that the calls make of an empty one. -/
def build (virtualNodes : Nat) (calls : List RingCall) : ConsistentHashRing := calls.foldl apply (.new virtualNodes)

/-- The last call about the id is an `addNode`. -/
def IsMember (calls : List RingCall) (id : NodeId) : Prop :=
  (calls.filter (·.about = id)).getLast? = some (addNode id)

instance (calls : List RingCall) (id : NodeId) : Decidable (IsMember calls id) :=
  inferInstanceAs (Decidable (_ = _))

end RingCall

/-- No two virtual nodes of different ids share a position. -/
def Separated (virtualNodes : Nat) (ids : List NodeId) : Prop :=
  ∀ a ∈ ids, ∀ b ∈ ids, ∀ i < virtualNodes, ∀ j < virtualNodes,
    hash (vnodeKey a i) = hash (vnodeKey b j) → a = b

instance (virtualNodes : Nat) (ids : List NodeId) : Decidable (Separated virtualNodes ids) :=
  inferInstanceAs (Decidable (∀ a ∈ ids, _))

theorem Separated.subset {V : Nat} {ids ids' : List NodeId} (h : Separated V ids) (hsub : ids' ⊆ ids) :
    Separated V ids' :=
  fun a ha b hb => h a (hsub ha) b (hsub hb)

namespace RingCall

variable {V : Nat} {calls : List RingCall} {id : NodeId}

/-! ## The members -/

theorem isMember_add {x : NodeId} : IsMember (calls ++ [addNode x]) id ↔ id = x ∨ IsMember calls id := by
  unfold IsMember
  by_cases h : x = id
  · subst h
    simp [about]
  · simp [about, h, Ne.symm h]

theorem isMember_remove {x : NodeId} : IsMember (calls ++ [removeNode x]) id ↔ id ≠ x ∧ IsMember calls id := by
  unfold IsMember
  by_cases h : x = id
  · subst h
    simp [about]
  · simp [about, h, Ne.symm h]

theorem IsMember.mentioned (h : IsMember calls id) : id ∈ calls.map about := by
  have hmem := List.mem_of_getLast? h
  exact List.mem_map.2 ⟨_, (List.mem_filter.1 hmem).1, rfl⟩

theorem build_snoc (V : Nat) (calls : List RingCall) (c : RingCall) :
    build V (calls ++ [c]) = apply (build V calls) c := by
  unfold build
  rw [List.foldl_append]
  rfl

@[simp] theorem build_virtualNodes (V : Nat) (calls : List RingCall) : (build V calls).virtualNodes = V := by
  induction calls using List.reverseRecOn with
  | nil => rfl
  | append_singleton calls c ih =>
    rw [build_snoc]
    cases c <;> exact ih

theorem mem_nodes_build : id ∈ (build V calls).nodes ↔ IsMember calls id := by
  induction calls using List.reverseRecOn with
  | nil => simp [build, ConsistentHashRing.new, IsMember]
  | append_singleton calls c ih =>
    rw [build_snoc]
    cases c with
    | addNode x =>
      rw [isMember_add, ← ih]
      exact mem_push.trans or_comm
    | removeNode x =>
      rw [isMember_remove, ← ih]
      simp [apply, ConsistentHashRing.removeNode, and_comm]

/-! ## The positions -/

/-- The positions on the ring are those of the members. -/
theorem mem_ring_build {e : Nat × NodeId} (hsep : Separated V (calls.map about)) :
    e ∈ (build V calls).ring.entries ↔
      IsMember calls e.2 ∧ ∃ i < V, (hash (vnodeKey e.2 i)).toNat = e.1 := by
  induction calls using List.reverseRecOn with
  | nil => simp [build, ConsistentHashRing.new, OrderedMap.empty, IsMember]
  | append_singleton calls c ih =>
    have ih := ih (hsep.subset (by simp))
    rw [build_snoc]
    cases c with
    | addNode x =>
      show e ∈ (ConsistentHashRing.addVnodes x _ (build V calls).virtualNodes).entries ↔ _
      rw [build_virtualNodes, ConsistentHashRing.mem_addVnodes_iff, ih, isMember_add]
      constructor
      · rintro (⟨rfl, hpos⟩ | ⟨⟨hmem, hpos⟩, -⟩)
        · exact ⟨Or.inl rfl, hpos⟩
        · exact ⟨Or.inr hmem, hpos⟩
      · rintro ⟨hmem, i, hi, hpos⟩
        by_cases hx : e.2 = x
        · exact Or.inl ⟨hx, i, hi, hx ▸ hpos⟩
        · -- a position of another member is not one of `x`
          have hmem : IsMember calls e.2 := hmem.resolve_left hx
          refine Or.inr ⟨⟨hmem, i, hi, hpos⟩, ?_⟩
          intro j hj hjpos
          have heq : hash (vnodeKey e.2 i) = hash (vnodeKey x j) := UInt64.toNat_inj.1 (hpos.trans hjpos.symm)
          have he : e.2 ∈ (calls ++ [addNode x]).map about := by
            rw [List.map_append, List.mem_append]
            exact Or.inl hmem.mentioned
          exact hx (hsep e.2 he x (by simp [about]) i hi j hj heq)
    | removeNode x =>
      show e ∈ ((build V calls).ring.eraseValue x).entries ↔ _
      rw [OrderedMap.eraseValue, List.mem_filter, ih, isMember_remove, decide_eq_true_iff]
      tauto

/-- With a virtual node each, all members are on the ring. -/
theorem members_on_ring (hV : 1 ≤ V) (hsep : Separated V (calls.map about)) :
    ∀ id ∈ (build V calls).nodes, ∃ e ∈ (build V calls).ring.entries, e.2 = id := by
  intro id hid
  have hmem := mem_nodes_build.1 hid
  exact ⟨((hash (vnodeKey id 0)).toNat, id), (mem_ring_build hsep).2 ⟨hmem, 0, hV, rfl⟩, rfl⟩

end RingCall

/-! ## Routing -/

namespace ConsistentHashRing

variable {r r' : ConsistentHashRing}

theorem getNode_congr (h : r.ring = r'.ring) (key : Key) : r.getNode key = r'.getNode key := by
  unfold getNode start
  rw [h]

/-- The number of nodes, which bounds the loop, does not show in what it returns. -/
theorem getNodes_congr (h : r.ring = r'.ring) (key : Key) (count : Nat) :
    r.getNodes key count = r'.getNodes key count := by
  rw [getNodes_eq, getNodes_eq, preferenceList, preferenceList, h]

theorem getNode_mem (h : r.ring.entries ≠ []) (key : Key) : r.getNode key ∈ r.nodes := by
  have hhead := r.head?_getNodes key h Nat.one_pos
  exact r.mem_getNodes key (List.mem_of_head? hhead)

end ConsistentHashRing

namespace RingCall

variable {V : Nat} {calls calls' : List RingCall}

/-- The ring is a function of the members. -/
theorem build_ring_eq (hsame : ∀ id, IsMember calls id ↔ IsMember calls' id)
    (hsep : Separated V ((calls ++ calls').map about)) : (build V calls).ring = (build V calls').ring := by
  apply OrderedMap.eq_of_mem_iff
  intro e
  rw [mem_ring_build (hsep.subset (by simp)), mem_ring_build (hsep.subset (by simp)), hsame]

theorem isMember_map_add {ids : List NodeId} {id : NodeId} : IsMember (ids.map addNode) id ↔ id ∈ ids := by
  induction ids using List.reverseRecOn with
  | nil => simp [IsMember]
  | append_singleton ids x ih =>
    rw [List.map_append, List.map_cons, List.map_nil, isMember_add, ih, List.mem_append, List.mem_singleton, or_comm]

theorem about_map_add (ids : List NodeId) : (ids.map addNode).map about = ids := by
  rw [List.map_map]
  exact List.map_id ids

end RingCall

theorem ringOf_eq_build (config : List ConfigLine) :
    ringOf config = RingCall.build 150 ((config.map (·.id)).map .addNode) := by
  unfold ringOf RingCall.build
  rw [List.foldl_map, List.foldl_map]
  rfl

/-- Configs that list the same ids give the same ring. -/
theorem ringOf_ring_eq {config config' : List ConfigLine} {ids : List NodeId} (hsep : Separated 150 ids)
    (h : ∀ id, id ∈ config.map (·.id) ↔ id ∈ ids) (h' : ∀ id, id ∈ config'.map (·.id) ↔ id ∈ ids) :
    (ringOf config).ring = (ringOf config').ring := by
  rw [ringOf_eq_build, ringOf_eq_build]
  apply RingCall.build_ring_eq
  · intro id
    rw [RingCall.isMember_map_add, RingCall.isMember_map_add, h, h']
  · rw [List.map_append, RingCall.about_map_add, RingCall.about_map_add]
    refine hsep.subset ?_
    intro id hid
    rcases List.mem_append.1 hid with hid | hid
    · exact (h id).1 hid
    · exact (h' id).1 hid

/-- Among the nodes that a config lists, exactly one calls a key local. -/
theorem exists_unique_local {members : List NodeId} {config : NodeId → List ConfigLine} (hne : members ≠ [])
    (hlists : ∀ x ∈ members, ∀ id, id ∈ (config x).map (·.id) ↔ id ∈ members) (hsep : Separated 150 members)
    (key : Key) :
    ∃! x, x ∈ members ∧ (ClusterManager.loadConfig x (config x)).initializeRing.isLocalKey key := by
  obtain ⟨first, hfirst⟩ := List.exists_mem_of_ne_nil members hne
  have hlocal : ∀ x ∈ members, ((ClusterManager.loadConfig x (config x)).initializeRing.isLocalKey key ↔
      (ringOf (config first)).getNode key = x) := by
    intro x hx
    have hring : (ringOf (config x)).ring = (ringOf (config first)).ring :=
      ringOf_ring_eq hsep (hlists x hx) (hlists first hfirst)
    rw [ClusterManager.isLocalKey, ClusterManager.initializeRing_ring, decide_eq_true_iff,
      ConsistentHashRing.getNode_congr hring]
    show _ = (ClusterManager.loadConfig x (config x)).selfId ↔ _
    rw [(ClusterManager.loadConfig_ids x (config x)).1]
  have hconfig : config first ≠ [] := by
    intro hnil
    have := (hlists first hfirst first).2 hfirst
    rw [hnil] at this
    cases this
  have howner : (ringOf (config first)).getNode key ∈ members :=
    (hlists first hfirst _).1 (mem_ringOf_nodes (ConsistentHashRing.getNode_mem (ringOf_ne_nil hconfig) key))
  refine ⟨_, ⟨howner, (hlocal _ howner).2 rfl⟩, ?_⟩
  rintro x ⟨hx, hxlocal⟩
  exact ((hlocal x hx).1 hxlocal).symm

/-- All nodes agree on routing. Two rings that end with the same members are equal as maps and route
every key alike; a list of `count` nodes has that many different members, or all of them; and among
cluster managers whose configs list the same nodes exactly one calls a key local. -/
theorem routing_agrees {V : Nat} {calls calls' : List RingCall} (hV : 1 ≤ V)
    (hsame : ∀ id, RingCall.IsMember calls id ↔ RingCall.IsMember calls' id)
    (hsep : Separated V ((calls ++ calls').map RingCall.about)) :
    let r := RingCall.build V calls
    let r' := RingCall.build V calls'
    r.ring = r'.ring ∧
      (∀ key, r.getNode key = r'.getNode key) ∧
      (∀ key count, r.getNodes key count = r'.getNodes key count) ∧
      (∀ key count, (r.getNodes key count).length = min count r.nodeCount ∧ (r.getNodes key count).Nodup) ∧
      (∀ id, id ∈ r.nodes ↔ RingCall.IsMember calls id) ∧
      ∀ (members : List NodeId) (config : NodeId → List ConfigLine), members ≠ [] →
        (∀ x ∈ members, ∀ id, id ∈ (config x).map (·.id) ↔ id ∈ members) → Separated 150 members →
        ∀ key, ∃! x, x ∈ members ∧ (ClusterManager.loadConfig x (config x)).initializeRing.isLocalKey key := by
  intro r r'
  have hring : r.ring = r'.ring := RingCall.build_ring_eq hsame hsep
  have honring := RingCall.members_on_ring hV (hsep.subset (by simp) : Separated V (calls.map RingCall.about))
  refine ⟨hring, ?_, ?_, ?_, ?_, ?_⟩
  · exact fun key => ConsistentHashRing.getNode_congr hring key
  · exact fun key count => ConsistentHashRing.getNodes_congr hring key count
  · exact fun key count => ⟨r.length_getNodes key honring count, r.nodup_getNodes key count⟩
  · exact fun id => RingCall.mem_nodes_build
  · exact fun members config hne hlists hsep key => exists_unique_local hne hlists hsep key

/-- The 300 positions of two nodes `a` and `b`. -/
theorem separated_pair : Separated 150 [[97], [98]] := by
  let positions (id : NodeId) : List Nat := (List.range 150).map fun i => (hash (vnodeKey id i)).toNat
  have hall : (positions [97]).all (fun p => (positions [98]).all fun q => p != q) = true := by decide +kernel
  have hapart : ∀ i < 150, ∀ j < 150, hash (vnodeKey [97] i) ≠ hash (vnodeKey [98] j) := by
    intro i hi j hj heq
    have hp := List.all_eq_true.1 hall _ (List.mem_map_of_mem (List.mem_range.2 hi))
    have hq := List.all_eq_true.1 hp _ (List.mem_map_of_mem (List.mem_range.2 hj))
    rw [heq] at hq
    simp at hq
  intro x hx y hy i hi j hj heq
  simp only [List.mem_cons, List.not_mem_nil, or_false] at hx hy
  rcases hx with rfl | rfl <;> rcases hy with rfl | rfl
  · rfl
  · exact absurd heq (hapart i hi j hj)
  · exact absurd heq.symm (hapart j hj i hi)
  · rfl

/-- One ring has taken a member out and back in; two managers have the lines in different orders. -/
theorem routing_agrees_readded :
    let a : NodeId := [97]
    let b : NodeId := [98]
    let r := RingCall.build 2 [.addNode a, .addNode b, .removeNode a, .addNode a]
    let r' := RingCall.build 2 [.addNode b, .addNode a]
    let config (x : NodeId) : List ConfigLine :=
      if x = a then [⟨a, [], 0⟩, ⟨b, [], 1⟩] else [⟨b, [], 1⟩, ⟨a, [], 0⟩]
    Separated 2 [a, b, a, a, b, a] ∧ r.ring = r'.ring ∧ (∀ key, (r.getNodes key 3).length = 2) ∧
      ∀ key, ∃! x, x ∈ [a, b] ∧ (ClusterManager.loadConfig x (config x)).initializeRing.isLocalKey key := by
  intro a b r r' config
  have hsep : Separated 2 [a, b, a, a, b, a] := by decide +kernel
  have hsame : ∀ id, RingCall.IsMember [.addNode a, .addNode b, .removeNode a, .addNode a] id ↔
      RingCall.IsMember [.addNode b, .addNode a] id := by
    intro id
    by_cases ha : a = id <;> by_cases hb : b = id <;> simp [RingCall.IsMember, RingCall.about, ha, hb]
  obtain ⟨hring, -, -, hlen, -, hlocal⟩ := routing_agrees (by decide) hsame hsep
  have hcount : r.nodeCount = 2 := by decide +kernel
  refine ⟨hsep, hring, ?_, ?_⟩
  · intro key
    rw [(hlen key 3).1, hcount]
    rfl
  · have hlists : ∀ x ∈ [a, b], ∀ id, id ∈ (config x).map (·.id) ↔ id ∈ [a, b] := by
      intro x _ id
      by_cases hx : x = a
      · simp [config, hx]
      · simp [config, hx, or_comm]
    exact hlocal [a, b] config (by decide) hlists separated_pair

end KvStore
