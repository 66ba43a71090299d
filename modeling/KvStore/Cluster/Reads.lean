/-
Reads in a healthy cluster. The primary answers from its own store; every other node asks the
primary, then the second replica, which itself asks the primary and looks into its own store. A
third replica is reached only when neither of the two holds the key, and then the second and the
third ask each other without end: `get_iff` says exactly when a GET finishes with the right answer.
-/
import KvStore.Cluster.Healthy

namespace KvStore

open Bytes Program Protocol

/-- The node holds the key. -/
def Holds (s : NetState) (id : NodeId) (key : Key) : Prop := ∃ v, (s.nodes id).store.data.lookup key = some v

theorem lookup_none_of_lacks {s : NetState} {id : NodeId} {key : Key} (h : ¬ Holds s id key) :
    (s.nodes id).store.data.lookup key = none := by
  rw [Option.eq_none_iff_forall_ne_some]
  exact fun v hv => h ⟨v, hv⟩

/-- Every value stored under the key fits a response frame. -/
def Answerable (s : NetState) (key : Key) : Prop :=
  ∀ id v, (s.nodes id).store.data.lookup key = some v → 5 + v.length < 2 ^ 32

theorem holds_congr {s s' : NetState} (h : s'.nodes = s.nodes) (id : NodeId) (key : Key) :
    Holds s' id key ↔ Holds s id key := by
  unfold Holds
  rw [h]

theorem Answerable.congr {s s' : NetState} {key : Key} (ha : Answerable s key) (h : s'.nodes = s.nodes) :
    Answerable s' key := by
  unfold Answerable
  rw [h]
  exact ha

/-- The answer of the first of some nodes that holds the key. -/
def firstHolder (s : NetState) (key : Key) : List NodeId → Response
  | [] => ⟨.notFound, []⟩
  | id :: ids =>
    match (s.nodes id).store.data.lookup key with
    | some v => ⟨.ok, v⟩
    | none => firstHolder s key ids

theorem firstHolder_congr {s s' : NetState} (h : s'.nodes = s.nodes) (key : Key) :
    ∀ ids : List NodeId, firstHolder s' key ids = firstHolder s key ids
  | [] => rfl
  | id :: ids => by
    unfold firstHolder
    rw [h, firstHolder_congr h key ids]

theorem firstHolder_cons_some {s : NetState} {id : NodeId} {key : Key} {v : Value}
    (h : (s.nodes id).store.data.lookup key = some v) (ids : List NodeId) :
    firstHolder s key (id :: ids) = ⟨.ok, v⟩ := by
  rw [firstHolder, h]

theorem firstHolder_cons_none {s : NetState} {id : NodeId} {key : Key} (h : (s.nodes id).store.data.lookup key = none)
    (ids : List NodeId) : firstHolder s key (id :: ids) = firstHolder s key ids := by
  rw [firstHolder, h]

theorem firstHolder_singleton (s : NetState) (id : NodeId) (key : Key) :
    firstHolder s key [id] = (s.nodes id).store.get key := by
  cases h : (s.nodes id).store.data.lookup key with
  | some v => rw [firstHolder_cons_some h, KVStore.get_some h]
  | none =>
    rw [firstHolder_cons_none h, KVStore.get_none h]
    rfl

theorem firstHolder_of_lacks {s : NetState} {key : Key} : ∀ {ids : List NodeId}, (∀ id ∈ ids, ¬ Holds s id key) →
    firstHolder s key ids = ⟨.notFound, []⟩
  | [], _ => rfl
  | id :: ids, h => by
    rw [firstHolder_cons_none (lookup_none_of_lacks (h id List.mem_cons_self))]
    exact firstHolder_of_lacks fun i hi => h i (List.mem_cons_of_mem _ hi)

namespace Network

open ReplicationManager

variable {net : Network} {self : NodeId} {s : NetState} {key : Key}

/-- A node of the network whose own answer to a GET is what its store holds. -/
def AnswersFromStore (net : Network) (id : NodeId) (key : Key) (s : NetState) : Prop :=
  net.Answers id ⟨.get, key, []⟩ s fun resp s' => resp = (s.nodes id).store.get key ∧ s'.nodes = s.nodes

theorem answersFromStore_primary (s : NetState) : net.AnswersFromStore (net.cluster.primary key) key s :=
  answers_get_primary ⟨.get, key, []⟩ rfl s

theorem fits_get (ha : Answerable s key) (id : NodeId) : 5 + ((s.nodes id).store.get key).value.length < 2 ^ 32 := by
  cases hl : (s.nodes id).store.data.lookup key with
  | none =>
    rw [KVStore.get_none hl]
    norm_num
  | some v =>
    rw [KVStore.get_some hl]
    exact ha id v hl

theorem finishes_askReplica (hself : self ∈ net.cluster.ids) (hkey : (Request.mk .get key []).FitsFrame)
    (ha : Answerable s key) {node : NodeInfo} (h : node.id ≠ self → net.AnswersFromStore node.id key s) :
    Finishes (net.chain self) ((net.cluster.replication self).askReplica key node) s
      fun resp s' => resp = (s.nodes node.id).store.get key ∧ s'.nodes = s.nodes := by
  unfold askReplica
  rw [Cluster.replication_selfNode hself]
  split
  · rename_i heq
    exact finishes_localGet _ ⟨by rw [heq], rfl⟩
  · rename_i hne
    refine finishes_forward hkey ((h hne).conseq ?_)
    rintro resp s' ⟨rfl, hs'⟩
    exact ⟨fits_get ha _, rfl, hs'⟩

/-- The loop stops at the first node that holds the key, and goes no further than it has to. -/
theorem finishes_tryReplicas (post : List NodeInfo) : ∀ (pre : List NodeInfo) (s : NetState),
    (∀ node ∈ pre, ∀ s', s'.nodes = s.nodes → Finishes (net.chain self)
      ((net.cluster.replication self).askReplica key node) s'
      fun resp s'' => resp = (s'.nodes node.id).store.get key ∧ s''.nodes = s'.nodes) →
    (post = [] ∨ ∃ node ∈ pre, Holds s node.id key) →
    Finishes (net.chain self) ((net.cluster.replication self).tryReplicas key (pre ++ post)) s
      fun resp s' => resp = firstHolder s key (pre.map (·.id)) ∧ s'.nodes = s.nodes
  | [], s, _, hend => by
    have hpost : post = [] := by
      rcases hend with h | ⟨_, h, _⟩
      · exact h
      · cases h
    subst hpost
    exact .ret ⟨rfl, rfl⟩
  | node :: pre, s, hask, hend => by
    refine (hask node List.mem_cons_self s rfl).bind ?_
    rintro resp s₁ ⟨rfl, hs₁⟩
    rw [List.map_cons]
    cases hl : (s.nodes node.id).store.data.lookup key with
    | some v =>
      rw [KVStore.get_some hl, firstHolder_cons_some hl]
      exact .ret ⟨rfl, hs₁⟩
    | none =>
      rw [KVStore.get_none hl, firstHolder_cons_none hl]
      -- this node lacks the key, so the holder is among the rest
      have hend₁ : post = [] ∨ ∃ n ∈ pre, Holds s₁ n.id key := by
        rcases hend with h | ⟨n, hn, v, hv⟩
        · exact Or.inl h
        · rcases List.mem_cons.1 hn with rfl | hn
          · rw [hl] at hv
            cases hv
          · exact Or.inr ⟨n, hn, (holds_congr hs₁ _ _).2 ⟨v, hv⟩⟩
      have ih := finishes_tryReplicas post pre s₁
        (fun n hn s' hs' => hask n (List.mem_cons_of_mem _ hn) s' (hs'.trans hs₁)) hend₁
      refine ih.conseq ?_
      rintro resp s₂ ⟨rfl, hs₂⟩
      exact ⟨firstHolder_congr hs₁ key _, hs₂.trans hs₁⟩

/-! ## A node other than the primary -/

section Other

variable (hh : net.Healthy) (hkey : (Request.mk .get key []).FitsFrame)
include hh hkey

/-- A node goes through the first `j` replicas, if each of the others among them answers from its
store and the list ends there or one of them holds the key. -/
theorem answers_get_take (hself : self ∈ net.cluster.ids) (hne : self ≠ net.cluster.primary key)
    (ha : Answerable s key) {j : Nat}
    (hans : ∀ id ∈ (net.cluster.replicas key).take j, id ≠ self → ∀ s', s'.nodes = s.nodes →
      net.AnswersFromStore id key s')
    (hend : (net.cluster.replicas key).drop j = [] ∨ ∃ id ∈ (net.cluster.replicas key).take j, Holds s id key)
    (value : Value) : net.Answers self ⟨.get, key, value⟩ s fun resp s' =>
      resp = firstHolder s key ((net.cluster.replicas key).take j) ∧ s'.nodes = s.nodes := by
  unfold Answers
  rw [clusterHandler_get rfl, handleGet_other hne]
  refine (finishes_getReplicaNodes hh key).bind ?_
  rintro nodes s₁ ⟨hids, hs₁⟩
  have htake : (nodes.take j).map (·.id) = (net.cluster.replicas key).take j := by rw [List.map_take, hids]
  have hdrop : (nodes.drop j).map (·.id) = (net.cluster.replicas key).drop j := by rw [List.map_drop, hids]
  -- the loop over all nodes, cut behind the first `j`
  have hloop : Finishes (net.chain self)
      ((net.cluster.replication self).tryReplicas key (nodes.take j ++ nodes.drop j)) s₁ _ :=
    finishes_tryReplicas (nodes.drop j) (nodes.take j) s₁ ?_ ?_
  · rw [List.take_append_drop] at hloop
    refine hloop.conseq ?_
    rintro resp s₂ ⟨rfl, hs₂⟩
    exact ⟨by rw [htake, firstHolder_congr hs₁], hs₂.trans hs₁⟩
  · intro node hnode s' hs'
    have hmem : node.id ∈ (net.cluster.replicas key).take j := htake ▸ List.mem_map.2 ⟨node, hnode, rfl⟩
    have hs' := hs'.trans hs₁
    exact finishes_askReplica hself hkey (ha.congr hs') fun hn => hans _ hmem hn s' hs'
  · rcases hend with hnil | ⟨id, hid, v, hv⟩
    · left
      rw [hnil] at hdrop
      exact List.map_eq_nil_iff.1 hdrop
    · right
      rw [← htake] at hid
      obtain ⟨node, hnode, rfl⟩ := List.mem_map.1 hid
      exact ⟨node, hnode, (holds_congr hs₁ _ _).2 ⟨v, hv⟩⟩

/-- The second replica answers from its store, if the primary does not hold the key and it holds
it itself or is the last one. -/
theorem answersFromStore_second {p r : NodeId} {rest : List NodeId}
    (hreps : net.cluster.replicas key = p :: r :: rest) (hp : p = net.cluster.primary key) (ha : Answerable s key)
    (hlacks : ¬ Holds s p key) (hend : rest = [] ∨ Holds s r key) : net.AnswersFromStore r key s := by
  have hnd := net.cluster.nodup_replicas key
  have hr : r ∈ net.cluster.ids := Cluster.mem_ids_of_replicas (show r ∈ net.cluster.replicas key by rw [hreps]; simp)
  have hne : r ≠ p := by
    rintro rfl
    rw [hreps] at hnd
    simp at hnd
  have htake : (net.cluster.replicas key).take 2 = [p, r] := by rw [hreps]; rfl
  have hmain := answers_get_take (s := s) hh hkey hr (hp ▸ hne) ha (j := 2) ?_ ?_ []
  · refine hmain.conseq ?_
    rintro resp s' ⟨rfl, hs'⟩
    refine ⟨?_, hs'⟩
    rw [htake, firstHolder_cons_none (lookup_none_of_lacks hlacks), firstHolder_singleton]
  · intro id hid hids s' hs'
    rw [htake] at hid
    rcases List.mem_cons.1 hid with rfl | hid
    · rw [hp]
      exact answersFromStore_primary s'
    · exact absurd (List.mem_singleton.1 hid) hids
  · rcases hend with rfl | hr
    · left
      rw [hreps]
      rfl
    · right
      exact ⟨r, by rw [htake]; simp, hr⟩

/-- Any other node gives the answer of the first of the first two replicas that holds the key, if
there is no third one or one of the two does. -/
theorem answers_get_other (hrf : 0 < net.cluster.replicationFactor) (hself : self ∈ net.cluster.ids)
    (hne : self ≠ net.cluster.primary key) (ha : Answerable s key)
    (hend : (net.cluster.replicas key).length ≤ 2 ∨ ∃ id ∈ (net.cluster.replicas key).take 2, Holds s id key)
    (value : Value) : net.Answers self ⟨.get, key, value⟩ s fun resp s' =>
      resp = firstHolder s key ((net.cluster.replicas key).take 2) ∧ s'.nodes = s.nodes := by
  obtain ⟨others, hreps⟩ := Cluster.replicas_eq_cons hrf key
  by_cases hp : Holds s (net.cluster.primary key) key
  · -- the primary holds the key: one step of the loop
    have hmain := answers_get_take (s := s) hh hkey hself hne ha (j := 1) ?_ ?_ value
    · refine hmain.conseq ?_
      rintro resp s' ⟨rfl, hs'⟩
      refine ⟨?_, hs'⟩
      obtain ⟨v, hv⟩ := hp
      rw [hreps, List.take_succ_cons, List.take_succ_cons, firstHolder_cons_some hv, firstHolder_cons_some hv]
    · intro id hid _ s' _
      rw [hreps, List.take_succ_cons, List.take_zero, List.mem_singleton] at hid
      rw [hid]
      exact answersFromStore_primary s'
    · right
      exact ⟨_, by rw [hreps]; simp, hp⟩
  · cases others with
    | nil =>
      -- the primary is the only replica
      refine answers_get_take hh hkey hself hne ha ?_ (Or.inl (by rw [hreps]; rfl)) value
      intro id hid _ s' _
      rw [hreps, List.take_succ_cons, List.take_nil, List.mem_singleton] at hid
      rw [hid]
      exact answersFromStore_primary s'
    | cons r rest =>
      -- the second replica settles it, as the holder or as the last one
      have hrest : rest = [] ∨ Holds s r key := by
        rcases hend with hlen | ⟨id, hid, hholds⟩
        · left
          rw [hreps] at hlen
          simpa using hlen
        · right
          rw [hreps] at hid
          simp only [List.take_succ_cons, List.take_zero, List.mem_cons, List.not_mem_nil, or_false] at hid
          rcases hid with rfl | rfl
          · exact absurd hholds hp
          · exact hholds
      refine answers_get_take hh hkey hself hne ha ?_ ?_ value
      · intro id hid _ s' hs'
        rw [hreps] at hid
        simp only [List.take_succ_cons, List.take_zero, List.mem_cons, List.not_mem_nil, or_false] at hid
        rcases hid with rfl | rfl
        · exact answersFromStore_primary s'
        · refine answersFromStore_second hh hkey hreps rfl (ha.congr hs') ?_ ?_
          · rw [holds_congr hs']
            exact hp
          · rw [holds_congr hs']
            exact hrest
      · rcases hrest with rfl | hr
        · left
          rw [hreps]
          rfl
        · right
          exact ⟨r, by rw [hreps]; simp, hr⟩

end Other

/-! ## Three replicas and no holder -/

theorem status_get_of_lacks {id : NodeId} (h : ¬ Holds s id key) : ((s.nodes id).store.get key).status ≠ .ok := by
  rw [KVStore.get_none (lookup_none_of_lacks h)]
  simp

/-- The loop passes a replica that lacks the key. -/
theorem stuckAt_tryReplicas_skip {node : NodeInfo} {nodes : List NodeInfo} {fuel : Nat}
    (hask : Finishes (net.chain self) ((net.cluster.replication self).askReplica key node) s
      fun resp s' => resp = (s.nodes node.id).store.get key ∧ s'.nodes = s.nodes)
    (hlacks : ¬ Holds s node.id key)
    (h : ∀ s', s'.nodes = s.nodes →
      StuckAt (net.chain self) fuel ((net.cluster.replication self).tryReplicas key nodes) s') :
    StuckAt (net.chain self) fuel ((net.cluster.replication self).tryReplicas key (node :: nodes)) s := by
  unfold tryReplicas
  refine StuckAt.bind hask ?_
  rintro resp s' ⟨rfl, hs'⟩
  rw [if_neg (status_get_of_lacks hlacks)]
  exact h s' hs'

/-- It hangs at a replica that does not answer. -/
theorem stuckAt_tryReplicas_ask (hself : self ∈ net.cluster.ids) (hkey : (Request.mk .get key []).FitsFrame)
    {node : NodeInfo} {nodes : List NodeInfo} {fuel : Nat} (hne : node.id ≠ self)
    (h : net.serve fuel node.id ⟨.get, key, []⟩ s = none) :
    StuckAt (net.chain self) fuel ((net.cluster.replication self).tryReplicas key (node :: nodes)) s := by
  unfold tryReplicas askReplica
  rw [Cluster.replication_selfNode hself, if_neg hne]
  exact StuckAt.bind_left (stuckAt_forward hkey h)

/-- With three replicas of which the first two lack the key, no node but the primary ever answers:
the second and the third ask each other. -/
theorem diverges_get (hh : net.Healthy) (hkey : (Request.mk .get key []).FitsFrame) {p r t : NodeId}
    {rest : List NodeId} (hreps : net.cluster.replicas key = p :: r :: t :: rest) (hp : p = net.cluster.primary key)
    (ha : Answerable s key) (hlacks : ∀ id ∈ [p, r], ¬ Holds s id key) :
    ∀ (fuel : Nat) {self : NodeId}, self ∈ net.cluster.ids → self ≠ p → ∀ s', s'.nodes = s.nodes → ∀ value : Value,
      net.serve fuel self ⟨.get, key, value⟩ s' = none
  | 0, _, _, _, _, _, _ => rfl
  | fuel + 1, self, hself, hne, s', hs', value => by
    have ih := fun {id : NodeId} (hid : id ∈ net.cluster.ids) (hn : id ≠ p) (s' : NetState)
        (hs' : s'.nodes = s.nodes) => diverges_get hh hkey hreps hp ha hlacks fuel hid hn s' hs' []
    have hnd := net.cluster.nodup_replicas key
    rw [hreps] at hnd
    simp only [List.nodup_cons, List.mem_cons, not_or] at hnd
    have hmem : ∀ id ∈ [p, r, t], id ∈ net.cluster.ids := by
      intro id hid
      have hrep : id ∈ net.cluster.replicas key := by
        rw [hreps]
        exact (List.prefix_append [p, r, t] rest).subset hid
      exact Cluster.mem_ids_of_replicas hrep
    have hget : ∀ {s' : NetState}, s'.nodes = s.nodes → Answerable s' key ∧ ∀ id ∈ [p, r], ¬ Holds s' id key := by
      intro s' hs'
      refine ⟨ha.congr hs', fun id hid => ?_⟩
      rw [holds_congr hs']
      exact hlacks id hid
    show StuckAt (net.chain self) fuel ((net.cluster.replication self).clusterHandler ⟨.get, key, value⟩) s'
    rw [clusterHandler_get rfl, handleGet_other (hp ▸ hne)]
    refine StuckAt.bind (finishes_getReplicaNodes hh key) ?_
    rintro nodes s₁ ⟨hids, hs₁⟩
    rw [hreps] at hids
    match nodes, hids with
    | a :: b :: c :: post, hids =>
      simp only [List.map_cons, List.cons.injEq] at hids
      obtain ⟨rfl, rfl, rfl, -⟩ := hids
      have hs₁ := hs₁.trans hs'
      -- the primary answers that it lacks the key
      refine stuckAt_tryReplicas_skip (finishes_askReplica hself hkey (hget hs₁).1 fun _ => ?_)
        ((hget hs₁).2 _ (by simp)) ?_
      · rw [hp]
        exact answersFromStore_primary s₁
      · intro s₂ hs₂
        have hs₂ := hs₂.trans hs₁
        by_cases hb : b.id = self
        · -- at the second replica: its own store lacks the key, and the third one is asked
          refine stuckAt_tryReplicas_skip (finishes_askReplica hself hkey (hget hs₂).1 fun h => absurd hb h)
            ((hget hs₂).2 _ (by simp)) ?_
          intro s₃ hs₃
          refine stuckAt_tryReplicas_ask hself hkey ?_ (ih (hmem _ (by simp)) ?_ s₃ (hs₃.trans hs₂))
          · rw [← hb]
            exact fun e => hnd.2.1.1 e.symm
          · exact fun e => hnd.1.2.1 e.symm
        · -- anywhere else the second replica is asked
          exact stuckAt_tryReplicas_ask hself hkey hb (ih (hmem _ (by simp)) (fun e => hnd.1.1 e.symm) s₂ hs₂)

end Network

/-! ## When reads finish -/

/-- A GET at `self` finishes; it answers OK with the primary's value if the primary holds the key,
and NOT_FOUND if no replica holds it. -/
def GetFinishes (net : Network) (self : NodeId) (req : Request) (s : NetState) : Prop :=
  net.Answers self req s fun resp _ =>
    (∀ v, (s.nodes (net.cluster.primary req.key)).store.data.lookup req.key = some v → resp = ⟨.ok, v⟩) ∧
    ((∀ id ∈ net.cluster.replicas req.key, ¬ Holds s id req.key) → resp.status = .notFound)

/-- Reads in a healthy cluster: a GET finishes with the right answer exactly when the node asked
is the primary, or the key has at most two replicas, or one of the first two holds it. -/
theorem get_iff {net : Network} (hh : net.Healthy) (hrf : 0 < net.cluster.replicationFactor) {self : NodeId}
    (hself : self ∈ net.cluster.ids) {req : Request} (hget : req.command = .get) (hfit : req.FitsFrame) {s : NetState}
    (ha : Answerable s req.key) :
    GetFinishes net self req s ↔ self = net.cluster.primary req.key ∨ (net.cluster.replicas req.key).length ≤ 2 ∨
      ∃ id ∈ (net.cluster.replicas req.key).take 2, Holds s id req.key := by
  obtain ⟨command, key, value⟩ := req
  simp only at hget
  subst hget
  obtain ⟨others, hreps⟩ := Cluster.replicas_eq_cons hrf key
  have hkey := hfit.withoutValue
  simp only at ha
  constructor
  · -- otherwise there is a third replica, and the GET never ends
    intro hfin
    by_contra hcon
    simp only [not_or, not_le, not_exists, not_and] at hcon
    obtain ⟨hne, hlen, hlacks⟩ := hcon
    rw [hreps] at hlen hlacks
    match others, hreps with
    | [], _ => simp at hlen
    | [_], _ => simp at hlen
    | r :: t :: rest, hreps =>
      have hdiv : net.Diverges self ⟨.get, key, value⟩ s := fun fuel =>
        Network.diverges_get hh hkey hreps rfl ha (fun id hid => hlacks id hid) fuel hself hne s rfl value
      exact hdiv.not_answers hfin
  · intro hcond
    unfold GetFinishes
    by_cases hp : self = net.cluster.primary key
    · rw [hp]
      refine (Network.answers_get_primary ⟨.get, key, value⟩ rfl s).conseq ?_
      rintro resp s' ⟨rfl, -⟩
      refine ⟨fun v hv => KVStore.get_some hv, fun hlacks => ?_⟩
      have hp := hlacks (net.cluster.primary key) (by rw [hreps]; simp)
      rw [KVStore.get_none (lookup_none_of_lacks hp)]
    · refine (Network.answers_get_other hh hkey hrf hself hp ha (hcond.resolve_left hp) value).conseq ?_
      rintro resp s' ⟨rfl, -⟩
      constructor
      · intro v hv
        rw [hreps, List.take_succ_cons]
        exact firstHolder_cons_some hv _
      · intro hlacks
        rw [firstHolder_of_lacks fun id hid => hlacks id (List.mem_of_mem_take hid)]

theorem emptyStores_answerable (key : Key) : Answerable emptyStores key := by
  intro id v h
  cases h

/-- A GET of the absent key `"k"` at its primary `"c"` ends. -/
theorem get_iff_threeNodes : GetFinishes (allUp threeNodes) [99] ⟨.get, [107], []⟩ emptyStores :=
  (get_iff (allUp_healthy threeNodes) (by decide) (by decide) rfl (by decide) (emptyStores_answerable _)).2
    (.inl threeNodes_primary.symm)

/-- A GET of the absent key `"k"` at `"a"` never ends: `"a"` and `"b"` ask each other. -/
theorem get_hangs : ¬ GetFinishes (allUp threeNodes) [97] ⟨.get, [107], []⟩ emptyStores := by
  have hlacks : ∀ id ∈ [[99], [97]], ¬ Holds emptyStores id [107] := by
    rintro id - ⟨v, hv⟩
    cases hv
  have hdiv : (allUp threeNodes).Diverges [97] ⟨.get, [107], []⟩ emptyStores := fun fuel =>
    Network.diverges_get (allUp_healthy threeNodes) (by decide) threeNodes_replicas threeNodes_primary.symm
      (emptyStores_answerable _) hlacks fuel (by decide) (by decide) emptyStores rfl []
  exact hdiv.not_answers

end KvStore
