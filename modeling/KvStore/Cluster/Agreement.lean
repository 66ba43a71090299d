/-
Does the answer to a GET depend on the node asked? The primary answers from its own store alone,
every other node goes on to the second replica when the primary lacks the key. The two branches of
`handleGet` agree exactly if the primary holds the key or the second replica does not. A write whose
coordinator reaches nobody else leaves a key at the second replica only.
-/
import KvStore.Cluster.Reads
import KvStore.Cluster.System

namespace KvStore

open Bytes Program Protocol Machine Updates

/-- Any two nodes whose handling of a GET of the key finishes give the same response. -/
def GetsAgree (net : Network) (s : NetState) (key : Key) : Prop :=
  ∀ a ∈ net.cluster.ids, ∀ b ∈ net.cluster.ids, ∀ ra rb,
    net.Answers a ⟨.get, key, []⟩ s (fun resp _ => resp = ra) →
    net.Answers b ⟨.get, key, []⟩ s (fun resp _ => resp = rb) → ra = rb

/-! ## The two branches -/

section Branches

variable {net : Network} {s : NetState} {key : Key} {a : NodeId} {ra : Response}

/-- The response of the primary is what its store holds. -/
theorem response_primary (h : net.Answers (net.cluster.primary key) ⟨.get, key, []⟩ s fun resp _ => resp = ra) :
    ra = (s.nodes (net.cluster.primary key)).store.get key := by
  obtain ⟨resp, s', rfl, hresp, -⟩ := h.and (Network.answers_get_primary ⟨.get, key, []⟩ rfl s)
  exact hresp

/-- If the primary holds the key or neither of the first two replicas does, every other node that
answers gives the response of the primary. -/
theorem response_other (hh : net.Healthy) (hkey : (Request.mk .get key []).FitsFrame) (ha : Answerable s key)
    (hplaced : ∀ id, Holds s id key → id ∈ net.cluster.replicas key)
    (hcond : Holds s (net.cluster.primary key) key ∨ ∀ id ∈ (net.cluster.replicas key).take 2, ¬ Holds s id key)
    (hmem : a ∈ net.cluster.ids) (hne : a ≠ net.cluster.primary key)
    (h : net.Answers a ⟨.get, key, []⟩ s fun resp _ => resp = ra) :
    ra = (s.nodes (net.cluster.primary key)).store.get key := by
  rcases Nat.eq_zero_or_pos net.cluster.replicationFactor with hzero | hrf
  · -- no replicas: nothing is stored, and nobody is asked
    have hnil : net.cluster.replicas key = [] := by
      have hlen := net.cluster.length_replicas_le key
      rw [hzero] at hlen
      exact List.length_eq_zero_iff.1 (Nat.le_zero.1 hlen)
    have hlacks : ¬ Holds s (net.cluster.primary key) key := by
      intro hp
      have hin := hplaced _ hp
      rw [hnil] at hin
      cases hin
    have hloop := Network.answers_get_take (j := 0) hh hkey hmem hne ha (by simp) (Or.inl (by simp [hnil])) []
    obtain ⟨resp, s', rfl, hresp, -⟩ := h.and hloop
    rw [KVStore.get_none (lookup_none_of_lacks hlacks)]
    exact hresp
  · obtain ⟨others, hreps⟩ := Cluster.replicas_eq_cons hrf key
    rcases hcond with hp | hlacks
    · -- every node asks the primary first
      have hholder : ∃ id ∈ (net.cluster.replicas key).take 2, Holds s id key := ⟨_, by rw [hreps]; simp, hp⟩
      obtain ⟨resp, s', rfl, hresp, -⟩ :=
        h.and (Network.answers_get_other hh hkey hrf hmem hne ha (Or.inr hholder) [])
      obtain ⟨v, hv⟩ := hp
      rw [hreps, List.take_succ_cons, firstHolder_cons_some hv] at hresp
      rw [KVStore.get_some hv, hresp]
    · have hp : ¬ Holds s (net.cluster.primary key) key := hlacks _ (by rw [hreps]; simp)
      rw [KVStore.get_none (lookup_none_of_lacks hp)]
      by_cases hlen : (net.cluster.replicas key).length ≤ 2
      · obtain ⟨resp, s', rfl, hresp, -⟩ :=
          h.and (Network.answers_get_other hh hkey hrf hmem hne ha (Or.inl hlen) [])
        rwa [firstHolder_of_lacks hlacks] at hresp
      · -- a third replica: the node never answers
        match others, hreps with
        | [], hreps => simp [hreps] at hlen
        | [_], hreps => simp [hreps] at hlen
        | r :: t :: rest, hreps =>
          rw [hreps] at hlacks
          have hdiv : net.Diverges a ⟨.get, key, []⟩ s := fun fuel =>
            Network.diverges_get hh hkey hreps rfl ha (fun id hid => hlacks id hid) fuel hmem hne s rfl []
          exact absurd h hdiv.not_answers

/-- If the second replica alone holds the key, it answers with its value and the primary NOT_FOUND. -/
theorem disagree (hh : net.Healthy) (hkey : (Request.mk .get key []).FitsFrame) (ha : Answerable s key)
    (hp : ¬ Holds s (net.cluster.primary key) key) {r : NodeId} (hr : r ∈ (net.cluster.replicas key).take 2)
    (hholds : Holds s r key) : ¬ GetsAgree net s key := by
  have hrf : 0 < net.cluster.replicationFactor := by
    have hlen := net.cluster.length_replicas_le key
    have hpos := List.length_pos_of_mem (List.mem_of_mem_take hr)
    omega
  obtain ⟨others, hreps⟩ := Cluster.replicas_eq_cons hrf key
  have hne : r ≠ net.cluster.primary key := by
    rintro rfl
    exact hp hholds
  have hmem := Cluster.mem_ids_of_replicas (List.mem_of_mem_take hr)
  have hpmem : net.cluster.primary key ∈ net.cluster.ids :=
    Cluster.mem_ids_of_replicas (show _ ∈ net.cluster.replicas key by rw [hreps]; exact List.mem_cons_self)
  obtain ⟨v, hv⟩ := hholds
  -- the list of the first two is the primary and `r`
  have htake : (net.cluster.replicas key).take 2 = [net.cluster.primary key, r] := by
    rw [hreps] at hr ⊢
    cases others with
    | nil => exact absurd (List.mem_singleton.1 hr) hne
    | cons r' rest =>
      simp only [List.take_succ_cons, List.take_zero, List.mem_cons, List.not_mem_nil, or_false] at hr ⊢
      rw [hr.resolve_left hne]
  have hother := Network.answers_get_other hh hkey hrf hmem hne ha (Or.inr ⟨r, hr, v, hv⟩) []
  rw [htake, firstHolder_cons_none (lookup_none_of_lacks hp), firstHolder_cons_some hv] at hother
  have hprimary : net.Answers (net.cluster.primary key) ⟨.get, key, []⟩ s _ :=
    Network.answers_get_primary ⟨.get, key, []⟩ rfl s
  rw [KVStore.get_none (lookup_none_of_lacks hp)] at hprimary
  intro hagree
  have heq := hagree _ hpmem _ hmem _ _ (hprimary.conseq fun _ _ h => h.1) (hother.conseq fun _ _ h => h.1)
  cases heq

end Branches

/-- The stores hold only what `put` accepts. -/
theorem System.Reachable.answerable {c : Cluster} {s : System} (hs : Reachable c s) (time : Nat) (key : Key) :
    Answerable ⟨time, s.nodes⟩ key := by
  intro id v hv
  have hlen : v.length ≤ 65536 := (hs.sound.placed id key v hv).2.2.2
  omega

/-! ## When the nodes agree -/

/-- In every state a cluster can get into: when all nodes are reachable and none is marked DOWN,
the answer to a GET does not depend on the node asked exactly if the primary holds the key or
neither of its first two replicas does. -/
theorem gets_agree_iff {net : Network} (hh : net.Healthy) {s : System} (hs : System.Reachable net.cluster s)
    {key : Key} (hkey : (Request.mk .get key []).FitsFrame) (time : Nat) :
    GetsAgree net ⟨time, s.nodes⟩ key ↔
      Holds ⟨time, s.nodes⟩ (net.cluster.primary key) key ∨
        ∀ id ∈ (net.cluster.replicas key).take 2, ¬ Holds ⟨time, s.nodes⟩ id key := by
  have ha := hs.answerable time key
  have hplaced : ∀ id, Holds ⟨time, s.nodes⟩ id key → id ∈ net.cluster.replicas key := by
    rintro id ⟨v, hv⟩
    exact (hs.sound.placed id key v hv).1
  constructor
  · intro hagree
    by_contra hcon
    push Not at hcon
    obtain ⟨hp, r, hr, hholds⟩ := hcon
    exact disagree hh hkey ha hp hr hholds hagree
  · -- every answer is the one of the primary
    intro hcond a hmem b hmemb ra rb hra hrb
    have hone : ∀ {x : NodeId} {rx : Response}, x ∈ net.cluster.ids →
        net.Answers x ⟨.get, key, []⟩ ⟨time, s.nodes⟩ (fun resp _ => resp = rx) →
        rx = (s.nodes (net.cluster.primary key)).store.get key := by
      intro x rx hx hans
      by_cases hxp : x = net.cluster.primary key
      · rw [hxp] at hans
        exact response_primary hans
      · exact response_other hh hkey ha hplaced hcond hx hxp hans
    exact (hone hmem hra).trans (hone hmemb hrb).symm

/-- A PUT of `"k"` at its primary `"c"`, whose connections fail, leaves the value there, and all nodes find it. -/
theorem gets_agree_iff_atPrimary :
    ∃ s, System.Reachable threeNodes s ∧ (s.nodes [99]).store.data.lookup [107] = some [118] ∧
      GetsAgree (allUp threeNodes) ⟨0, s.nodes⟩ [107] := by
  have hrep : [99] ∈ threeNodes.replicas [107] := by
    rw [threeNodes_replicas]
    decide
  have hfit : (Request.mk .put [107] [118]).FitsFrame := by decide
  obtain ⟨s, hs, hnodes⟩ := reachable_lone_put hrep hfit
  have hv : (s.nodes [99]).store.data.lookup [107] = some [118] := by
    rw [hnodes, Function.update_self]
    rfl
  refine ⟨s, hs, hv, (gets_agree_iff (allUp_healthy threeNodes) hs (by decide) 0).2 (Or.inl ?_)⟩
  show Holds ⟨0, s.nodes⟩ (threeNodes.primary [107]) [107]
  rw [threeNodes_primary]
  exact ⟨[118], hv⟩

/-- A client's PUT of `"k"` at `"a"`, whose connections to `"b"` and `"c"` fail, leaves the value at
`"a"` alone: afterwards a GET finds it at `"a"` and not at `"c"`, the primary. -/
theorem gets_disagree_after_failed_put :
    ∃ s, System.Reachable threeNodes s ∧ ¬ GetsAgree (allUp threeNodes) ⟨0, s.nodes⟩ [107] := by
  have hrep : [97] ∈ threeNodes.replicas [107] := by
    rw [threeNodes_replicas]
    decide
  have hfit : (Request.mk .put [107] [118]).FitsFrame := by decide
  obtain ⟨s, hs, hnodes⟩ := reachable_lone_put hrep hfit
  refine ⟨s, hs, ?_⟩
  have htake : [97] ∈ (threeNodes.replicas [107]).take 2 := by
    rw [threeNodes_replicas]
    decide
  refine disagree (allUp_healthy threeNodes) (by decide) (hs.answerable 0 [107]) ?_ htake ?_
  · show ¬ Holds ⟨0, s.nodes⟩ (threeNodes.primary [107]) [107]
    rw [threeNodes_primary]
    rintro ⟨v, hv⟩
    simp only [hnodes] at hv
    rw [Function.update_of_ne (by decide)] at hv
    cases hv
  · refine ⟨[118], ?_⟩
    simp only [hnodes, Function.update_self]
    rfl

end KvStore
