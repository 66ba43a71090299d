/-
A cluster with replication factor 1 is one map. Each key lives at its owner, every node routes it
there, and the requests of any client at any node are answered as a single map would answer them.
-/
import KvStore.Cluster.Reads
import KvStore.Cluster.Writes

namespace KvStore

open Bytes Program Protocol Updates

/-! ## The reference map -/

namespace Reference

/-- What a request does to one map, and its answer. -/
def step (m : Map Key Value) (req : Request) : Response × Map Key Value :=
  match req.command with
  | .put =>
    if req.key.length ≤ 256 ∧ req.value.length ≤ 65536 then (⟨.ok, []⟩, m.insert req.key req.value)
    else (⟨.error, []⟩, m)
  | .get =>
    match m.lookup req.key with
    | some v => (⟨.ok, v⟩, m)
    | none => (⟨.notFound, []⟩, m)
  | .delete => (⟨.ok, []⟩, m.erase req.key)
  | .ping => (⟨.ok, pong⟩, m)
  | .other _ _ => (⟨.invalidRequest, []⟩, m)

/-- The answers to requests made one after another. -/
def run : Map Key Value → List Request → List Response
  | _, [] => []
  | m, req :: reqs => (step m req).1 :: run (step m req).2 reqs

end Reference

/-- Requests handled one after another, each at its node; `fuel` bounds the depth of forwarding. -/
def Network.serveAll (net : Network) (fuel : Nat) : List (NodeId × Request) → NetState → Option (List Response)
  | [], _ => some []
  | (self, req) :: reqs, s => do
    let (resp, s') ← net.serve fuel self req s
    let resps ← net.serveAll fuel reqs s'
    return resp :: resps

/-! ## The simulation -/

/-- The owner of every key holds what the map has for it; no pair is beyond the limits. -/
structure Shards (net : Network) (s : NetState) (m : Map Key Value) : Prop where
  agree : ∀ key, (s.nodes (net.cluster.primary key)).store.data.lookup key = m.lookup key
  limits : ∀ id, (s.nodes id).store.WithinLimits

section Sharded

variable {net : Network} {s s' : NetState} {m : Map Key Value}

theorem Shards.congr (h : Shards net s m) (hs : s'.nodes = s.nodes) : Shards net s' m := by
  constructor
  · rw [hs]
    exact h.agree
  · rw [hs]
    exact h.limits

theorem Shards.answerable (h : Shards net s m) (key : Key) : Answerable s key := by
  intro id v hv
  have hlen : v.length ≤ 65536 := (h.limits id key v hv).2
  omega

/-- An operation at the owner of a key that does to the key what the map does. -/
theorem Shards.applyAt (h : Shards net s m) {f : KVStore → Response × KVStore} {key : Key} {v : Option Value}
    (hf : (f (s.nodes (net.cluster.primary key)).store).2.data =
      write (s.nodes (net.cluster.primary key)).store.data (key, v))
    (hlim : (f (s.nodes (net.cluster.primary key)).store).2.WithinLimits)
    (hs : s'.nodes = s.applyAt (net.cluster.primary key) f) : Shards net s' (write m (key, v)) := by
  constructor
  · intro k
    rw [hs, NetState.applyAt, lookup_write]
    by_cases hk : net.cluster.primary k = net.cluster.primary key
    · rw [hk, Function.update_self, hf, lookup_write, ← hk, h.agree]
    · have hne : key ≠ k := fun e => hk (by rw [e])
      rw [Function.update_of_ne hk, if_neg hne, h.agree]
  · intro id
    rw [hs, NetState.applyAt]
    by_cases hid : id = net.cluster.primary key
    · rw [hid, Function.update_self]
      exact hlim
    · rw [Function.update_of_ne hid]
      exact h.limits id

theorem verdict_of_one (hrf : net.cluster.replicationFactor = 1) (b : Bool) :
    net.verdict b = if b then ⟨.ok, []⟩ else ⟨.error, []⟩ := by
  cases b <;> simp [Network.verdict, hrf]

section Step

variable (hh : net.Healthy) (hrf : net.cluster.replicationFactor = 1) {self : NodeId} (hself : self ∈ net.cluster.ids)
include hh hrf hself

theorem Shards.put (h : Shards net s m) {key : Key} {value : Value} (hfit : (Request.mk .put key value).FitsFrame) :
    net.Answers self ⟨.put, key, value⟩ s fun resp s' => resp = (Reference.step m ⟨.put, key, value⟩).1 ∧
      Shards net s' (Reference.step m ⟨.put, key, value⟩).2 := by
  refine (Network.answers_write_single hh (coordinated_put key value) hfit (Cluster.replicas_of_one hrf key)
    hself s).conseq ?_
  rintro resp s' ⟨rfl, hs'⟩
  rw [verdict_of_one hrf]
  unfold Reference.step
  by_cases hacc : KVStore.Accepts key value
  · simp only [KVStore.put_ok hacc, if_pos (show key.length ≤ 256 ∧ value.length ≤ 65536 from hacc)]
    refine ⟨rfl, h.applyAt (v := some value) ?_ ?_ hs'⟩
    · rw [KVStore.put_ok hacc]
    · exact KVStore.put_withinLimits (h.limits _) key value
  · obtain ⟨hno, -, hst⟩ := KVStore.put_refused hacc (s.nodes (net.cluster.primary key)).store
    simp only [if_neg (show ¬ (key.length ≤ 256 ∧ value.length ≤ 65536) from hacc), hno, decide_false]
    refine ⟨rfl, h.congr ?_⟩
    rw [hs', NetState.applyAt, hst]
    exact Function.update_eq_self _ _

theorem Shards.get (h : Shards net s m) {key : Key} {value : Value} (hfit : (Request.mk .get key value).FitsFrame) :
    net.Answers self ⟨.get, key, value⟩ s fun resp s' => resp = (Reference.step m ⟨.get, key, value⟩).1 ∧
      Shards net s' (Reference.step m ⟨.get, key, value⟩).2 := by
  have hget : net.Answers self ⟨.get, key, value⟩ s fun resp s' =>
      resp = (s.nodes (net.cluster.primary key)).store.get key ∧ s'.nodes = s.nodes := by
    by_cases hp : self = net.cluster.primary key
    · rw [hp]
      exact Network.answers_get_primary ⟨.get, key, value⟩ rfl s
    · have hlen : (net.cluster.replicas key).length ≤ 2 := by simp [Cluster.replicas_of_one hrf]
      refine (Network.answers_get_other hh hfit.withoutValue (hrf ▸ Nat.one_pos) hself hp (h.answerable key)
        (Or.inl hlen) value).conseq ?_
      rintro resp s' ⟨rfl, hs'⟩
      rw [Cluster.replicas_of_one hrf]
      exact ⟨rfl, hs'⟩
  refine hget.conseq ?_
  rintro resp s' ⟨rfl, hs'⟩
  unfold KVStore.get Reference.step
  rw [h.agree key]
  simp only
  cases m.lookup key <;> exact ⟨rfl, h.congr hs'⟩

theorem Shards.delete (h : Shards net s m) {key : Key} {value : Value}
    (hfit : (Request.mk .delete key value).FitsFrame) :
    net.Answers self ⟨.delete, key, value⟩ s fun resp s' => resp = (Reference.step m ⟨.delete, key, value⟩).1 ∧
      Shards net s' (Reference.step m ⟨.delete, key, value⟩).2 := by
  -- the value of a DELETE is not looked at
  have hdelete : net.Answers self ⟨.delete, key, value⟩ s _ :=
    Network.answers_write_single hh (coordinated_delete key) hfit.withoutValue (Cluster.replicas_of_one hrf key)
      hself s
  refine hdelete.conseq ?_
  rintro resp s' ⟨rfl, hs'⟩
  have hack : ReplicationManager.acknowledges ((s.nodes (net.cluster.primary key)).store.del key).1 = true := by
    simpa [ReplicationManager.acknowledges] using KVStore.del_status _ key
  rw [verdict_of_one hrf, hack]
  refine ⟨rfl, h.applyAt (v := none) ?_ ?_ hs'⟩
  · exact KVStore.del_data _ key
  · exact KVStore.del_withinLimits (h.limits _) key

/-- One request: the answer is the map's, and the shards follow the map. -/
theorem Shards.step (h : Shards net s m) {req : Request} (hfit : req.FitsFrame) :
    net.Answers self req s fun resp s' =>
      resp = (Reference.step m req).1 ∧ Shards net s' (Reference.step m req).2 := by
  obtain ⟨command, key, value⟩ := req
  cases command with
  | put => exact h.put hh hrf hself hfit
  | get => exact h.get hh hrf hself hfit
  | delete => exact h.delete hh hrf hself hfit
  | ping => exact .ret ⟨rfl, h⟩
  | other b hb => exact .ret ⟨rfl, h⟩

end Step

end Sharded

/-! ## Runs -/

theorem Network.serveAll_le (net : Network) {n n' : Nat} (hle : n ≤ n') :
    ∀ {reqs : List (NodeId × Request)} {s : NetState} {resps : List Response},
      net.serveAll n reqs s = some resps → net.serveAll n' reqs s = some resps
  | [], _, _, h => h
  | (self, req) :: reqs, s, resps, h => by
    unfold serveAll at h ⊢
    obtain ⟨⟨resp, s'⟩, hserve, h⟩ := Option.bind_eq_some_iff.1 h
    obtain ⟨rest, hrest, h⟩ := Option.bind_eq_some_iff.1 h
    rw [net.serve_le hle hserve]
    simp only [Option.bind_eq_bind, Option.bind_some]
    rw [serveAll_le net hle hrest]
    exact h

/-- Requests at any nodes of a sharded cluster are answered as by the map it holds. -/
theorem Shards.run {net : Network} (hh : net.Healthy) (hrf : net.cluster.replicationFactor = 1) :
    ∀ {reqs : List (NodeId × Request)} {s : NetState} {m : Map Key Value}, Shards net s m →
      (∀ r ∈ reqs, r.1 ∈ net.cluster.ids ∧ r.2.FitsFrame) →
      ∃ fuel, net.serveAll fuel reqs s = some (Reference.run m (reqs.map Prod.snd))
  | [], _, _, _, _ => ⟨0, rfl⟩
  | (self, req) :: reqs, s, m, h, hreqs => by
    obtain ⟨hself, hfit⟩ := hreqs _ List.mem_cons_self
    obtain ⟨n, resp, s', hserve, rfl, h'⟩ := Network.answers_iff.1 (h.step hh hrf hself hfit)
    obtain ⟨n', hrest⟩ := Shards.run hh hrf h' fun r hr => hreqs r (List.mem_cons_of_mem _ hr)
    refine ⟨max n n', ?_⟩
    unfold Network.serveAll
    rw [net.serve_le (le_max_left n n') hserve]
    simp only [Option.bind_eq_bind, Option.bind_some]
    rw [net.serveAll_le (le_max_right n n') hrest]
    rfl

/-- A healthy cluster with replication factor 1 that starts with empty stores answers every
sequence of requests, each at any node, as one map does that starts empty. -/
theorem sharded_refines_map {net : Network} (hh : net.Healthy) (hrf : net.cluster.replicationFactor = 1)
    {s : NetState} (hempty : ∀ id, (s.nodes id).store = KVStore.empty) {reqs : List (NodeId × Request)}
    (hreqs : ∀ r ∈ reqs, r.1 ∈ net.cluster.ids ∧ r.2.FitsFrame) :
    ∃ fuel, net.serveAll fuel reqs s = some (Reference.run ∅ (reqs.map Prod.snd)) := by
  have hstart : Shards net s ∅ := by
    constructor
    · intro key
      rw [hempty]
      rfl
    · intro id
      rw [hempty]
      exact KVStore.empty_withinLimits
  exact hstart.run hh hrf hreqs

theorem sharded_refines_map_putGet :
    ∃ fuel, (allUp { threeNodes with replicationFactor := 1 }).serveAll fuel
      [([97], ⟨.put, [107], [118]⟩), ([98], ⟨.get, [107], []⟩), ([99], ⟨.delete, [107], []⟩)] emptyStores =
        some [⟨.ok, []⟩, ⟨.ok, [118]⟩, ⟨.ok, []⟩] :=
  sharded_refines_map (allUp_healthy _) rfl (fun _ => rfl) (by decide)

end KvStore
