/-
A cluster of nodes that share one config and one replication factor, run as a whole: a node handles
a request with the cluster-mode handler, and a forwarded request is executed by the same handler at
the receiving node, through the bytes of the wire protocol. The handlers can forward to each other
in circles, so `serve` takes fuel for the depth of the tree of forwarded requests; a request
finishes if some fuel suffices.
-/
import KvStore.Cluster.ReplicationManager
import KvStore.Lib.Chain
import KvStore.Protocol.Protocol

namespace KvStore

open Bytes Program Protocol

/-- Nodes with distinct ids that load the same config, and their replication factor. -/
structure Cluster where
  config : List ConfigLine
  nonempty : config ≠ []
  distinct : (config.map (·.id)).Nodup
  replicationFactor : Nat

namespace Cluster

def ids (c : Cluster) : List NodeId := c.config.map (·.id)

/-- The `ClusterManager` of a node after start-up. -/
def manager (c : Cluster) (self : NodeId) : ClusterManager := (ClusterManager.loadConfig self c.config).initializeRing

/-- The `ReplicationManager` of a node. -/
def replication (c : Cluster) (self : NodeId) : ReplicationManager :=
  ReplicationManager.new (c.manager self) c.replicationFactor

/-- The replicas of a key: the same list at every node. -/
def replicas (c : Cluster) (key : Key) : List NodeId := (ringOf c.config).getNodes key c.replicationFactor

/-- The primary of a key. -/
def primary (c : Cluster) (key : Key) : NodeId := (ringOf c.config).getNode key

end Cluster

/-! ## Running requests -/

/-- A cluster whose nodes are all reachable, with the status that each node sees each other node
in at each time. -/
structure Network where
  cluster : Cluster
  view : Nat → NodeId → NodeId → NodeStatus

/-- The processes of the nodes, and a clock that counts the reads of the node tables. -/
structure NetState where
  time : Nat
  nodes : NodeId → Process

namespace Network

/-- How the calls of a handler at node `self` are answered when `serve` handles the forwarded
requests: `forwardRequest` connects, sends the request in a frame and decodes the response. -/
def answer (net : Network) (serve : NodeId → Request → NetState → Option (Response × NetState)) (self : NodeId) :
    (c : ClusterCall) → NetState → Option (c.Res × NetState)
  | .store c, s =>
    some ((c.exec (s.nodes self)).1, { s with nodes := Function.update s.nodes self (c.exec (s.nodes self)).2 })
  | .getNode id, s =>
    some (((net.cluster.manager self).withView (net.view s.time self)).getNode id, { s with time := s.time + 1 })
  | .forward node req, s =>
    match receiveRequest (writeFrame (serializeRequest req)) with
    | none => some (⟨.nodeUnavailable, []⟩, s)
    | some req =>
      (serve node.id req s).map fun r => (receiveResponse (writeFrame (serializeResponse r.1)), r.2)

/-- Handle a request at a node; `fuel` bounds the depth of forwarding. -/
def serve (net : Network) : Nat → NodeId → Request → NetState → Option (Response × NetState)
  | 0, _, _, _ => none
  | fuel + 1, self, req, s =>
    ((net.cluster.replication self).clusterHandler req).run (net.answer (net.serve fuel) self) s

theorem answer_mono (net : Network) {f g : NodeId → Request → NetState → Option (Response × NetState)}
    (hfg : ∀ id req s r, f id req s = some r → g id req s = some r) (self : NodeId) (c : ClusterCall) (s : NetState)
    (r : c.Res × NetState) (h : net.answer f self c s = some r) : net.answer g self c s = some r := by
  cases c with
  | store c => exact h
  | getNode id => exact h
  | forward node req =>
    simp only [answer] at h ⊢
    split at h
    · exact h
    · rename_i req' _
      obtain ⟨x, hx, rfl⟩ := Option.map_eq_some_iff.1 h
      rw [hfg _ _ _ _ hx]
      rfl

theorem serve_mono (net : Network) : ∀ (fuel : Nat) (self : NodeId) (req : Request) (s : NetState)
    (r : Response × NetState), net.serve fuel self req s = some r → net.serve (fuel + 1) self req s = some r
  | 0, _, _, _, _, h => by cases h
  | fuel + 1, self, req, s, r, h => by
    have hmono := net.answer_mono (net.serve_mono fuel) self
    exact Prog.run_mono hmono h

theorem serve_le (net : Network) {n n' : Nat} (hle : n ≤ n') {self : NodeId} {req : Request} {s : NetState}
    {r : Response × NetState} (h : net.serve n self req s = some r) : net.serve n' self req s = some r := by
  induction hle with
  | refl => exact h
  | step _ ih => exact net.serve_mono _ _ _ _ _ ih

/-- The environments of a node, by the depth of forwarding they allow. -/
def chain (net : Network) (self : NodeId) : Chain ClusterCall ClusterCall.Res NetState where
  env fuel := net.answer (net.serve fuel) self
  mono fuel := net.answer_mono (net.serve_mono fuel) self

/-- Node `self` handles `req` to the end, answering `resp` in a state `s'` with `Q resp s'`; in
particular the tree of forwarded requests is finite. -/
def Answers (net : Network) (self : NodeId) (req : Request) (s : NetState) (Q : Response → NetState → Prop) : Prop :=
  Finishes (net.chain self) ((net.cluster.replication self).clusterHandler req) s Q

/-- The tree of forwarded requests is infinite. -/
def Diverges (net : Network) (self : NodeId) (req : Request) (s : NetState) : Prop :=
  ∀ fuel, net.serve fuel self req s = none

/-- No node is ever marked DOWN. -/
def Healthy (net : Network) : Prop := ∀ t a b, net.view t a b ≠ .down

theorem answers_iff {net : Network} {self : NodeId} {req : Request} {s : NetState} {Q : Response → NetState → Prop} :
    net.Answers self req s Q ↔ ∃ fuel resp s', net.serve fuel self req s = some (resp, s') ∧ Q resp s' := by
  constructor
  · rintro ⟨n, resp, s', hrun, hQ⟩
    exact ⟨n + 1, resp, s', hrun, hQ⟩
  · rintro ⟨fuel, resp, s', hrun, hQ⟩
    cases fuel with
    | zero => cases hrun
    | succ n => exact ⟨n, resp, s', hrun, hQ⟩

theorem Diverges.not_answers {net : Network} {self : NodeId} {req : Request} {s : NetState}
    (h : net.Diverges self req s) {Q : Response → NetState → Prop} : ¬ net.Answers self req s Q := by
  intro hans
  obtain ⟨fuel, resp, s', hrun, -⟩ := answers_iff.1 hans
  rw [h fuel] at hrun
  cases hrun

/-! ## Rules for the operations -/

section Rules

variable {net : Network} {self : NodeId} {s : NetState}

theorem finishes_store (c : StoreCall) {Q : c.Res → NetState → Prop}
    (h : Q (c.exec (s.nodes self)).1 { s with nodes := Function.update s.nodes self (c.exec (s.nodes self)).2 }) :
    Finishes (net.chain self) (.call (ClusterCall.store c) .ret) s Q :=
  ⟨0, _, _, rfl, h⟩

theorem finishes_localGet (key : Key) {Q : Response → NetState → Prop}
    (h : Q ((s.nodes self).store.get key) s) : Finishes (net.chain self) (localGet key) s Q := by
  apply finishes_store
  simpa [StoreCall.exec] using h

theorem finishes_forward {node : NodeInfo} {req : Request} (hreq : req.FitsFrame) {Q : Response → NetState → Prop}
    (h : net.Answers node.id req s fun resp s' => 5 + resp.value.length < 2 ^ 32 ∧ Q resp s') :
    Finishes (net.chain self) (forwardRequest node req) s Q := by
  obtain ⟨fuel, resp, s', hrun, hfit, hQ⟩ := answers_iff.1 h
  refine ⟨fuel, resp, s', ?_, hQ⟩
  show (net.answer (net.serve fuel) self (.forward node req) s).bind _ = _
  simp only [answer, receiveRequest_sent hreq, hrun, Option.map_some, receiveResponse_sent hfit]
  rfl

theorem stuckAt_forward {node : NodeInfo} {req : Request} (hreq : req.FitsFrame) {fuel : Nat}
    (h : net.serve fuel node.id req s = none) : StuckAt (net.chain self) fuel (forwardRequest node req) s := by
  show (net.answer (net.serve fuel) self (.forward node req) s).bind _ = _
  simp only [answer, receiveRequest_sent hreq, h]
  rfl

end Rules

end Network

/-- The network in which every node sees every other one UP. -/
def allUp (c : Cluster) : Network := ⟨c, fun _ _ _ => .up⟩

/-- All stores are empty. -/
def emptyStores : NetState := ⟨0, fun _ => ⟨KVStore.empty, Disk.empty⟩⟩

theorem allUp_healthy (c : Cluster) : (allUp c).Healthy := by
  intro t a b h
  cases h

end KvStore
