/-
Durability in cluster mode. The handlers change the store in memory and never the data directory:
the append to the log is commented out in `handlePut`, and `handleDelete` has none. After a crash a
node comes back with the store it was started with, which is the one it had before the crash as
long as no request has changed it.
-/
import KvStore.Cluster.Coordinator

namespace KvStore

open Bytes Program

/-- The data directory recovers to the store in memory. -/
def Recoverable (p : Process) : Prop := p.disk.recover = some p.store

instance (p : Process) : Decidable (Recoverable p) := inferInstanceAs (Decidable (_ = _))

namespace ReplicationManager

variable (m : ReplicationManager)

/-- The process after a request that is handled in some surroundings. -/
def handle (p : Process) (e : Request × Surroundings) : Process := ((m.clusterHandler e.1).exec e.2.env (0, p)).2.2

/-- The process after requests handled one after another. -/
def handleAll (p : Process) (es : List (Request × Surroundings)) : Process := es.foldl m.handle p

/-- The request is a write of a key that this node is a live replica of, and it changes what the
node's store has for the key. -/
def ChangesStore (p : Process) (e : Request × Surroundings) : Prop :=
  m.LiveReplica e.2 e.1.key ∧
    ((e.1.command = .put ∧ KVStore.Accepts e.1.key e.1.value ∧ p.store.data.lookup e.1.key ≠ some e.1.value) ∨
      (e.1.command = .delete ∧ p.store.data.lookup e.1.key ≠ none))

theorem handleAll_singleton (p : Process) (e : Request × Surroundings) : m.handleAll p [e] = m.handle p e := rfl

theorem handleAll_snoc (p : Process) (es : List (Request × Surroundings)) (e : Request × Surroundings) :
    m.handleAll p (es ++ [e]) = m.handle (m.handleAll p es) e := by
  simp [handleAll]

/-! ## What a request does to the process -/

theorem exec_tryReplicas (w : Surroundings) (key : Key) : ∀ (nodes : List NodeInfo) (s : Nat × Process),
    ((m.tryReplicas key nodes).exec w.env s).2.2 = s.2
  | [], s => rfl
  | node :: nodes, (t, p) => by
    have hask : ((m.askReplica key node).exec w.env (t, p)).2.2 = p := by
      unfold askReplica
      split <;> rfl
    unfold tryReplicas
    rw [Prog.exec_bind]
    split
    · exact hask
    · rw [exec_tryReplicas w key nodes, hask]

theorem exec_handleGet (w : Surroundings) (key : Key) (p : Process) :
    ((m.handleGet key).exec w.env (0, p)).2.2 = p := by
  unfold handleGet getReplicaNodes
  split
  · rfl
  · rw [Prog.exec_bind, exec_liveNodes, exec_tryReplicas]

theorem handle_put (w : Surroundings) (p : Process) (key : Key) (value : Value) :
    m.handle p (⟨.put, key, value⟩, w) =
      if m.LiveReplica w key then { p with store := (p.store.put key value).2 } else p :=
  m.exec_coordinate w (localPut key value) _ (fun _ _ => rfl) _ ⟨.put, key, value⟩ p

theorem handle_delete (w : Surroundings) (p : Process) (key : Key) (value : Value) :
    m.handle p (⟨.delete, key, value⟩, w) =
      if m.LiveReplica w key then { p with store := (p.store.del key).2 } else p :=
  m.exec_coordinate w (localDel key) _ (fun _ _ => rfl) _ ⟨.delete, key, []⟩ p

/-- No request touches the data directory; the store changes exactly if the request changes it. -/
theorem handle_spec (p : Process) (e : Request × Surroundings) :
    (m.handle p e).disk = p.disk ∧ ((m.handle p e).store = p.store ↔ ¬ m.ChangesStore p e) := by
  obtain ⟨⟨command, key, value⟩, w⟩ := e
  unfold ChangesStore
  cases command with
  | put =>
    rw [handle_put]
    by_cases hlive : m.LiveReplica w key
    · simp [hlive, KVStore.put_eq_self_iff]
    · simp [hlive]
  | delete =>
    rw [handle_delete]
    by_cases hlive : m.LiveReplica w key
    · simp [hlive, KVStore.del_eq_self_iff]
    · simp [hlive]
  | get => simp [handle, clusterHandler, exec_handleGet]
  | ping => simp [handle, clusterHandler]
  | other b hb => simp [handle, clusterHandler]

/-- One data directory recovers to one store, so a process that can be recovered can be recovered
after the next request exactly if the store is the same. -/
theorem recoverable_handle_iff {p : Process} (h : Recoverable p) (e : Request × Surroundings) :
    Recoverable (m.handle p e) ↔ ¬ m.ChangesStore p e := by
  obtain ⟨hdisk, hstore⟩ := m.handle_spec p e
  unfold Recoverable at h ⊢
  rw [hdisk, h, Option.some.injEq, ← hstore]
  exact eq_comm

end ReplicationManager

/-! ## Crashes -/

/-- A node that was started from its data directory can be recovered at every point between two
requests exactly if none of the requests changes its store. -/
theorem recoverable_iff (m : ReplicationManager) {p : Process} (hstart : Recoverable p)
    (es : List (Request × Surroundings)) :
    (∀ pre, pre <+: es → Recoverable (m.handleAll p pre)) ↔
      ∀ pre e, pre ++ [e] <+: es → ¬ m.ChangesStore (m.handleAll p pre) e := by
  constructor
  · intro hrec pre e hpre
    have hbefore := hrec pre ((List.prefix_append pre [e]).trans hpre)
    have hafter := hrec (pre ++ [e]) hpre
    rw [m.handleAll_snoc] at hafter
    exact (m.recoverable_handle_iff hbefore e).1 hafter
  · intro hkeep pre
    induction pre using List.reverseRecOn with
    | nil => exact fun _ => hstart
    | append_singleton pre e ih =>
      intro hpre
      have hbefore := ih ((List.prefix_append pre [e]).trans hpre)
      rw [m.handleAll_snoc]
      exact (m.recoverable_handle_iff hbefore e).2 (hkeep pre e hpre)

/-- A process started on an empty data directory. -/
def freshProcess : Process := ⟨KVStore.empty, Disk.empty⟩

theorem freshProcess_recoverable : Recoverable freshProcess := by decide +kernel

/-- Node `"c"` of the three, which sees all nodes UP and whose peers acknowledge everything. -/
def agreeingPeers : Surroundings := .ofViews (threeNodes.manager [99]) (fun _ _ => .up) fun _ _ _ => ⟨.ok, []⟩

theorem agreeingPeers_live : (threeNodes.replication [99]).LiveReplica agreeingPeers [107] :=
  Cluster.liveReplica (by rw [threeNodes_replicas]; decide) (fun _ _ h => by cases h) _

theorem recoverable_iff_deleteAbsent :
    Recoverable ((threeNodes.replication [99]).handleAll freshProcess [(⟨.delete, [107], []⟩, agreeingPeers)]) := by
  refine (recoverable_iff (threeNodes.replication [99]) freshProcess_recoverable _).2 ?_ _ (List.prefix_refl _)
  rintro pre e ⟨post, hpre⟩ ⟨-, hchange⟩
  cases pre with
  | nil =>
    simp only [List.nil_append, List.singleton_append, List.cons.injEq] at hpre
    obtain ⟨rfl, -⟩ := hpre
    rcases hchange with ⟨hput, -⟩ | ⟨-, hkey⟩
    · cases hput
    · exact hkey rfl
  | cons a pre => simp at hpre

/-- The primary of `"k"` takes a PUT of it that all replicas acknowledge, and a crash forgets it. -/
theorem put_not_recoverable :
    ¬ Recoverable ((threeNodes.replication [99]).handleAll freshProcess [(⟨.put, [107], [118]⟩, agreeingPeers)]) := by
  have hchange : (threeNodes.replication [99]).ChangesStore freshProcess (⟨.put, [107], [118]⟩, agreeingPeers) := by
    refine ⟨agreeingPeers_live, Or.inl ⟨rfl, by decide, ?_⟩⟩
    intro h
    cases h
  rw [ReplicationManager.handleAll_singleton, ReplicationManager.recoverable_handle_iff _ freshProcess_recoverable]
  exact not_not.2 hchange

end KvStore
