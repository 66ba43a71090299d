/-
Who waits for whom in a cluster: a task for the one that handles the request it has forwarded, and with
it a connection for the one that was opened for that (`Wired`). Each change that a step of the pools
makes to connections and tasks keeps the two in line.
-/
import KvStore.Cluster.Deployment

namespace KvStore

open Protocol

/-! ## What the tasks wait for -/

namespace System

variable {c : Cluster} {s s' : System} {i : Nat}

/-- The task that handles the request a task has forwarded. -/
def waits (s : System) (i : Nat) : Option Nat := s.tasks[i]?.bind (·.waitsFor)

theorem waits_of_getElem? {t : Task} (h : s.tasks[i]? = some t) : s.waits i = t.waitsFor := by
  unfold waits
  rw [h]
  rfl

/-- A new task waits for nothing. -/
theorem waits_push {id : NodeId} {prog : ClusterHandler Response} (h : s'.tasks = s.tasks ++ [⟨id, none, prog⟩]) :
    s'.waits = s.waits := by
  funext j
  unfold waits
  rw [h]
  rcases lt_trichotomy j s.tasks.length with hj | rfl | hj
  · rw [List.getElem?_append_left hj]
  · rw [List.getElem?_concat_length, List.getElem?_eq_none le_rfl]
    rfl
  · rw [List.getElem?_eq_none (by simp; omega), List.getElem?_eq_none hj.le]

theorem waits_set {t t' : Task} (hi : s.tasks[i]? = some t) (h : s'.tasks = s.tasks.set i t') :
    s'.waits = Function.update s.waits i t'.waitsFor := by
  funext j
  unfold waits
  rw [h, Function.update_apply]
  split
  · rename_i hj
    rw [hj, List.getElem?_set_self (List.getElem?_eq_some_iff.1 hi).1]
    rfl
  · rename_i hj
    rw [List.getElem?_set_ne (Ne.symm hj)]

/-! ### Step by step -/

theorem step_client {id : NodeId} {req : Request} (h : s.step c (.client id req) = some s') :
    id ∈ c.ids ∧ s'.tasks = s.tasks ++ [⟨id, none, (c.replication id).clusterHandler req⟩] := by
  obtain ⟨⟨hid, -⟩, h⟩ := Option.ite_none_right_eq_some.1 h
  cases h
  exact ⟨hid, rfl⟩

/-- A task goes on with the answer to its call. -/
def Resumes (s s' : System) (i : Nat) : Prop :=
  ∃ t call, ∃ next : call.Res → ClusterHandler Response, ∃ r, s.tasks[i]? = some t ∧ t.prog = .call call next ∧
    Answer call r ∧ s'.tasks = s.tasks.set i { t with waitsFor := none, prog := next r }

theorem Resumes.waits (h : Resumes s s' i) : s'.waits = Function.update s.waits i none := by
  obtain ⟨t, call, next, r, hi, -, -, htasks⟩ := h
  exact waits_set hi htasks

theorem Resumes.length (h : Resumes s s' i) : s'.tasks.length = s.tasks.length := by
  obtain ⟨t, call, next, r, hi, -, -, htasks⟩ := h
  rw [htasks, List.length_set]

theorem step_step (h : s.step c (.step i) = some s') :
    Resumes s s' i ∧ ∃ t, s.tasks[i]? = some t ∧ ∀ node req next, t.prog ≠ .call (.forward node req) next := by
  obtain ⟨t, hi, h⟩ := Option.bind_eq_some_iff.1 h
  split at h
  · rename_i op next hp
    cases h
    refine ⟨⟨t, .store op, next, _, hi, hp, trivial, rfl⟩, t, hi, ?_⟩
    intro node req next' heq
    rw [hp] at heq
    cases heq
  · rename_i id next hp
    cases h
    refine ⟨⟨t, .getNode id, next, _, hi, hp, fun n hn => ClusterManager.getNode_id hn, rfl⟩, t, hi, ?_⟩
    intro node req next' heq
    rw [hp] at heq
    cases heq
  · cases h

/-- A request arrives as it was sent, at a node of the cluster. -/
theorem Reachable.step_deliver (hr : Reachable c s) (h : s.step c (.deliver i) = some s') :
    ∃ t node req, ∃ next : Response → ClusterHandler Response, s.tasks[i]? = some t ∧ t.waitsFor = none ∧
      t.prog = .call (.forward node req) next ∧ node.id ∈ c.ids ∧
      s'.tasks = s.tasks.set i { t with waitsFor := some s.tasks.length } ++
        [⟨node.id, none, (c.replication node.id).clusterHandler req⟩] := by
  obtain ⟨t, hi, h⟩ := Option.bind_eq_some_iff.1 h
  split at h
  · rename_i node req next hw hp
    obtain ⟨req', hreq, h⟩ := Option.bind_eq_some_iff.1 h
    cases h
    have hcalls := hr.sound.calls t (List.mem_of_getElem? hi)
    rw [hp] at hcalls
    obtain ⟨hid, hfits, -⟩ := hcalls.1
    rw [receiveRequest_sent hfits] at hreq
    cases hreq
    exact ⟨t, node, req, next, hi, hw, hp, hid, rfl⟩
  · cases h

theorem getElem?_concat_set {tasks : List Task} {t u : Task} : (tasks.set i t ++ [u])[tasks.length]? = some u := by
  rw [List.getElem?_append_right (by simp), List.length_set, Nat.sub_self]
  rfl

theorem Reachable.waits_deliver (hr : Reachable c s) (h : s.step c (.deliver i) = some s') :
    s.waits i = none ∧ s'.waits = Function.update s.waits i (some s.tasks.length) ∧
      s'.tasks.length = s.tasks.length + 1 := by
  obtain ⟨t, node, req, next, hi, hw, -, -, htasks⟩ := hr.step_deliver h
  have hset : System.waits { s with tasks := s.tasks.set i { t with waitsFor := some s.tasks.length } } =
      Function.update s.waits i (some s.tasks.length) := by
    rw [waits_set hi (show _ = s.tasks.set i { t with waitsFor := some s.tasks.length } from rfl)]
  refine ⟨(waits_of_getElem? hi).trans hw, ?_, by simp [htasks]⟩
  rw [← hset]
  exact waits_push htasks

theorem step_respond (h : s.step c (.respond i) = some s') : Resumes s s' i := by
  obtain ⟨t, hi, h⟩ := Option.bind_eq_some_iff.1 h
  obtain ⟨j, -, h⟩ := Option.bind_eq_some_iff.1 h
  obtain ⟨callee, -, h⟩ := Option.bind_eq_some_iff.1 h
  split at h
  · rename_i node req next resp hp hresp
    cases h
    exact ⟨t, .forward node req, next, _, hi, hp, trivial, rfl⟩
  · cases h

theorem step_fail (h : s.step c (.fail i) = some s') : Resumes s s' i := by
  obtain ⟨t, hi, h⟩ := Option.bind_eq_some_iff.1 h
  split at h
  · rename_i node req next hp
    cases h
    exact ⟨t, .forward node req, next, _, hi, hp, trivial, rfl⟩
  · cases h

/-! ### Whom a task waits for -/

/-- A task that waits has forwarded a request to the node of the task it waits for. -/
def Links (tasks : List Task) (t : Task) : Prop :=
  ∀ j, t.waitsFor = some j → ∃ node req next callee, t.prog = .call (.forward node req) next ∧
    tasks[j]? = some callee ∧ callee.node = node.id

/-- The tasks stay where they are. -/
theorem Links.mono {tasks tasks' : List Task} {t : Task} (h : Links tasks t)
    (hkept : ∀ (j : Nat) u, tasks[j]? = some u → ∃ u', tasks'[j]? = some u' ∧ u'.node = u.node) : Links tasks' t := by
  intro j hj
  obtain ⟨node, req, next, callee, hp, hcallee, hnode⟩ := h j hj
  obtain ⟨callee', hcallee', hnode'⟩ := hkept j callee hcallee
  exact ⟨node, req, next, callee', hp, hcallee', hnode'.trans hnode⟩

theorem kept_append (tasks rest : List Task) (j : Nat) (u : Task) (hu : tasks[j]? = some u) :
    ∃ u', (tasks ++ rest)[j]? = some u' ∧ u'.node = u.node :=
  ⟨u, by rw [List.getElem?_append_left (List.getElem?_eq_some_iff.1 hu).1, hu], rfl⟩

theorem kept_set {tasks : List Task} {t t' : Task} (hi : tasks[i]? = some t) (hnode : t'.node = t.node) (j : Nat)
    (u : Task) (hu : tasks[j]? = some u) : ∃ u', (tasks.set i t')[j]? = some u' ∧ u'.node = u.node := by
  by_cases hij : i = j
  · subst hij
    rw [hi] at hu
    cases hu
    exact ⟨t', List.getElem?_set_self (List.getElem?_eq_some_iff.1 hi).1, hnode⟩
  · exact ⟨u, by rw [List.getElem?_set_ne hij, hu], rfl⟩

theorem links_set {tasks : List Task} {t t' : Task} (h : ∀ u ∈ tasks, Links tasks u) (hi : tasks[i]? = some t)
    (hnode : t'.node = t.node) (ht' : t'.waitsFor = none) : ∀ u ∈ tasks.set i t', Links (tasks.set i t') u := by
  refine Slots.all_set (fun u hu => (h u hu).mono (kept_set hi hnode)) ?_
  intro j hj
  rw [ht'] at hj
  cases hj

theorem Moves.links (h : Moves c s s') (hl : ∀ t ∈ s.tasks, Links s.tasks t) : ∀ t ∈ s'.tasks, Links s'.tasks t := by
  cases h with
  | arrive hid hfit =>
    intro t ht
    rcases List.mem_append.1 ht with ht | ht
    · exact (hl t ht).mono (kept_append _ _)
    · rw [List.mem_singleton.1 ht]
      intro j hj
      cases hj
  | store hi hp => exact links_set hl hi rfl rfl
  | answer call hi hp hr => exact links_set hl hi rfl rfl
  | forward hi hp hreq =>
    rename_i i t node req req' next
    have hkept : ∀ (j : Nat) u, s.tasks[j]? = some u → ∃ u',
        (s.tasks.set i { t with waitsFor := some s.tasks.length } ++
          [⟨node.id, none, (c.replication node.id).clusterHandler req'⟩])[j]? = some u' ∧ u'.node = u.node := by
      intro j u hu
      obtain ⟨u', hu', hnode⟩ :=
        kept_set hi (show ({ t with waitsFor := some s.tasks.length } : Task).node = t.node from rfl) j u hu
      obtain ⟨u'', hu'', hnode'⟩ :=
        kept_append _ [⟨node.id, none, (c.replication node.id).clusterHandler req'⟩] j u' hu'
      exact ⟨u'', hu'', hnode'.trans hnode⟩
    intro u hu
    rcases List.mem_append.1 hu with hu | hu
    · rcases List.mem_or_eq_of_mem_set hu with hu | rfl
      · exact (hl u hu).mono hkept
      · -- the task that forwards waits for the new one
        intro j hj
        cases hj
        exact ⟨node, req, next, _, hp, getElem?_concat_set, rfl⟩
    · rw [List.mem_singleton.1 hu]
      intro j hj
      cases hj
  | views => exact hl

theorem Reachable.links (h : Reachable c s) : ∀ t ∈ s.tasks, Links s.tasks t := by
  obtain ⟨es, hruns⟩ := h
  refine hruns.invariant (I := fun s => ∀ t ∈ s.tasks, Links s.tasks t) ?_ ?_
  · exact fun s e s' hs _ he => (step_moves he).links hs
  · intro t ht
    cases ht

/-- Only a task that has forwarded a request waits. -/
theorem Reachable.forwards (h : Reachable c s) {t : Task} (ht : t ∈ s.tasks) (hw : t.waitsFor ≠ none) :
    ∃ node req next, t.prog = .call (.forward node req) next := by
  obtain ⟨j, hj⟩ := Option.ne_none_iff_exists'.1 hw
  obtain ⟨node, req, next, -, hp, -⟩ := h.links t ht j hj
  exact ⟨node, req, next, hp⟩

/-! ### What can happen -/

theorem exists_store {t : Task} {op : StoreCall} {next : op.Res → ClusterHandler Response}
    (hi : s.tasks[i]? = some t) (hp : t.prog = .call (.store op) next) : ∃ s', s.step c (.step i) = some s' :=
  ⟨_, by simp only [step, hi, hp, Option.bind_eq_bind, Option.bind_some]; rfl⟩

theorem exists_lookUp {t : Task} {id : NodeId} {next : Option NodeInfo → ClusterHandler Response}
    (hi : s.tasks[i]? = some t) (hp : t.prog = .call (.getNode id) next) : ∃ s', s.step c (.step i) = some s' :=
  ⟨_, by simp only [step, hi, hp, Option.bind_eq_bind, Option.bind_some]; rfl⟩

theorem exists_deliver {t : Task} {node : NodeInfo} {req : Request} {next : Response → ClusterHandler Response}
    (hi : s.tasks[i]? = some t) (hw : t.waitsFor = none) (hp : t.prog = .call (.forward node req) next)
    (hfit : req.FitsFrame) : ∃ s', s.step c (.deliver i) = some s' :=
  ⟨_, by simp only [step, hi, hw, hp, receiveRequest_sent hfit, Option.bind_eq_bind, Option.bind_some]; rfl⟩

theorem exists_fail {t : Task} {node : NodeInfo} {req : Request} {next : Response → ClusterHandler Response}
    (hi : s.tasks[i]? = some t) (hp : t.prog = .call (.forward node req) next) : ∃ s', s.step c (.fail i) = some s' :=
  ⟨_, by simp only [step, hi, hp, Option.bind_eq_bind, Option.bind_some]; rfl⟩

theorem exists_respond (hr : Reachable c s) {j : Nat} {t callee : Task} {resp : Response}
    (hi : s.tasks[i]? = some t) (hw : t.waitsFor = some j) (hj : s.tasks[j]? = some callee)
    (hret : callee.prog = .ret resp) : ∃ s', s.step c (.respond i) = some s' := by
  obtain ⟨node, req, next, hp⟩ := hr.forwards (List.mem_of_getElem? hi) (by rw [hw]; exact Option.some_ne_none j)
  exact ⟨_, by simp only [step, hi, hw, hj, hp, hret, Option.bind_eq_bind, Option.bind_some]; rfl⟩

end System

/-! ## Who waits for whom -/

/-- The connections, the number of tasks, what the tasks wait for and which nodes are dead. A task is that of one
connection. The task of a connection at a living node waits if and only if there is a later connection, opened by
it and still open, with a task; then it has a worker. -/
structure Wired (conns : Nat → Connection) (opened len : Nat) (waits : Nat → Option Nat) (dead : NodeId → Bool) :
    Prop where
  unopened : ∀ k, opened ≤ k →
    (conns k).connected = false ∧ (conns k).task = none ∧ (conns k).caller = none ∧ (conns k).place = .queue
  known : ∀ k i, (conns k).task = some i → i < len
  fresh : ∀ i, len ≤ i → waits i = none
  distinct : ∀ k k' i, (conns k).task = some i → (conns k').task = some i → k = k'
  waiting : ∀ k i j, (conns k).task = some i → waits i = some j → dead (conns k).node = false →
    (conns k).place = .worker ∧
      ∃ k' > k, (conns k').caller = some k ∧ (conns k').connected = true ∧ (conns k').task = some j
  called : ∀ k k', (conns k').caller = some k → (conns k').connected = true →
    ∃ i j, (conns k).task = some i ∧ waits i = some j ∧ (conns k').task = some j
  gone : ∀ k, (conns k).place = .gone → (conns k).task = none ∧ (conns k).connected = false

namespace Wired

variable {conns : Nat → Connection} {opened len : Nat} {waits : Nat → Option Nat} {dead : NodeId → Bool} {k i : Nat}

theorem lt_opened (h : Wired conns opened len waits dead) (hi : (conns k).task = some i) : k < opened := by
  by_contra hk
  rw [(h.unopened k (Nat.not_lt.1 hk)).2.1] at hi
  cases hi

theorem lt_opened_of_connected (h : Wired conns opened len waits dead) (hopen : (conns k).connected = true) :
    k < opened := by
  by_contra hk
  rw [(h.unopened k (Nat.not_lt.1 hk)).1] at hopen
  cases hopen

theorem lt_opened_of_worker (h : Wired conns opened len waits dead) (hplace : (conns k).place = .worker) :
    k < opened := by
  by_contra hk
  rw [(h.unopened k (Nat.not_lt.1 hk)).2.2.2] at hplace
  cases hplace

/-- What a connection has to keep when it changes, for the others not to notice. -/
theorem setConn (h : Wired conns opened len waits dead) {conn : Connection} (hk : k < opened)
    (hnode : conn.node = (conns k).node) (hcaller : conn.caller = (conns k).caller)
    (htask : ∀ i, conn.task = some i → (conns k).task = some i)
    (hkept : ∀ i j, (conns k).task = some i → waits i = some j →
      conn.task = some i ∧ (dead (conns k).node = false → conn.place = .worker))
    (hcall : ∀ k₀, (conns k).caller = some k₀ → (conns k).connected = true →
      conn.connected = true ∧ conn.task = (conns k).task)
    (hnew : conn.connected = true → (conns k).connected = true)
    (hgone : conn.place = .gone → conn.task = none ∧ conn.connected = false) :
    Wired (Function.update conns k conn) opened len waits dead := by
  have heq : ∀ k₁, k₁ ≠ k → Function.update conns k conn k₁ = conns k₁ := fun k₁ hne => Function.update_of_ne hne _ _
  have hself : Function.update conns k conn k = conn := Function.update_self _ _ _
  have htask' : ∀ k₁ i, (Function.update conns k conn k₁).task = some i → (conns k₁).task = some i := by
    intro k₁ i hi
    by_cases hk₁ : k₁ = k
    · subst hk₁
      rw [hself] at hi
      exact htask i hi
    · rwa [heq k₁ hk₁] at hi
  -- a call that is awaited stays as it is
  have hcall' : ∀ k₀ k₁, (conns k₁).caller = some k₀ → (conns k₁).connected = true →
      (Function.update conns k conn k₁).caller = some k₀ ∧ (Function.update conns k conn k₁).connected = true ∧
        (Function.update conns k conn k₁).task = (conns k₁).task := by
    intro k₀ k₁ hc ho
    by_cases hk₁ : k₁ = k
    · subst hk₁
      rw [hself]
      exact ⟨hcaller.trans hc, hcall k₀ hc ho⟩
    · rw [heq k₁ hk₁]
      exact ⟨hc, ho, rfl⟩
  constructor
  · intro k₁ hk₁
    rw [heq k₁ (by omega)]
    exact h.unopened k₁ hk₁
  · exact fun k₁ i hi => h.known k₁ i (htask' k₁ i hi)
  · exact h.fresh
  · exact fun k₁ k₂ i h₁ h₂ => h.distinct k₁ k₂ i (htask' k₁ i h₁) (htask' k₂ i h₂)
  · intro k₁ i j hi hj hlive
    have hlive' : dead (conns k₁).node = false := by
      by_cases hk₁ : k₁ = k
      · subst hk₁
        rwa [hself, hnode] at hlive
      · rwa [heq k₁ hk₁] at hlive
    obtain ⟨hplace, k', hlt, hc, ho, ht⟩ := h.waiting k₁ i j (htask' k₁ i hi) hj hlive'
    obtain ⟨hc', ho', ht'⟩ := hcall' k₁ k' hc ho
    refine ⟨?_, k', hlt, hc', ho', ht'.trans ht⟩
    by_cases hk₁ : k₁ = k
    · subst hk₁
      rw [hself]
      exact (hkept i j (htask' k₁ i hi) hj).2 hlive'
    · rwa [heq k₁ hk₁]
  · intro k₀ k₁ hc ho
    have hold : (conns k₁).caller = some k₀ ∧ (conns k₁).connected = true := by
      by_cases hk₁ : k₁ = k
      · subst hk₁
        rw [hself] at hc ho
        exact ⟨hcaller.symm.trans hc, hnew ho⟩
      · rw [heq k₁ hk₁] at hc ho
        exact ⟨hc, ho⟩
    obtain ⟨i, j, hi, hj, ht⟩ := h.called k₀ k₁ hold.1 hold.2
    refine ⟨i, j, ?_, hj, (hcall' k₀ k₁ hold.1 hold.2).2.2.trans ht⟩
    by_cases hk₀ : k₀ = k
    · subst hk₀
      rw [hself]
      exact (hkept i j hi hj).1
    · rwa [heq k₀ hk₀]
  · intro k₁ hg
    by_cases hk₁ : k₁ = k
    · subst hk₁
      rw [hself] at hg ⊢
      exact hgone hg
    · rw [heq k₁ hk₁] at hg ⊢
      exact h.gone k₁ hg

/-- A client's connection. -/
theorem connect (h : Wired conns opened len waits dead) (id : NodeId) :
    Wired (Function.update conns opened ⟨id, none, .queue, true, none⟩) (opened + 1) len waits dead := by
  obtain ⟨hunopened, hknown, hfresh, hdistinct, hwaiting, hcalled, hgone⟩ := h
  have hnobody := hunopened opened le_rfl
  constructor
  case fresh => exact hfresh
  all_goals
    simp only [Function.update_apply]
    grind

/-- A task that nobody knows yet is that of a client's connection. -/
theorem send (h : Wired conns opened len waits dead) (hcaller : (conns k).caller = none)
    (hopen : (conns k).connected = true) (htask : (conns k).task = none) :
    Wired (Function.update conns k { conns k with task := some len }) opened (len + 1) waits dead := by
  obtain ⟨hunopened, hknown, hfresh, hdistinct, hwaiting, hcalled, hgone⟩ := h
  constructor
  case fresh => exact fun j hj => hfresh j (by omega)
  all_goals
    simp only [Function.update_apply]
    grind

/-- A task opens a connection for a new task and waits for it. -/
theorem forward (h : Wired conns opened len waits dead) (hplace : (conns k).place = .worker)
    (hi : (conns k).task = some i) (hw : waits i = none) (id : NodeId) :
    Wired (Function.update conns opened ⟨id, some k, .queue, true, some len⟩) (opened + 1) (len + 1)
      (Function.update waits i (some len)) dead := by
  have hk := h.lt_opened hi
  have hlen := h.known k i hi
  generalize hconns : Function.update conns opened ⟨id, some k, .queue, true, some len⟩ = conns'
  have hnew : conns' opened = ⟨id, some k, .queue, true, some len⟩ := by rw [← hconns, Function.update_self]
  have hold : ∀ k₁, k₁ ≠ opened → conns' k₁ = conns k₁ := fun k₁ hne => by rw [← hconns, Function.update_of_ne hne]
  have hwait : ∀ j, j ≠ i → Function.update waits i (some len) j = waits j :=
    fun j hne => Function.update_of_ne hne _ _
  constructor
  case waiting =>
    intro k₁ i₁ j hi₁ hj hlive
    by_cases hk₁ : k₁ = opened
    · -- the new task waits for nothing
      rw [hk₁, hnew] at hi₁
      cases hi₁
      rw [hwait len hlen.ne', h.fresh len le_rfl] at hj
      cases hj
    · rw [hold k₁ hk₁] at hi₁ hlive ⊢
      by_cases heq : i₁ = i
      · subst heq
        rw [Function.update_self] at hj
        cases h.distinct k₁ k i₁ hi₁ hi
        exact ⟨hplace, opened, hk, by rw [hnew], by rw [hnew], by rw [hnew]; exact hj⟩
      · rw [hwait i₁ heq] at hj
        obtain ⟨hplace₁, k', hlt, hcaller, hopen, htask⟩ := h.waiting k₁ i₁ j hi₁ hj hlive
        refine ⟨hplace₁, k', hlt, ?_⟩
        rw [hold k' (h.lt_opened htask).ne]
        exact ⟨hcaller, hopen, htask⟩
  case called =>
    intro k₀ k₁ hcaller hopen
    by_cases hk₁ : k₁ = opened
    · rw [hk₁, hnew] at hcaller
      cases hcaller
      exact ⟨i, len, by rw [hold k hk.ne]; exact hi, Function.update_self _ _ _, by rw [hk₁, hnew]⟩
    · rw [hold k₁ hk₁] at hcaller hopen ⊢
      obtain ⟨i₀, j, hi₀, hj, htask⟩ := h.called k₀ k₁ hcaller hopen
      refine ⟨i₀, j, ?_, ?_, htask⟩
      · rw [hold k₀ (h.lt_opened hi₀).ne]
        exact hi₀
      · -- the task that waits now did not wait before
        rw [hwait i₀ ?_]
        · exact hj
        · rintro rfl
          rw [hw] at hj
          cases hj
  case fresh => exact fun j hj => by rw [hwait j (by omega), h.fresh j (by omega)]
  case unopened => exact fun k₁ hk₁ => by rw [hold k₁ (by omega)]; exact h.unopened k₁ (by omega)
  case known =>
    intro k₁ i₁ hi₁
    by_cases hk₁ : k₁ = opened
    · rw [hk₁, hnew] at hi₁
      cases hi₁
      exact Nat.lt_succ_self _
    · rw [hold k₁ hk₁] at hi₁
      exact Nat.lt_succ_of_lt (h.known k₁ i₁ hi₁)
  case distinct =>
    obtain ⟨hknown, hdistinct⟩ := And.intro h.known h.distinct
    intro k₁ k₂ i₁ h₁ h₂
    by_cases hk₁ : k₁ = opened <;> by_cases hk₂ : k₂ = opened <;> grind
  case gone =>
    intro k₁ hg
    by_cases hk₁ : k₁ = opened
    · rw [hk₁, hnew] at hg
      cases hg
    · rw [hold k₁ hk₁] at hg ⊢
      exact h.gone k₁ hg

/-- Some connections are closed, namely those whose callers no longer wait, or are dead. -/
theorem close (h : Wired conns opened len waits dead) (closes : Connection → Bool) {waits' : Nat → Option Nat}
    {dead' : NodeId → Bool} (hdead : ∀ id, dead' id = false → dead id = false)
    (hwaits : ∀ i j, waits' i = some j → waits i = some j)
    (hkept : ∀ k k' i, (conns k').caller = some k → (conns k).task = some i → waits' i ≠ none →
      dead' (conns k).node = false → closes (conns k') = false)
    (hopen : ∀ k k' i j, (conns k').caller = some k → (conns k).task = some i → waits i = some j →
      closes (conns k') = false → waits' i = some j) :
    Wired (fun j => if closes (conns j) then { conns j with connected := false } else conns j) opened len waits'
      dead' := by
  generalize hconns : (fun j => if closes (conns j) then { conns j with connected := false } else conns j) = conns'
  have hclosed : ∀ k₁, closes (conns k₁) = true → conns' k₁ = { conns k₁ with connected := false } := by
    intro k₁ hk₁
    rw [← hconns]
    exact if_pos hk₁
  have hothers : ∀ k₁, closes (conns k₁) = false → conns' k₁ = conns k₁ := by
    intro k₁ hk₁
    rw [← hconns]
    exact if_neg (by rw [hk₁]; exact Bool.false_ne_true)
  -- only the ends of some connections have changed
  have hsame : ∀ k₁, (conns' k₁).node = (conns k₁).node ∧ (conns' k₁).caller = (conns k₁).caller ∧
      (conns' k₁).task = (conns k₁).task ∧ (conns' k₁).place = (conns k₁).place := by
    intro k₁
    cases hk₁ : closes (conns k₁) with
    | true =>
      rw [hclosed k₁ hk₁]
      exact ⟨rfl, rfl, rfl, rfl⟩
    | false =>
      rw [hothers k₁ hk₁]
      exact ⟨rfl, rfl, rfl, rfl⟩
  have hstill : ∀ k₁, (conns' k₁).connected = true → closes (conns k₁) = false := by
    intro k₁ hopen₁
    by_contra hk₁
    rw [hclosed k₁ (by simpa using hk₁)] at hopen₁
    cases hopen₁
  constructor
  case waiting =>
    intro k₁ i₁ j hi₁ hj hlive
    rw [(hsame k₁).2.2.1] at hi₁
    rw [(hsame k₁).1] at hlive
    obtain ⟨hplace, k', hlt, hcaller, hopen', htask⟩ := h.waiting k₁ i₁ j hi₁ (hwaits i₁ j hj) (hdead _ hlive)
    refine ⟨by rw [(hsame k₁).2.2.2]; exact hplace, k', hlt, ?_⟩
    rw [hothers k' (hkept k₁ k' i₁ hcaller hi₁ (by rw [hj]; exact Option.some_ne_none j) hlive)]
    exact ⟨hcaller, hopen', htask⟩
  case called =>
    intro k₀ k₁ hcaller hopen₁
    have hk₁ := hstill k₁ hopen₁
    rw [hothers k₁ hk₁] at hcaller hopen₁ ⊢
    obtain ⟨i₀, j, hi₀, hj, htask⟩ := h.called k₀ k₁ hcaller hopen₁
    exact ⟨i₀, j, by rw [(hsame k₀).2.2.1]; exact hi₀, hopen k₀ k₁ i₀ j hcaller hi₀ hj hk₁, htask⟩
  case fresh =>
    intro i₁ hi₁
    cases hw : waits' i₁ with
    | none => rfl
    | some j =>
      have hold := hwaits i₁ j hw
      rw [h.fresh i₁ hi₁] at hold
      cases hold
  case unopened =>
    intro k₁ hk₁
    obtain ⟨hconnected, htask, hcaller, hplace⟩ := h.unopened k₁ hk₁
    rw [(hsame k₁).2.2.1, (hsame k₁).2.1, (hsame k₁).2.2.2]
    refine ⟨?_, htask, hcaller, hplace⟩
    cases hk : closes (conns k₁) with
    | true => rw [hclosed k₁ hk]
    | false => rw [hothers k₁ hk, hconnected]
  case known => exact fun k₁ i₁ hi₁ => h.known k₁ i₁ (by rw [← (hsame k₁).2.2.1]; exact hi₁)
  case distinct =>
    intro k₁ k₂ i₁ h₁ h₂
    rw [(hsame k₁).2.2.1] at h₁
    rw [(hsame k₂).2.2.1] at h₂
    exact h.distinct k₁ k₂ i₁ h₁ h₂
  case gone =>
    intro k₁ hg
    rw [(hsame k₁).2.2.2] at hg
    obtain ⟨htask, hconnected⟩ := h.gone k₁ hg
    refine ⟨by rw [(hsame k₁).2.2.1]; exact htask, ?_⟩
    cases hk : closes (conns k₁) with
    | true => rw [hclosed k₁ hk]
    | false => rw [hothers k₁ hk, hconnected]

/-- A task no longer waits, and the connection it had opened is closed. -/
theorem endCall (h : Wired conns opened len waits dead) (hi : (conns k).task = some i) :
    Wired (fun j => if decide ((conns j).caller = some k) then { conns j with connected := false } else conns j)
      opened len (Function.update waits i none) dead := by
  refine h.close (fun conn => decide (conn.caller = some k)) (fun _ hlive => hlive) ?_ ?_ ?_
  · intro i₁ j hj
    by_cases hi₁ : i₁ = i
    · rw [hi₁, Function.update_self] at hj
      cases hj
    · rwa [Function.update_of_ne hi₁] at hj
  · intro k₁ k' i₁ hcaller hi₁ hw _
    refine decide_eq_false ?_
    rw [hcaller]
    rintro ⟨rfl⟩
    rw [hi] at hi₁
    cases hi₁
    exact hw (Function.update_self _ _ _)
  · intro k₁ k' i₁ j hcaller hi₁ hj hnot
    rw [Function.update_of_ne ?_, hj]
    -- the task is another one, since the connection is
    rintro rfl
    cases h.distinct k₁ k i₁ hi₁ hi
    exact of_decide_eq_false hnot hcaller

/-- A node dies. -/
theorem die (h : Wired conns opened len waits dead) (id : NodeId) :
    Wired (fun j => if (conns j).caller.any fun k => decide ((conns k).node = id) then
      { conns j with connected := false } else conns j) opened len waits (Function.update dead id true) := by
  refine h.close (fun conn => conn.caller.any fun k => decide ((conns k).node = id)) ?_ (fun _ _ hj => hj) ?_
    (fun _ _ _ _ _ _ hj _ => hj)
  · intro id' hlive
    rw [Function.update_apply] at hlive
    split at hlive
    · cases hlive
    · exact hlive
  · intro k₁ k' i₁ hcaller hi₁ _ hlive
    rw [hcaller, Option.any_some]
    refine decide_eq_false ?_
    rintro rfl
    rw [Function.update_self] at hlive
    cases hlive

end Wired

end KvStore
