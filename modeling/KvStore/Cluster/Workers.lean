/-
The workers of a cluster (`Deployment`). A run of the pools is a run of the system
(`reachable_system`). When nothing moves any more, whoever still waits at a living node does so for
one whose workers are all taken (`cluster_quiet`).
-/
import KvStore.Cluster.Linear
import KvStore.Cluster.Waiting

namespace KvStore

open Machine

/-! ## Connections and their tasks -/

/-- A relation between every connection and its task. -/
def Serves (P : Connection → Task → Prop) (conns : Nat → Connection) (tasks : List Task) : Prop :=
  ∀ k i t, (conns k).task = some i → tasks[i]? = some t → P (conns k) t

/-- A relation that holds when a request arrives and that no step of the task breaks. -/
structure Lasting (c : Cluster) (P : Connection → Task → Prop) : Prop where
  same : ∀ {conn conn' t}, conn'.node = conn.node → conn'.caller = conn.caller → P conn t → P conn' t
  waits : ∀ {conn t} w, P conn t → P conn { t with waitsFor := w }
  resume : ∀ {conn t call} {next : call.Res → ClusterHandler Response} {r}, P conn t → t.prog = .call call next →
    System.Answer call r → P conn { t with waitsFor := none, prog := next r }
  send : ∀ {conn req}, conn.caller = none → conn.node ∈ c.ids →
    P conn ⟨conn.node, none, (c.replication conn.node).clusterHandler req⟩
  forward : ∀ {conn conn' t node req next}, P conn t → t.prog = .call (.forward node req) next → node.id ∈ c.ids →
    conn'.node = node.id → P conn' ⟨node.id, none, (c.replication node.id).clusterHandler req⟩

namespace Serves

variable {P : Connection → Task → Prop} {conns conns' : Nat → Connection} {tasks : List Task}

/-- Connections that keep their node and their caller, and have no new task. -/
theorem reconnect {c : Cluster} (hP : Lasting c P) (h : Serves P conns tasks)
    (hconns : ∀ k, (conns' k).node = (conns k).node ∧ (conns' k).caller = (conns k).caller ∧
      ∀ i, (conns' k).task = some i → (conns k).task = some i) : Serves P conns' tasks := by
  intro k i t hi ht
  obtain ⟨hnode, hcaller, htask⟩ := hconns k
  exact hP.same hnode hcaller (h k i t (htask i hi) ht)

theorem set (h : Serves P conns tasks) {i : Nat} {t t' : Task} (hi : tasks[i]? = some t)
    (ht' : ∀ conn, P conn t → P conn t') : Serves P conns (tasks.set i t') := by
  intro k j u hj hu
  by_cases hij : i = j
  · subst hij
    rw [List.getElem?_set_self (List.getElem?_eq_some_iff.1 hi).1] at hu
    cases hu
    exact ht' _ (h k i t hj hi)
  · rw [List.getElem?_set_ne hij] at hu
    exact h k j u hj hu

theorem push (h : Serves P conns tasks) (hknown : ∀ k i, (conns k).task = some i → i < tasks.length) (t : Task) :
    Serves P conns (tasks ++ [t]) := by
  intro k i u hi hu
  rw [List.getElem?_append_left (hknown k i hi)] at hu
  exact h k i u hi hu

theorem update (h : Serves P conns tasks) (k : Nat) {conn : Connection}
    (hconn : ∀ i t, conn.task = some i → tasks[i]? = some t → P conn t) :
    Serves P (Function.update conns k conn) tasks := by
  intro j i t hi ht
  by_cases hj : j = k
  · subst hj
    rw [Function.update_self] at hi ⊢
    exact hconn i t hi ht
  · rw [Function.update_of_ne hj] at hi ⊢
    exact h j i t hi ht

theorem resume {c : Cluster} (hP : Lasting c P) {s s' : System} {i : Nat} (h : Serves P conns s.tasks)
    (hres : System.Resumes s s' i) : Serves P conns s'.tasks := by
  obtain ⟨t, call, next, r, hi, hp, hr, htasks⟩ := hres
  rw [htasks]
  exact h.set hi fun conn ht => hP.resume ht hp hr

end Serves

namespace Deployment

variable {c : Cluster} {n : Nat} {d d' : Deployment} {e : DeploymentEvent} {P : Connection → Task → Prop}

theorem current_eq_some {k i : Nat} :
    d.current k = some i ↔ (d.conns k).place = .worker ∧ d.Alive k ∧ (d.conns k).task = some i := by
  unfold current
  split <;> simp_all

/-! ### What the changes leave as it is -/

theorem setConn_self (k : Nat) (conn : Connection) : (d.setConn k conn).conns k = conn := Function.update_self _ _ _

theorem setConn_of_ne {j k : Nat} (h : j ≠ k) (conn : Connection) : (d.setConn k conn).conns j = d.conns j :=
  Function.update_of_ne h _ _

theorem add_self (conn : Connection) : (d.add conn).conns d.opened = conn := Function.update_self _ _ _

theorem add_of_ne {j : Nat} (h : j ≠ d.opened) (conn : Connection) : (d.add conn).conns j = d.conns j :=
  Function.update_of_ne h _ _

theorem setConn_congr {α : Type} (f : Connection → α) {k : Nat} {conn : Connection} (h : f conn = f (d.conns k))
    (j : Nat) : f ((d.setConn k conn).conns j) = f (d.conns j) := by
  by_cases hj : j = k
  · subst hj
    rw [setConn_self]
    exact h
  · rw [setConn_of_ne hj]

theorem close_congr {α : Type} (f : Connection → α) (h : ∀ conn, f { conn with connected := false } = f conn)
    (closes : Connection → Bool) (j : Nat) : f ((d.close closes).conns j) = f (d.conns j) := by
  unfold close
  dsimp only
  split
  · exact h _
  · rfl

theorem endCall_congr {α : Type} (f : Connection → α) (h : ∀ conn, f { conn with connected := false } = f conn)
    (k j : Nat) : f ((d.endCall k).conns j) = f (d.conns j) :=
  close_congr f h (fun conn => decide (conn.caller = some k)) j

theorem die_congr {α : Type} (f : Connection → α) (h : ∀ conn, f { conn with connected := false } = f conn)
    (id : NodeId) (j : Nat) : f ((d.die id).conns j) = f (d.conns j) :=
  close_congr f h (fun conn => conn.caller.any fun k => decide ((d.conns k).node = id)) j

/-! ### Every step -/

theorem serves_congr (hP : Lasting c P) {tasks : List Task} (h : Serves P d.conns tasks)
    (hsame : ∀ k, ((d'.conns k).node, (d'.conns k).caller, (d'.conns k).task) =
      ((d.conns k).node, (d.conns k).caller, (d.conns k).task)) : Serves P d'.conns tasks := by
  refine h.reconnect hP fun k => ?_
  have hk := hsame k
  simp only [Prod.mk.injEq] at hk
  exact ⟨hk.1, hk.2.1, fun i hi => hk.2.2.symm.trans hi⟩

theorem serves_endCall (hP : Lasting c P) {tasks : List Task} (h : Serves P d.conns tasks) (k : Nat) :
    Serves P (d.endCall k).conns tasks :=
  serves_congr hP h (endCall_congr (fun conn => (conn.node, conn.caller, conn.task)) (fun _ => rfl) k)

theorem serves_setConn (hP : Lasting c P) {tasks : List Task} (h : Serves P d.conns tasks) {k : Nat}
    {conn : Connection} (hnode : conn.node = (d.conns k).node) (hcaller : conn.caller = (d.conns k).caller)
    (htask : ∀ i, conn.task = some i → (d.conns k).task = some i) : Serves P (d.setConn k conn).conns tasks :=
  h.update k fun i t hi ht => hP.same hnode hcaller (h k i t (htask i hi) ht)

theorem Takes.serves (hP : Lasting c P) (h : Takes c n d e d') (hr : System.Reachable c d.system)
    (hknown : ∀ k i, (d.conns k).task = some i → i < d.system.tasks.length)
    (hserves : Serves P d.conns d.system.tasks) : Serves P d'.conns d'.system.tasks := by
  cases h with
  | connect => exact hserves.update _ fun i t hi => by cases hi
  | send hcaller hopen htask hlive hstep =>
    rename_i k req s
    obtain ⟨hid, htasks⟩ := System.step_client hstep
    show Serves P (Function.update d.conns k _) s.tasks
    rw [htasks]
    refine (hserves.push hknown _).update k fun i t hi ht => ?_
    cases hi
    rw [List.getElem?_concat_length] at ht
    cases ht
    refine hP.same ?_ ?_ (hP.send hcaller hid)
    · rfl
    · rfl
  | take | hangUp | leave => exact serves_setConn hP hserves rfl rfl fun i hi => hi
  | work hi hstep => exact hserves.resume hP (System.step_step hstep).1
  | forward hi hstep ht =>
    rename_i k i s t' _
    obtain ⟨t, node, req, next, hti, -, hp, hid, htasks⟩ := hr.step_deliver hstep
    obtain ⟨-, -, htask⟩ := current_eq_some.1 hi
    rw [htasks, System.getElem?_concat_set] at ht
    cases ht
    show Serves P (Function.update d.conns d.opened _) s.tasks
    rw [htasks]
    have hset : Serves P d.conns (d.system.tasks.set i { t with waitsFor := some d.system.tasks.length }) :=
      hserves.set hti fun conn ht => hP.waits _ ht
    refine (hset.push ?_ _).update _ fun j u hj hu => ?_
    · intro j u hu
      rw [List.length_set]
      exact hknown j u hu
    · cases hj
      rw [System.getElem?_concat_set] at hu
      cases hu
      exact hP.forward (hserves k i t htask hti) hp hid rfl
  | finish => exact serves_setConn hP hserves rfl rfl fun i hi => by cases hi
  | respond hi ht hret hcaller hopen hj hstep =>
    rename_i k i caller j t resp s
    have hended := serves_endCall hP (hserves.resume hP (System.step_respond hstep)) caller
    exact serves_setConn hP hended rfl rfl fun i hi => by cases hi
  | lose hi hdead hstep => exact serves_endCall hP (hserves.resume hP (System.step_fail hstep)) _
  | fail hi hstep => exact serves_endCall hP (hserves.resume hP (System.step_fail hstep)) _
  | kill | crash =>
    exact serves_congr hP hserves (die_congr (fun conn => (conn.node, conn.caller, conn.task)) (fun _ => rfl) _)
  | status hstep =>
    cases hstep
    exact hserves

/-- A task is at the node of its connection. -/
theorem lasting_node : Lasting c fun conn t => t.node = conn.node where
  same hnode _ h := h.trans hnode.symm
  waits _ h := h
  resume h _ _ := h
  send _ _ := rfl
  forward _ _ _ hnode := hnode.symm

/-- The system is in a state that it can reach, the connections belong together and to their tasks, and no node
has more workers than it has. -/
structure Sound (c : Cluster) (n : Nat) (d : Deployment) : Prop where
  system : System.Reachable c d.system
  wired : Wired d.conns d.opened d.system.tasks.length d.system.waits d.dead
  served : Serves (fun conn t => t.node = conn.node) d.conns d.system.tasks
  pooled : ∀ id, (d.taken id).card ≤ n

/-- Every step of the pools is a step of the system, or none. -/
theorem Takes.system (h : Takes c n d e d') :
    d'.system = d.system ∨ ∃ e, d.system.step c e = some d'.system := by
  cases h with
  | connect | take | finish | hangUp | kill | leave | crash => exact .inl rfl
  | send _ _ _ _ hs | work _ hs | forward _ hs _ _ | respond _ _ _ _ _ _ hs | lose _ _ hs | fail _ hs | status hs =>
    exact .inr ⟨_, hs⟩

theorem Takes.reachable (h : Takes c n d e d') (hr : System.Reachable c d.system) : System.Reachable c d'.system := by
  rcases h.system with heq | ⟨e, he⟩
  · rw [heq]
    exact hr
  · obtain ⟨es, hruns⟩ := hr
    exact ⟨es ++ [e], hruns.snoc trivial he⟩

/-- What a waiting task and a finished one do not have in common. -/
theorem waits_of_ret (hr : System.Reachable c d.system) {i : Nat} {t : Task} {resp : Response}
    (ht : d.system.tasks[i]? = some t) (hret : t.prog = .ret resp) : d.system.waits i = none := by
  rw [System.waits_of_getElem? ht]
  by_contra hw
  obtain ⟨node, req, next, hp⟩ := hr.forwards (List.mem_of_getElem? ht) hw
  rw [hret] at hp
  cases hp

theorem wired_fail {k i : Nat} {s : System} (hw : Wired d.conns d.opened d.system.tasks.length d.system.waits d.dead)
    (hi : (d.conns k).task = some i) (hres : System.Resumes d.system s i) :
    Wired (d.endCall k).conns d.opened s.tasks.length s.waits d.dead := by
  rw [hres.waits, hres.length]
  exact hw.endCall hi

theorem Takes.wired (h : Takes c n d e d') (hs : Sound c n d) :
    Wired d'.conns d'.opened d'.system.tasks.length d'.system.waits d'.dead := by
  have hw := hs.wired
  cases h with
  | connect hid hlive => exact hw.connect _
  | send hcaller hopen htask hlive hstep =>
    obtain ⟨-, htasks⟩ := System.step_client hstep
    have := hw.send hcaller hopen htask
    show Wired (Function.update _ _ _) _ _ (System.waits _) _
    rw [System.waits_push htasks, htasks, List.length_append]
    exact this
  | take hk hfirst hfree hlive =>
    refine hw.setConn hk rfl rfl (fun i hi => hi) ?_ (fun k₀ hcaller hopen => ⟨hopen, rfl⟩) id ?_
    · exact fun i j hi hj => ⟨hi, fun _ => rfl⟩
    · exact fun hgone => by cases hgone
  | work hi hstep =>
    rename_i k i s
    obtain ⟨hres, t, ht, hnot⟩ := System.step_step hstep
    -- a task that does not forward does not wait
    have hnone : d.system.waits i = none := by
      rw [System.waits_of_getElem? ht]
      by_contra hwaits
      obtain ⟨node, req, next, hp⟩ := hs.system.forwards (List.mem_of_getElem? ht) hwaits
      exact hnot node req next hp
    show Wired d.conns d.opened s.tasks.length s.waits d.dead
    rw [hres.waits, hres.length, ← hnone, Function.update_eq_self]
    exact hw
  | forward hi hstep ht hlive =>
    rename_i k i s t
    obtain ⟨hplace, -, htask⟩ := current_eq_some.1 hi
    obtain ⟨hnone, hwaits, hlen⟩ := hs.system.waits_deliver hstep
    show Wired (Function.update d.conns d.opened _) (d.opened + 1) s.tasks.length s.waits d.dead
    rw [hwaits, hlen]
    exact hw.forward hplace htask hnone t.node
  | finish hi ht hret hlost =>
    obtain ⟨hplace, -, htask⟩ := current_eq_some.1 hi
    have hnone := waits_of_ret hs.system ht hret
    refine hw.setConn (hw.lt_opened htask) rfl rfl (fun i hi => by cases hi) ?_ ?_ id ?_
    · intro i j hi hj
      rw [htask] at hi
      cases hi
      rw [hnone] at hj
      cases hj
    · intro k₀ hcaller hopen
      rcases hlost with hnocaller | hclosed
      · rw [hcaller] at hnocaller
        cases hnocaller
      · rw [hopen] at hclosed
        cases hclosed
    · intro hgone
      rw [hplace] at hgone
      cases hgone
  | respond hi ht hret hcaller hopen hj hstep =>
    rename_i k i caller j t resp s
    obtain ⟨hplace, -, htask⟩ := current_eq_some.1 hi
    have hended := wired_fail hw hj (System.step_respond hstep)
    have hconn : (d.endCall caller).conns k = { d.conns k with connected := false } := if_pos (decide_eq_true hcaller)
    refine hended.setConn (hw.lt_opened htask) rfl rfl (fun i hi => by cases hi) ?_ ?_ id ?_
    · -- the finished task waits for nothing
      intro i' j' hi' hj'
      change ((d.endCall caller).conns k).task = some i' at hi'
      rw [hconn] at hi'
      change (d.conns k).task = some i' at hi'
      rw [htask] at hi'
      cases hi'
      rw [(System.step_respond hstep).waits, Function.update_apply, waits_of_ret hs.system ht hret] at hj'
      split at hj' <;> cases hj'
    · intro k₀ _ hstill
      change ((d.endCall caller).conns k).connected = true at hstill
      rw [hconn] at hstill
      cases hstill
    · intro hgone
      change ((d.endCall caller).conns k).place = .gone at hgone
      rw [hconn] at hgone
      change (d.conns k).place = .gone at hgone
      rw [hplace] at hgone
      cases hgone
  | hangUp hplace htask hopen hlive =>
    refine hw.setConn (hw.lt_opened_of_worker hplace) rfl rfl (fun i hi => hi) ?_ ?_ id fun _ => ⟨htask, hopen⟩
    · intro i j hi hj
      rw [htask] at hi
      cases hi
    · intro k₀ hcaller hstill
      rw [hopen] at hstill
      cases hstill
  | lose hi hdead hstep => exact wired_fail hw (current_eq_some.1 hi).2.2 (System.step_fail hstep)
  | fail hi hstep => exact wired_fail hw (current_eq_some.1 hi).2.2 (System.step_fail hstep)
  | kill | crash => exact hw.die _
  | leave hcaller hopen =>
    rename_i k
    refine hw.setConn (hw.lt_opened_of_connected hopen) rfl rfl (fun i hi => hi) ?_ ?_
      (fun hfalse => by cases hfalse) ?_
    · exact fun i j hi hj => ⟨hi, fun hlive => (hw.waiting k i j hi hj hlive).1⟩
    · intro k₀ hcaller' _
      rw [hcaller] at hcaller'
      cases hcaller'
    · exact fun hgone => ⟨(hw.gone k hgone).1, rfl⟩
  | status hstep =>
    cases hstep
    exact hw

/-! ### The workers -/

/-- A connection that keeps its node and its place keeps its worker. -/
theorem taken_congr (hopened : d'.opened = d.opened)
    (h : ∀ k, ((d'.conns k).place, (d'.conns k).node) = ((d.conns k).place, (d.conns k).node)) (id : NodeId) :
    d'.taken id = d.taken id := by
  unfold taken
  rw [hopened]
  refine Finset.filter_congr fun k _ => ?_
  obtain ⟨hplace, hnode⟩ := Prod.mk.inj (h k)
  rw [hplace, hnode]

/-- A connection in the queue takes no worker. -/
theorem taken_add {conn : Connection} (hplace : conn.place = .queue) (id : NodeId) :
    (d.add conn).taken id = d.taken id := by
  unfold taken
  show (Finset.range (d.opened + 1)).filter _ = _
  rw [Finset.range_add_one, Finset.filter_insert, if_neg]
  · refine Finset.filter_congr fun k hk => ?_
    rw [add_of_ne (Finset.mem_range.1 hk).ne]
  · rw [add_self, hplace]
    rintro ⟨hfalse, -⟩
    cases hfalse

theorem pooled_of_same {id : NodeId} (hle : (d.taken id).card ≤ n) (hopened : d'.opened = d.opened)
    (h : ∀ k, ((d'.conns k).place, (d'.conns k).node) = ((d.conns k).place, (d.conns k).node)) :
    (d'.taken id).card ≤ n := by
  rw [taken_congr hopened h]
  exact hle

theorem Takes.pooled (h : Takes c n d e d') (hs : Sound c n d) (id : NodeId) : (d'.taken id).card ≤ n := by
  have hle := hs.pooled id
  cases h with
  | connect hid hlive => exact (congrArg Finset.card (taken_add rfl id)).trans_le hle
  | forward hi hstep ht hlive => exact (congrArg Finset.card (taken_add (d := d) rfl id)).trans_le hle
  | send | finish | leave => exact pooled_of_same hle rfl (setConn_congr (fun conn => (conn.place, conn.node)) rfl)
  | work | status => exact hle
  | lose | fail => exact pooled_of_same hle rfl (endCall_congr (fun conn => (conn.place, conn.node)) (fun _ => rfl) _)
  | kill | crash => exact pooled_of_same hle rfl (die_congr (fun conn => (conn.place, conn.node)) (fun _ => rfl) _)
  | respond =>
    rename_i caller j t resp s _ _ _ _ _ _ _
    have hended : ((d.endCall caller).taken id).card ≤ n :=
      pooled_of_same hle rfl (endCall_congr (fun conn => (conn.place, conn.node)) (fun _ => rfl) caller)
    exact pooled_of_same hended rfl (setConn_congr (fun conn => (conn.place, conn.node)) rfl)
  | take hk hfirst hfree hlive =>
    rename_i k
    have hsub : (d.setConn k { d.conns k with place := .worker }).taken id ⊆ insert k (d.taken id) := by
      intro j hj
      obtain ⟨hlt, hplace⟩ := Finset.mem_filter.1 hj
      by_cases hjk : j = k
      · rw [hjk]
        exact Finset.mem_insert_self _ _
      · rw [setConn_of_ne hjk] at hplace
        exact Finset.mem_insert_of_mem (Finset.mem_filter.2 ⟨hlt, hplace⟩)
    by_cases hid : (d.conns k).node = id
    · -- there was a free worker
      rw [hid] at hfree
      exact (Finset.card_le_card hsub).trans ((Finset.card_insert_le _ _).trans hfree)
    · refine (Finset.card_le_card fun j hj => ?_).trans hle
      rcases Finset.mem_insert.1 (hsub hj) with rfl | hmem
      · rw [taken, Finset.mem_filter, setConn_self] at hj
        exact absurd hj.2.2 hid
      · exact hmem
  | hangUp hplace htask hopen hlive =>
    rename_i k
    refine (Finset.card_le_card fun j hj => ?_).trans hle
    obtain ⟨hlt, hplace⟩ := Finset.mem_filter.1 hj
    have hjk : j ≠ k := by
      rintro rfl
      rw [setConn_self] at hplace
      cases hplace.1
    rw [setConn_of_ne hjk] at hplace
    exact Finset.mem_filter.2 ⟨hlt, hplace⟩

theorem Sound.takes (hs : Sound c n d) (h : Takes c n d e d') : Sound c n d' :=
  ⟨h.reachable hs.system, h.wired hs, h.serves lasting_node hs.system hs.wired.known hs.served, h.pooled hs⟩

theorem Sound.start : Sound c n start where
  system := ⟨[], .refl⟩
  wired :=
    { unopened := fun _ _ => ⟨rfl, rfl, rfl, rfl⟩
      known := fun _ _ h => by cases h
      fresh := fun _ _ => rfl
      distinct := fun _ _ _ h => by cases h
      waiting := fun _ _ _ h => by cases h
      called := fun _ _ h => by cases h
      gone := fun _ h => by cases h }
  served := fun _ _ _ h => by cases h
  pooled id := Nat.zero_le _

theorem sound_of_runs {es : List DeploymentEvent} (h : Runs (step c n) (fun _ _ => True) start es d) : Sound c n d :=
  h.invariant (fun _ _ _ hs _ he => hs.takes (step_takes he)) .start

/-- A run of the pools is one of the system: what is true of that does not depend on the workers. -/
theorem reachable_system {es : List DeploymentEvent} (h : Runs (step c n) (fun _ _ => True) start es d) :
    System.Reachable c d.system :=
  (sound_of_runs h).system

/-! ## When nothing moves -/

/-- What happens without a client, a failure or a change of a view. -/
def Internal : DeploymentEvent → Prop
  | .take _ | .work _ | .forward _ | .answer _ | .hangUp _ | .lose _ | .kill _ => True
  | _ => False

instance : DecidablePred Internal
  | .take _ | .work _ | .forward _ | .answer _ | .hangUp _ | .lose _ | .kill _ => isTrue trivial
  | .connect _ | .send _ _ | .fail _ | .leave _ | .crash _ | .setStatus _ _ _ => isFalse id

def Quiet (c : Cluster) (n : Nat) (d : Deployment) : Prop := ∀ e, Internal e → d.step c n e = none

/-- The task of a connection waits for the answer on another one. -/
def WaitsOn (d : Deployment) (k k' : Nat) : Prop := (d.conns k').caller = some k ∧ (d.conns k').connected = true

/-- A client that asks for nothing. -/
def Idle (conn : Connection) : Prop := conn.caller = none ∧ conn.connected = true ∧ conn.task = none

/-- If a connection is in the queue of a living node, all its workers are taken. -/
theorem Quiet.full (hq : Quiet c n d) (hs : Sound c n d) {k : Nat} (hk : k < d.opened) (hlive : d.Alive k)
    (hplace : (d.conns k).place = .queue) : (d.taken (d.conns k).node).card = n := by
  -- the first one of the queue is not taken
  have hex : ∃ j, j < d.opened ∧ (d.conns j).place = .queue ∧ (d.conns j).node = (d.conns k).node :=
    ⟨k, hk, hplace, rfl⟩
  obtain ⟨hj, hjplace, hjnode⟩ := Nat.find_spec hex
  have hfirst : d.First (Nat.find hex) := by
    refine ⟨hjplace, ?_⟩
    intro m hm hmplace hmnode
    exact Nat.find_min hex hm ⟨hm.trans hj, hmplace, hmnode.trans hjnode⟩
  have hnone := hq (.take (Nat.find hex)) trivial
  refine le_antisymm (hs.pooled _) ?_
  by_contra hlt
  have hjlive : d.Alive (Nat.find hex) := by
    unfold Alive
    rw [hjnode]
    exact hlive
  have hstep : d.step c n (.take (Nat.find hex)) = some _ := if_pos ⟨hj, hfirst, by rw [hjnode]; omega, hjlive⟩
  rw [hstep] at hnone
  cases hnone

/-- A call to a dead node does not last. -/
theorem Quiet.target_alive (hq : Quiet c n d) {k i : Nat} (hcurrent : d.current k = some i) {t : Task}
    (ht : d.system.tasks[i]? = some t) {node : NodeInfo} {req : Request} {next : Response → ClusterHandler Response}
    (hp : t.prog = .call (.forward node req) next) : d.dead node.id = false := by
  by_contra hdead
  have hcalls : d.callsDead i = true := by
    unfold callsDead
    rw [ht, Option.bind_some, Task.target_of_forward hp, Option.any_some]
    simpa using hdead
  obtain ⟨s', hstep⟩ := System.exists_fail (c := c) ht hp
  have hnone := hq (.lose k) trivial
  simp only [step, hcurrent, Option.bind_some, hcalls, if_true, hstep, Option.map_some] at hnone
  cases hnone

/-- A worker that has a task waits for the answer to a request it has forwarded, to a living node. -/
theorem Quiet.waits (hq : Quiet c n d) (hs : Sound c n d) {k i : Nat} (hplace : (d.conns k).place = .worker)
    (hlive : d.Alive k) (htask : (d.conns k).task = some i) :
    ∃ k' > k, d.WaitsOn k k' ∧ (d.conns k').task ≠ none ∧ d.Alive k' := by
  have hcurrent : d.current k = some i := current_eq_some.2 ⟨hplace, hlive, htask⟩
  have hlt := hs.wired.known k i htask
  obtain ⟨t, ht⟩ : ∃ t, d.system.tasks[i]? = some t := ⟨_, List.getElem?_eq_getElem hlt⟩
  have hcalls := hs.system.sound.calls t (List.mem_of_getElem? ht)
  cases hp : t.prog with
  | ret resp =>
    -- the response could be sent
    have hanswer : d.step c n (.answer k) = d.settle c k := by
      simp only [step, hcurrent, ht, Option.bind_some, Task.response_eq_some.2 hp]
    have hnone := hq (.answer k) trivial
    rw [hanswer] at hnone
    unfold settle at hnone
    split at hnone
    · rename_i caller hcaller hopen
      obtain ⟨i₀, j, hi₀, hj, hk⟩ := hs.wired.called caller k hcaller hopen
      rw [htask] at hk
      cases hk
      obtain ⟨t₀, ht₀, hw₀⟩ := Option.bind_eq_some_iff.1 hj
      obtain ⟨s', hrespond⟩ := System.exists_respond hs.system ht₀ hw₀ ht hp
      rw [hi₀, Option.bind_some, hrespond] at hnone
      cases hnone
    · cases hnone
  | call call next =>
    cases call with
    | store op =>
      obtain ⟨s', hstep⟩ := System.exists_store (c := c) ht hp
      have hnone := hq (.work k) trivial
      simp only [step, hcurrent, Option.bind_some, hstep, Option.map_some] at hnone
      cases hnone
    | getNode id =>
      obtain ⟨s', hstep⟩ := System.exists_lookUp (c := c) ht hp
      have hnone := hq (.work k) trivial
      simp only [step, hcurrent, Option.bind_some, hstep, Option.map_some] at hnone
      cases hnone
    | forward node req =>
      have htarget := hq.target_alive hcurrent ht hp
      cases hw : t.waitsFor with
      | none =>
        -- the request could be forwarded
        rw [hp] at hcalls
        obtain ⟨-, hfit, -⟩ := hcalls.1
        obtain ⟨s', hstep⟩ := System.exists_deliver (c := c) ht hw hp hfit
        obtain ⟨t₁, node₁, req₁, next₁, ht₁, -, hp₁, -, htasks⟩ := hs.system.step_deliver hstep
        rw [ht] at ht₁
        cases ht₁
        rw [hp] at hp₁
        cases hp₁
        have hnone := hq (.forward k) trivial
        simp only [step, hcurrent, Option.bind_some, hstep, htasks, System.getElem?_concat_set, htarget, if_true]
          at hnone
        cases hnone
      | some j =>
        obtain ⟨-, k', hlt', hcaller, hopen, htask'⟩ :=
          hs.wired.waiting k i j htask ((System.waits_of_getElem? ht).trans hw) hlive
        obtain ⟨node₁, req₁, next₁, callee, hp₁, hcallee, hnode⟩ := hs.system.links t (List.mem_of_getElem? ht) j hw
        rw [hp] at hp₁
        cases hp₁
        refine ⟨k', hlt', ⟨hcaller, hopen⟩, by rw [htask']; exact Option.some_ne_none j, ?_⟩
        -- the other connection is at the node that was called
        unfold Alive
        rw [← hs.served k' j callee htask' hcallee, hnode]
        exact htarget

/-- Whoever waits does so, from one connection to the next, for one in the queue of its node. -/
theorem Quiet.chain (hq : Quiet c n d) (hs : Sound c n d) {k : Nat} (htask : (d.conns k).task ≠ none)
    (hlive : d.Alive k) :
    ∃ k' < d.opened, Relation.ReflTransGen d.WaitsOn k k' ∧ (d.conns k').place = .queue ∧ d.Alive k' := by
  -- the connections on the way are later and later ones
  induction hm : d.opened - k using Nat.strongRecOn generalizing k with
  | _ m ih =>
    obtain ⟨i, hi⟩ := Option.ne_none_iff_exists'.1 htask
    have hk := hs.wired.lt_opened hi
    cases hplace : (d.conns k).place with
    | queue => exact ⟨k, hk, .refl, hplace, hlive⟩
    | worker =>
      obtain ⟨k', hlt, hwaits, htask', hlive'⟩ := hq.waits hs hplace hlive hi
      obtain ⟨j, hj⟩ := Option.ne_none_iff_exists'.1 htask'
      have hk' := hs.wired.lt_opened hj
      obtain ⟨k₂, hk₂, hchain, hqueue⟩ := ih (d.opened - k') (by omega) htask' hlive' rfl
      exact ⟨k₂, hk₂, .head hwaits hchain, hqueue⟩
    | gone => exact absurd (hs.wired.gone k hplace).1 htask

/-- A worker whose connection has no task has an idle client. -/
theorem Quiet.worker (hq : Quiet c n d) (hs : Sound c n d) {k : Nat} (hplace : (d.conns k).place = .worker)
    (hlive : d.Alive k) : Idle (d.conns k) ∨ ∃ k', d.WaitsOn k k' := by
  cases htask : (d.conns k).task with
  | some i =>
    obtain ⟨k', -, hwaits, -⟩ := hq.waits hs hplace hlive htask
    exact .inr ⟨k', hwaits⟩
  | none =>
    have hopen : (d.conns k).connected = true := by
      by_contra hclosed
      have hnone := hq (.hangUp k) trivial
      have hstep : d.step c n (.hangUp k) = some _ := if_pos ⟨hplace, htask, by simpa using hclosed, hlive⟩
      rw [hstep] at hnone
      cases hnone
    refine .inl ⟨?_, hopen, htask⟩
    by_contra hcaller
    obtain ⟨caller, hcaller⟩ := Option.ne_none_iff_exists'.1 hcaller
    obtain ⟨i, j, -, -, hj⟩ := hs.wired.called caller k hcaller hopen
    rw [htask] at hj
    cases hj

theorem alive_of_taken {k m : Nat} (hlive : d.Alive k) (hm : m ∈ d.taken (d.conns k).node) : d.Alive m := by
  unfold Alive
  rw [(Finset.mem_filter.1 hm).2.2]
  exact hlive

/-- The cluster has no deadlock but exhausted pools. When nothing moves any more, a request to a living node that is
not answered waits, over requests that were forwarded for it, for a connection in the queue of a living node whose
`n` workers are all taken: each by a client that asks for nothing, or by a request that itself waits for another
node. This is so whoever has left with a request outstanding and whichever nodes have died of it. -/
theorem cluster_quiet {es : List DeploymentEvent} (h : Runs (step c n) (fun _ _ => True) start es d)
    (hq : Quiet c n d) {k : Nat} (htask : (d.conns k).task ≠ none) (hlive : d.Alive k) :
    ∃ k', Relation.ReflTransGen d.WaitsOn k k' ∧ (d.conns k').place = .queue ∧ d.Alive k' ∧
      (d.taken (d.conns k').node).card = n ∧
      ∀ m ∈ d.taken (d.conns k').node, Idle (d.conns m) ∨ ∃ m', d.WaitsOn m m' := by
  have hs := sound_of_runs h
  obtain ⟨k', hk', hchain, hplace, hlive'⟩ := hq.chain hs htask hlive
  refine ⟨k', hchain, hplace, hlive', hq.full hs hk' hlive' hplace, ?_⟩
  intro m hm
  exact hq.worker hs (Finset.mem_filter.1 hm).2.1 (alive_of_taken hlive' hm)

/-- Whether nothing moves, as a check over the connections that have been made. -/
def still (c : Cluster) (n : Nat) (d : Deployment) : Bool :=
  (List.range d.opened).all fun k =>
    [.take k, .work k, .forward k, .answer k, .hangUp k, .lose k, .kill k].all fun e => (d.step c n e).isNone

theorem quiet_of_still (hs : Sound c n d) (h : d.still c n = true) : Quiet c n d := by
  intro e he
  have hnone : ∀ k, e ∈ [DeploymentEvent.take k, .work k, .forward k, .answer k, .hangUp k, .lose k, .kill k] →
      d.step c n e = none := by
    intro k hmem
    by_cases hk : k < d.opened
    · have hmoves := List.all_eq_true.1 h k (List.mem_range.2 hk)
      exact Option.isNone_iff_eq_none.1 (List.all_eq_true.1 hmoves e hmem)
    · have hplace := (hs.wired.unopened k (Nat.not_lt.1 hk)).2.2.2
      simp only [List.mem_cons, List.not_mem_nil, or_false] at hmem
      rcases hmem with rfl | rfl | rfl | rfl | rfl | rfl | rfl <;> simp [step, current, hplace, hk]
  cases e with
  | take k | work k | forward k | answer k | hangUp k | lose k | kill k => exact hnone k (by simp)
  | connect | send | fail | leave | crash | setStatus => exact he.elim

/-- One worker a node: the clients of `"a"` and `"b"` ask each for a key of the other node. -/
def crossed : List DeploymentEvent :=
  [.connect [97], .connect [98], .take 0, .take 1, .send 0 ⟨.get, [107, 49], []⟩, .send 1 ⟨.get, [107], []⟩,
    .work 0, .work 1, .forward 0, .forward 1]

theorem cluster_quiet_crossed :
    ∃ d, Runs (step Sharded.twoShards 1) (fun _ _ => True) start crossed d ∧ Quiet Sharded.twoShards 1 d ∧
      (∃ k', Relation.ReflTransGen d.WaitsOn 0 k' ∧ (d.conns k').place = .queue ∧
        (d.taken (d.conns k').node).card = 1) ∧
      ∃ k', Relation.ReflTransGen d.WaitsOn 1 k' ∧ (d.conns k').place = .queue ∧
        (d.taken (d.conns k').node).card = 1 := by
  obtain ⟨d, hruns, hstill, ⟨h0, hlive0⟩, h1, hlive1⟩ :
      ∃ d, Runs (step Sharded.twoShards 1) (fun _ _ => True) start crossed d ∧ d.still Sharded.twoShards 1 = true ∧
        ((d.conns 0).task ≠ none ∧ d.Alive 0) ∧ (d.conns 1).task ≠ none ∧ d.Alive 1 :=
    exists_runs (by decide +kernel)
  have hq := quiet_of_still (sound_of_runs hruns) hstill
  obtain ⟨k₀, hchain₀, hplace₀, -, hfull₀, -⟩ := cluster_quiet hruns hq h0 hlive0
  obtain ⟨k₁, hchain₁, hplace₁, -, hfull₁, -⟩ := cluster_quiet hruns hq h1 hlive1
  exact ⟨d, hruns, hq, ⟨k₀, hchain₀, hplace₀, hfull₀⟩, k₁, hchain₁, hplace₁, hfull₁⟩

end Deployment

end KvStore
