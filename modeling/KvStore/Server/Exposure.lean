/-
What a GET shows of mutations that are not logged yet. A worker changes the store before it appends
to the log, so another worker can read the change and answer in between. After a crash the recovered
store answers as that GET did exactly when no outstanding append changes the key (`read_survives_iff`);
the shortest run with one shows a value that the crash undoes (`read_undone`).
-/
import KvStore.Server.Pool

namespace KvStore

open Bytes Updates Program Wal Machine Slots

/-! ## A GET and its answer -/

/-- The key `k` is changed only when no append for it is outstanding. -/
def OneAtATimeOn (k : Key) (s : Pool) (ev : PoolEvent) : Prop := s.mutating ev = some k → s.pendingOn k = []

instance (k : Key) (s : Pool) (ev : PoolEvent) : Decidable (OneAtATimeOn k s ev) :=
  inferInstanceAs (Decidable (_ → _))

/-- The event is not the store step of a PUT or DELETE of `k`. -/
def Spares (k : Key) (s : Pool) (ev : PoolEvent) : Prop := s.mutating ev ≠ some k

instance (k : Key) (s : Pool) (ev : PoolEvent) : Decidable (Spares k s ev) := inferInstanceAs (Decidable (_ ≠ _))

/-- A GET of `k` that reads the store in the state `s₁`, is answered with `resp` in the state `s₃`,
and after whose read no PUT or DELETE of `k` has made its store step until the state `s`. -/
def AnsweredGet (k : Key) (resp : Response) (s₁ s₃ s : Pool) : Prop :=
  ∃ t req s₂ s₄ between after,
    req.command = .get ∧ req.key = k ∧ s₁.workers[t]? = some (.busy req (standaloneHandler req)) ∧
    s₁.step (.step t) = some s₂ ∧ Runs Pool.step (fun s ev => Spares k s ev ∧ ev ≠ .reply t) s₂ between s₃ ∧
    s₃.step (.reply t) = some s₄ ∧ s₄.sent = s₃.sent ++ [(req, resp)] ∧ Runs Pool.step (Spares k) s₄ after s

/-! ## What the other workers leave alone -/

/-- A worker at its response stays there until it sends it. -/
theorem Pool.step_waiting {s s' : Pool} {ev : PoolEvent} {t : Nat} {req : Request} {resp : Response}
    (hw : s.workers[t]? = some (.busy req (.ret resp))) (hne : ev ≠ .reply t) (hs : s.step ev = some s') :
    s'.workers[t]? = some (.busy req (.ret resp)) := by
  have hset : ∀ {t' : Nat} {w : Worker}, t' ≠ t → (s.workers.set t' w)[t]? = some (.busy req (.ret resp)) := by
    intro t' w h
    rw [List.getElem?_set_ne h, hw]
  cases ev with
  | arrive t' req' =>
    simp only [Pool.step] at hs
    split at hs
    · rename_i hidle
      split at hs
      · cases hs
        refine hset ?_
        rintro rfl
        rw [hw] at hidle
        cases hidle
      · cases hs
    · cases hs
  | step t' =>
    simp only [Pool.step] at hs
    split at hs
    · rename_i hcall
      cases hs
      refine hset ?_
      rintro rfl
      rw [hw] at hcall
      cases hcall
    · cases hs
  | reply t' =>
    simp only [Pool.step] at hs
    split at hs
    · cases hs
      exact hset fun h => hne (h ▸ rfl)
    · cases hs

section Move

variable {s s' : Pool} {ev : PoolEvent} {w w' : Worker} {k : Key}

/-- Only a store step of a PUT or DELETE of `k` changes what the store holds for `k`. -/
theorem Move.lookup (h : Move s s' ev w w') (hk : Spares k s ev) :
    s'.process.store.data.lookup k = s.process.store.data.lookup k := by
  cases h with
  | quiet _ hp => rw [hp]
  | append e _ _ hp => rw [hp]
  | acknowledge e _ hp => rw [hp]
  | store e _ hchanges hp =>
    have hne : e.key ≠ k := fun heq => hk (heq ▸ hchanges)
    rw [hp]
    exact lookup_applyEntry_ne hne _

/-- No append for `k` becomes outstanding without one. -/
theorem Move.pendingOn_nil {t : Nat} (h : Move s s' ev w w') (hk : Spares k s ev) (hw : s.workers[t]? = some w)
    (hs : s'.workers = s.workers.set t w') (hnil : s.pendingOn k = []) : s'.pendingOn k = [] := by
  have hsame : s'.pendingOn k = s.pendingOn k := by
    cases h with
    | quiet _ _ _ hbefore hafter => exact on_same hw hs (hafter.1.trans hbefore.1.symm) k
    | acknowledge e _ _ _ hbefore hafter => exact on_same hw hs (hafter.1.trans hbefore.1.symm) k
    | store e _ hchanges _ _ hbefore hafter =>
      exact on_other hw hs (fun heq => hk (heq ▸ hchanges)) (Or.inl hbefore.1) (Or.inr hafter.1)
    | append e _ _ _ _ hbefore hafter =>
      refine on_other hw hs ?_ (Or.inr hbefore.1) (Or.inl hafter.1)
      -- its own entry would be outstanding before
      rintro rfl
      have hmem : e ∈ s.pendingOn e.key := by
        unfold Pool.pendingOn Pool.on itemsOf
        rw [List.mem_filterMap]
        exact ⟨w, List.mem_of_getElem? hw, by simp [hbefore.1]⟩
      rw [hnil] at hmem
      cases hmem
  rw [hsame, hnil]

end Move

/-! ## The files under a key -/

/-- The snapshot is that of `d`, and on top of it the log holds the key up to its outstanding
append. -/
structure KeptOn (d : Disk) (k : Key) (s : Pool) : Prop where
  snapshot : s.process.disk.snapshot = d.snapshot
  logged : ∃ es, LoggedOn d.loaded k s es

namespace KeptOn

variable {d : Disk} {k : Key} {s s' : Pool} {ev : PoolEvent}

theorem start {s₀ : KVStore} (hrec : d.recover = some s₀) (hlog : CompleteLog d.wal) (n : Nat) :
    KeptOn d k (Pool.start ⟨s₀, d⟩ n) := by
  obtain ⟨es, hes, hwal⟩ := hlog
  have hstore := Disk.recover_of_entries (by rw [hwal]; exact entriesOf_log hes)
  rw [hrec, Option.some.injEq] at hstore
  have hnone := Pool.start_pendingOn ⟨s₀, d⟩ n k
  refine ⟨rfl, es, fun w hw => Or.inl (List.eq_of_mem_replicate hw), hes, hwal, by rw [hnone]; simp, ?_⟩
  rw [hnone, List.append_nil, ← hstore]
  rfl

theorem step (h : KeptOn d k s) (hd : OneAtATimeOn k s ev) (hs : s.step ev = some s') : KeptOn d k s' := by
  obtain ⟨hsnap, es, hes⟩ := h
  obtain ⟨t, w, w', -, -, -, hm⟩ := Pool.step_move hes.reached hs
  exact ⟨hm.snapshot.trans hsnap, _, hes.step hd hs⟩

/-- What a recovery gives the key, and what the outstanding append makes of it. -/
theorem recover (h : KeptOn d k s) : ∃ store, s.process.disk.recover = some store ∧ (s.pendingOn k).length ≤ 1 ∧
    s.process.store.data.lookup k = (applyAll store (s.pendingOn k)).data.lookup k := by
  obtain ⟨hsnap, es, hes⟩ := h
  have hloaded : s.process.disk.loaded = d.loaded := by
    unfold Disk.loaded
    rw [hsnap]
  have hrec := Disk.recover_of_entries (by rw [hes.wal]; exact entriesOf_log hes.loggable)
  rw [hloaded] at hrec
  refine ⟨_, hrec, hes.follows.single, ?_⟩
  rw [hes.follows.agrees, applyAll_append]

end KeptOn

/-- The key rests: it is kept on the files, and the store holds `o` for it. -/
structure Resting (d : Disk) (k : Key) (o : Option Value) (s : Pool) : Prop where
  kept : KeptOn d k s
  holds : s.process.store.data.lookup k = o

section Resting

variable {d : Disk} {k : Key} {o : Option Value} {s s' : Pool} {ev : PoolEvent}

theorem Resting.step (h : Resting d k o s) (hk : Spares k s ev) (hs : s.step ev = some s') : Resting d k o s' := by
  obtain ⟨es, hes⟩ := h.kept.logged
  obtain ⟨t, w, w', -, -, -, hm⟩ := Pool.step_move hes.reached hs
  exact ⟨h.kept.step (fun hm => absurd hm hk) hs, (hm.lookup hk).trans h.holds⟩

theorem Resting.pendingOn_nil (h : Resting d k o s) (hk : Spares k s ev) (hs : s.step ev = some s')
    (hnil : s.pendingOn k = []) : s'.pendingOn k = [] := by
  obtain ⟨es, hes⟩ := h.kept.logged
  obtain ⟨t, w, w', hw, hset, -, hm⟩ := Pool.step_move hes.reached hs
  exact hm.pendingOn_nil hk hw hset hnil

end Resting

/-! ## What a crash leaves of an answer -/

/-- The first operation of a GET reads the store and leaves it alone. -/
theorem step_get {s s' : Pool} {t : Nat} {req : Request} (hc : req.command = .get)
    (hw : s.workers[t]? = some (.busy req (standaloneHandler req))) (hs : s.step (.step t) = some s') :
    s.mutating (.step t) = none ∧ s'.workers[t]? = some (.busy req (.ret (s.process.store.get req.key))) := by
  rw [standaloneHandler_get hc] at hw
  simp only [Pool.step, hw] at hs
  cases hs
  constructor
  · simp only [Pool.mutating, hw]
    rfl
  · rw [List.getElem?_set_self (List.getElem?_eq_some_iff.1 hw).1]
    rfl

/-- The reply of a waiting worker records its response. -/
theorem step_reply {s s' : Pool} {t : Nat} {req : Request} {resp : Response}
    (hw : s.workers[t]? = some (.busy req (.ret resp))) (hs : s.step (.reply t) = some s') :
    s'.sent = s.sent ++ [(req, resp)] := by
  simp only [Pool.step, hw] at hs
  cases hs
  rfl

/-- The answer of a GET is what the store holds for the key from the read to the crash. -/
theorem AnsweredGet.resting {d : Disk} {k : Key} {s₁ s₃ s : Pool} {resp : Response}
    (hget : AnsweredGet k resp s₁ s₃ s) (hkept : KeptOn d k s₁) : KeptOn d k s ∧ resp = s.process.store.get k ∧
      (s₃.pendingOn k = [] → s.pendingOn k = []) := by
  obtain ⟨t, req, s₂, s₄, between, after, hc, rfl, hw, hread, hbetween, hreply, hsent, hafter⟩ := hget
  obtain ⟨hspares, hwaits⟩ := step_get hc hw hread
  have hrest₂ : Resting d req.key (s₁.process.store.data.lookup req.key) s₂ :=
    Resting.step ⟨hkept, rfl⟩ (by rw [Spares, hspares]; exact nofun) hread
  -- until its reply the worker waits, and the key rests
  obtain ⟨hrest₃, hwaits₃⟩ := hbetween.invariant
    (I := fun s => Resting d req.key _ s ∧ s.workers[t]? = some (.busy req (.ret _)))
    (fun _ _ _ h hC hs => ⟨h.1.step hC.1 hs, Pool.step_waiting h.2 hC.2 hs⟩) ⟨hrest₂, hwaits⟩
  have hresp : resp = s₁.process.store.get req.key := by
    have happend := hsent.symm.trans (step_reply hwaits₃ hreply)
    have hlast := List.append_cancel_left happend
    cases hlast
    rfl
  have hreplySpares : Spares req.key s₃ (.reply t) := nofun
  have hrest₄ := hrest₃.step hreplySpares hreply
  have hrest := hafter.invariant (fun _ _ _ h hC hs => h.step hC hs) hrest₄
  refine ⟨hrest.kept, ?_, ?_⟩
  · rw [hresp]
    exact KVStore.get_congr hrest.holds.symm
  · intro hnil
    have hnil₄ := hrest₃.pendingOn_nil hreplySpares hreply hnil
    exact (hafter.invariant (I := fun s => Resting d req.key _ s ∧ s.pendingOn req.key = [])
      (fun _ _ _ h hC hs => ⟨h.1.step hC hs, h.1.pendingOn_nil hC hs h.2⟩) ⟨hrest₄, hnil₄⟩).2

/-- Reads and crashes. In a run in which `k` is changed only while no append for it is outstanding,
let a GET of `k` be answered, and let no PUT or DELETE of `k` reach the store after its read. After
a crash the recovered store answers alike iff no outstanding append changes what it holds for `k`;
so it does if none was outstanding when the GET was answered. -/
theorem read_survives_iff {d : Disk} {s₀ : KVStore} (hrec : d.recover = some s₀) (hlog : CompleteLog d.wal)
    {n : Nat} {k : Key} {evs : List PoolEvent} {s₁ s₃ s : Pool} {resp : Response}
    (hrun : Runs Pool.step (OneAtATimeOn k) (Pool.start ⟨s₀, d⟩ n) evs s₁) (hget : AnsweredGet k resp s₁ s₃ s) :
    ∃ store, s.process.disk.recover = some store ∧
      (store.get k = resp ↔ ∀ e ∈ s.pendingOn k, (applyEntry store e).get k = store.get k) ∧
      (s₃.pendingOn k = [] → store.get k = resp) := by
  have hkept : KeptOn d k s₁ := hrun.invariant (fun _ _ _ h hd hs => h.step hd hs) (KeptOn.start hrec hlog n)
  obtain ⟨hkept, rfl, hstays⟩ := hget.resting hkept
  obtain ⟨store, hstore, hone, hagrees⟩ := hkept.recover
  have hanswer : s.process.store.get k = (applyAll store (s.pendingOn k)).get k := KVStore.get_congr hagrees
  refine ⟨store, hstore, ?_, ?_⟩
  · rw [hanswer]
    -- there is at most one outstanding append
    match hp : s.pendingOn k, hone with
    | [], _ => simp
    | [e], _ => simp [eq_comm]
  · intro hnil
    rw [hanswer, hstays hnil, applyAll_nil]

/-- A PUT of `"k"` in the store, its append outstanding, and a GET of `"k"` about to read. -/
def exposed : List PoolEvent := [.arrive 0 ⟨.put, [107], [118]⟩, .arrive 1 ⟨.get, [107], []⟩, .step 0]

/-- With the append made before the read, the value is there after the crash. -/
theorem read_survives_iff_logged :
    ∃ s₁ s₃ s store, Runs Pool.step (OneAtATimeOn [107]) (Pool.start ⟨KVStore.empty, Disk.empty⟩ 2)
        (exposed ++ [.step 0]) s₁ ∧
      AnsweredGet [107] ⟨.ok, [118]⟩ s₁ s₃ s ∧ s.process.disk.recover = some store ∧
      store.get [107] = ⟨.ok, [118]⟩ := by
  obtain ⟨s₁, s₃, s, hrun, hget, hnil⟩ : ∃ s₁ s₃ s,
      Runs Pool.step (OneAtATimeOn [107]) (Pool.start ⟨KVStore.empty, Disk.empty⟩ 2) (exposed ++ [.step 0]) s₁ ∧
        AnsweredGet [107] ⟨.ok, [118]⟩ s₁ s₃ s ∧ s₃.pendingOn [107] = [] :=
    ⟨_, _, _, runs_of_runEvents rfl, ⟨1, _, _, _, [], [], rfl, rfl, rfl, rfl, .refl, rfl, rfl, .refl⟩, rfl⟩
  obtain ⟨store, hstore, -, hsame⟩ := read_survives_iff rfl ⟨[], by simp, rfl⟩ hrun hget
  exact ⟨s₁, s₃, s, store, hrun, hget, hstore, hsame hnil⟩

/-- A GET shows the value of the PUT, and after the crash the key is not there. -/
theorem read_undone :
    ∃ s₁ s₃ s, Runs Pool.step (OneAtATimeOn [107]) (Pool.start ⟨KVStore.empty, Disk.empty⟩ 2) exposed s₁ ∧
      AnsweredGet [107] ⟨.ok, [118]⟩ s₁ s₃ s ∧
      s.process.disk.recover.map (·.get [107]) = some ⟨.notFound, []⟩ :=
  ⟨_, _, _, runs_of_runEvents rfl, ⟨1, _, _, _, [], [], rfl, rfl, rfl, rfl, .refl, rfl, rfl, .refl⟩, rfl⟩

end KvStore
