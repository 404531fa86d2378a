import SectProof.SerialiseGroup

/-! # Identities and priorities on record

The views of `SerialiseViews` forget what a task is identified by (its
deterministic id) and ordered by (its priority).  Here is what the callbacks do
to those: most of them leave every identity, every priority and the algorithm's
maps alone and at most take tasks out of the group queues.  The exceptions are a
registration, which may draw an id, an enqueue that parks, which runs the
algorithm, and an exit, which forgets one task and may reset its cycle. -/

open Option

namespace Sect.Serialise

open State

/-- What a task is identified and ordered by. -/
structure TaskTag where
  eid : Nat
  detId : Nat
  priority : Nat
  pctInitialized : Bool

def TaskCtx.tag (t : TaskCtx) : TaskTag := ⟨t.eid, t.detId, t.priority, t.pctInitialized⟩

namespace State

/-- The number of ids drawn in the current cycle of a group. -/
def drawn (s : State) (e : Nat) : Nat := ((s.cycle e).map SchedCycle.nextDetId).getD 0

/-- The event count a group has learned from its warm-up, 0 before. -/
def learned (s : State) (e : Nat) : Nat :=
  ((s.cycle e).map SchedCycle.expectedEventsPerCycle).getD 0

/-- The algorithm of a group has been initialised in its current cycle. -/
def initialised (s : State) (e : Nat) : Bool :=
  ((s.cycle e).map SchedCycle.algoInitialized).getD false

/-- What a section does not change, no cycle has changed. -/
theorem cycle_map_modifyCycle {α : Type} (s : State) (eid : Nat) {f : SchedCycle → SchedCycle}
    {g : SchedCycle → α} (h : ∀ c, g (f c) = g c) (e : Nat) :
    ((s.modifyCycle eid f).cycle e).map g = (s.cycle e).map g := by
  by_cases he : e = eid
  · subst he
    rw [cycle_modifyCycle, map_map]
    exact congrArg (fun f => Option.map f _) (funext h)
  · rw [cycle_modifyCycle_of_ne _ _ _ _ he]

end State

/-- **Nothing is recorded**: identities and priorities, draws and the algorithm's
data stay, who is ignored stays ignored, and tasks at most leave the group queues. -/
structure Steady (s u : State) : Prop where
  tags : ∀ q, (u.ctx q).map TaskCtx.tag = (s.ctx q).map TaskCtx.tag
  ignored : ∀ q t t', s.ctx q = some t → u.ctx q = some t' → t.state = .ignored →
    t'.state = .ignored
  drawn : ∀ e, u.drawn e = s.drawn e
  learned : ∀ e, u.learned e = s.learned e
  initialised : ∀ e, u.initialised e = s.initialised e
  pids : u.pidToDetId = s.pidToDetId
  prios : u.pctPriorities = s.pctPriorities
  dsq : ∀ e, (u.groupDsq e).Sublist (s.groupDsq e)

namespace Steady
variable {s u w : State}

/-- A change of the gate queue. -/
theorem of_eq (hctx : u.taskCtxMap = s.taskCtxMap) (hcycle : u.schedCycleMap = s.schedCycleMap)
    (hpids : u.pidToDetId = s.pidToDetId) (hprios : u.pctPriorities = s.pctPriorities)
    (hdsq : ∀ e, (u.groupDsq e).Sublist (s.groupDsq e)) : Steady s u := by
  have hc : ∀ q, u.ctx q = s.ctx q := fun q => congrArg (Table.lookup q) hctx
  have he : ∀ e, u.cycle e = s.cycle e := fun e => congrArg (Table.lookup e) hcycle
  refine ⟨fun q => by rw [hc], fun q t t' ht ht' hi => ?_, fun e => ?_, fun e => ?_, fun e => ?_,
    hpids, hprios, hdsq⟩
  · rw [hc, ht, some.injEq] at ht'
    exact ht' ▸ hi
  · rw [State.drawn, State.drawn, he]
  · rw [State.learned, State.learned, he]
  · rw [State.initialised, State.initialised, he]

theorem refl (s : State) : Steady s s := .of_eq rfl rfl rfl rfl fun _ => .refl _

/-- A context that is there has its tag. -/
theorem ctx_some (h : Steady s u) {q : Nat} {t : TaskCtx} (ht : u.ctx q = some t) :
    ∃ t', s.ctx q = some t' ∧ t'.tag = t.tag := by
  have htag := h.tags q
  rw [ht, map_some] at htag
  obtain ⟨t', ht', heq⟩ := map_eq_some_iff.mp htag.symm
  exact ⟨t', ht', heq⟩

theorem trans (h : Steady s u) (h' : Steady u w) : Steady s w where
  tags q := (h'.tags q).trans (h.tags q)
  ignored q t t' ht ht' hi := by
    obtain ⟨t₁, ht₁, _⟩ := h'.ctx_some ht'
    exact h'.ignored q t₁ t' ht₁ ht' (h.ignored q t t₁ ht ht₁ hi)
  drawn e := (h'.drawn e).trans (h.drawn e)
  learned e := (h'.learned e).trans (h.learned e)
  initialised e := (h'.initialised e).trans (h.initialised e)
  pids := h'.pids.trans h.pids
  prios := h'.prios.trans h.prios
  dsq e := (h'.dsq e).trans (h.dsq e)

end Steady

section Sections
variable (s : State)

theorem steady_modifyCtx (pid : Nat) (g : TaskCtx → TaskCtx)
    (h : ∀ t, s.ctx pid = some t → (g t).tag = t.tag ∧
      (t.state = .ignored → (g t).state = .ignored)) : Steady s (s.modifyCtx pid g) where
  tags q := by
    by_cases hq : q = pid
    · subst hq
      rw [ctx_modifyCtx]
      cases ht : s.ctx q with
      | none => rfl
      | some t => exact congrArg some (h t ht).1
    · rw [ctx_modifyCtx_of_ne _ _ _ _ hq]
  ignored q t t' ht ht' hi := by
    by_cases hq : q = pid
    · subst hq
      rw [ctx_modifyCtx, ht, map_some, some.injEq] at ht'
      exact ht' ▸ (h t ht).2 hi
    · rw [ctx_modifyCtx_of_ne _ _ _ _ hq, ht, some.injEq] at ht'
      exact ht' ▸ hi
  drawn _ := rfl
  learned _ := rfl
  initialised _ := rfl
  pids := rfl
  prios := rfl
  dsq _ := .refl _

/-- A section under the cycle lock that leaves the draws and the algorithm alone. -/
theorem steady_modifyCycle (eid : Nat) (f : SchedCycle → SchedCycle)
    (hdraw : ∀ c, (f c).nextDetId = c.nextDetId)
    (hlearn : ∀ c, (f c).expectedEventsPerCycle = c.expectedEventsPerCycle)
    (hinit : ∀ c, (f c).algoInitialized = c.algoInitialized) : Steady s (s.modifyCycle eid f) := by
  refine ⟨fun _ => rfl, (Steady.refl s).ignored, fun e => ?_, fun e => ?_, fun e => ?_, rfl, rfl,
    fun _ => .refl _⟩
  · rw [State.drawn, State.drawn, s.cycle_map_modifyCycle eid hdraw]
  · rw [State.learned, State.learned, s.cycle_map_modifyCycle eid hlearn]
  · rw [State.initialised, State.initialised, s.cycle_map_modifyCycle eid hinit]

theorem steady_setDsq (eid : Nat) (q : List (Nat × Nat)) (h : q.Sublist (s.groupDsq eid)) :
    Steady s (s.setDsq eid q) := by
  refine .of_eq rfl rfl rfl rfl fun e => ?_
  by_cases he : e = eid
  · subst he; rw [groupDsq_setDsq]; exact h
  · rw [groupDsq_setDsq_of_ne _ _ _ _ he]

theorem taskCtxMap_push (eid : Nat) (timeout : Bool) :
    (enqueueCycleForDispatch eid timeout s).taskCtxMap = s.taskCtxMap := by
  rw [enqueueCycleForDispatch_eq]
  split
  · rfl
  · split <;> rfl

end Sections

/-! ## Callbacks that record nothing -/

/-- What the sections of these callbacks leave in a cycle. -/
def SchedCycle.record (c : SchedCycle) : Nat × Nat × Nat × Nat × Bool :=
  (c.nextDetId, c.numEventsSeen, c.expectedEventsPerCycle, c.pctStrata, c.algoInitialized)

/-- A relation kept by what these callbacks are made of. -/
structure PassiveRule (R : State → State → Prop) : Prop where
  refl : ∀ s, R s s
  trans : ∀ {s u w}, R s u → R u w → R s w
  ctx : ∀ s pid (g : TaskCtx → TaskCtx), (∀ t, s.ctx pid = some t → (g t).tag = t.tag ∧
    (t.state = .ignored → (g t).state = .ignored)) → R s (s.modifyCtx pid g)
  cycle : ∀ s eid f, (∀ c, SchedCycle.record (f c) = c.record) → R s (s.modifyCycle eid f)
  dsq : ∀ s eid q, q.Sublist (s.groupDsq eid) → R s (s.setDsq eid q)
  queue : ∀ (s : State) q, R s { s with cycleDispatchQueue := q }

/-- The callbacks that record nothing. -/
def Callback.passive : Callback → Bool
  | .dequeue _ | .dispatch | .runnable _ | .running _ | .quiescent _ _ | .timer _ => true
  | .initTask _ | .yield _ | .enqueue _ _ _ | .exitTask _ => false

namespace PassiveRule
variable {R : State → State → Prop} (hR : PassiveRule R) (p : TaskStruct) (s : State)
include hR

theorem push (eid : Nat) (timeout : Bool) : R s (enqueueCycleForDispatch eid timeout s) := by
  rw [enqueueCycleForDispatch_eq]
  split
  · exact hR.refl s
  · split
    · exact hR.refl s
    · exact hR.trans (hR.cycle s eid (.claim timeout) fun _ => rfl) (hR.queue _ _)

/-- A section under the cycle lock, and a push if it opens the gate. -/
theorem gate (eid : Nat) (f : SchedCycle → SchedCycle) (timeout : Bool) (opens : Prop)
    [Decidable opens] (h : ∀ c, (f c).record = c.record) :
    R s (if opens then enqueueCycleForDispatch eid timeout (s.modifyCycle eid f)
      else s.modifyCycle eid f) := by
  split
  · exact hR.trans (hR.cycle s eid f h) (hR.push _ eid timeout)
  · exact hR.cycle s eid f h

theorem unpark : R s (Sys.unpark p s) := hR.dsq s _ _ List.filter_sublist

theorem runnable : R s (serialiseRunnable p s) := by
  unfold serialiseRunnable
  dsimp only
  split
  · exact hR.refl s
  split
  · have hwake : R s (s.modifyCtx p.pid .markAwake) :=
      hR.ctx s _ _ fun _ _ => ⟨rfl, id⟩
    split
    · exact hR.trans hwake (hR.gate _ _ _ _ _ fun _ => rfl)
    · exact hwake
  · exact hR.refl s

theorem running : R s (serialiseRunning p s) := by
  refine hR.ctx s _ _ fun t _ => ?_
  unfold TaskCtx.markRunning
  split
  · rename_i hst
    refine ⟨rfl, fun hi => ?_⟩
    rw [hi] at hst
    simp at hst
  · exact ⟨rfl, id⟩

theorem sleep : R s (handleExecutorSleep p s) := by
  unfold handleExecutorSleep
  dsimp only
  split
  · exact hR.refl s
  split
  · have hmark : R s (s.modifyCtx p.pid .markAsleep) := by
      refine hR.ctx s _ _ fun t _ => ?_
      unfold TaskCtx.markAsleep
      split <;> exact ⟨rfl, id⟩
    split
    · exact hmark
    · split
      · exact hmark
      · exact hR.trans hmark (hR.gate _ _ _ _ _ fun _ => rfl)
  · exact hR.refl s

theorem dispatch : R s (serialiseDispatch s) := by
  unfold serialiseDispatch
  split
  · exact hR.refl s
  rename_i eid rest _
  have hpop := hR.queue s rest
  dsimp only
  split
  · exact hpop
  · split
    · exact hR.trans hpop (hR.gate _ _ _ _ _ fun _ => rfl)
    · rename_i d dsq hd
      have hmove := hR.trans hpop (hR.dsq _ eid dsq (hd ▸ List.sublist_cons_self ..))
      exact hR.trans hmove (hR.gate _ _ _ _ _ fun _ => rfl)

theorem timer (now : Nat) : R s (dispatchTimerFn now s) := by
  refine dispatchTimerFn_induct (P := R s) (hR.refl s) fun u pid t hu ht hexp => ?_
  refine hR.trans hu (hR.trans (hR.ctx u pid (fun t => { t with state := .timeout })
    fun t' ht' => ⟨rfl, fun hi => ?_⟩) (hR.push ..))
  -- an expired task is recorded as parked
  rw [ht, some.injEq] at ht'
  rw [← ht'] at hi
  simp [TaskCtx.expired, hi] at hexp

/-- **The rule.**  A passive callback keeps what its parts keep. -/
theorem step {cfg : Config} {x y : Sys} {cb : Callback} (hcb : cb.passive = true)
    (h : x.step cfg cb = some y) : R x.bpf y.bpf := by
  obtain ⟨_, rfl⟩ := Sys.step_eq_some.mp h
  cases cb with
  | initTask p | yield p | enqueue p now rng | exitTask p => cases hcb
  | dequeue p => exact hR.unpark p x.bpf
  | dispatch =>
    rw [Sys.deliver]
    split <;> exact hR.dispatch x.bpf
  | runnable p =>
    rw [Sys.deliver]
    split <;> exact hR.runnable p x.bpf
  | running p => exact hR.running p x.bpf
  | quiescent p deqFlags =>
    refine hR.trans (hR.unpark p x.bpf) ?_
    show R _ (serialiseQuiescent p deqFlags _)
    rw [serialiseQuiescent]
    split
    · exact hR.sleep p _
    · exact hR.refl _
  | timer now => exact hR.timer x.bpf now

end PassiveRule

theorem steady_passive : PassiveRule Steady where
  refl := .refl
  trans := .trans
  ctx := steady_modifyCtx
  cycle s eid f h := steady_modifyCycle s eid f (fun c => congrArg (·.1) (h c))
    (fun c => congrArg (·.2.2.1) (h c)) fun c => congrArg (·.2.2.2.2) (h c)
  dsq := steady_setDsq
  queue _ _ := .of_eq rfl rfl rfl rfl fun _ => .refl _

theorem steady_push (s : State) (eid : Nat) (timeout : Bool) :
    Steady s (enqueueCycleForDispatch eid timeout s) :=
  steady_passive.push s eid timeout

variable {cfg : Config} {eid p : Nat} {s : State}

theorem steady_step {x y : Sys} {cb : Callback} (hcb : cb.passive = true)
    (h : x.step cfg cb = some y) : Steady x.bpf y.bpf :=
  steady_passive.step hcb h

/-! ## Registrations -/

/-- Task `p` is given id `d` in group `eid`, drawn from the cycle if none is on
record. -/
structure Draws (p eid d : Nat) (s u : State) : Prop where
  ctxs : u.taskCtxMap = s.taskCtxMap
  others : ∀ e, e ≠ eid → u.drawn e = s.drawn e
  fresh : s.pidToDetId.lookup p = none → d = (s.drawn eid + 1) % 2 ^ 32 ∧ u.drawn eid = d
  pids : ∀ q, (u.pidToDetId.lookup q).isSome → q = p ∨ (s.pidToDetId.lookup q).isSome
  learned : ∀ e, u.learned e = s.learned e
  initialised : ∀ e, u.initialised e = s.initialised e
  prios : u.pctPriorities = s.pctPriorities
  dsq : u.groupDsq = s.groupDsq

theorem draws_assignDetId (p : TaskStruct) {c : SchedCycle} (hc : s.cycle eid = some c) :
    Draws p.pid eid (assignDetId p eid s).1 s (assignDetId p eid s).2 := by
  unfold assignDetId
  cases hpid : s.pidToDetId.lookup p.pid with
  | some d =>
    refine ⟨rfl, fun _ _ => rfl, fun h => ?_, fun _ h => .inr h, fun _ => rfl, fun _ => rfl,
      rfl, rfl⟩
    rw [hpid] at h
    cases h
  | none =>
    have hcycle : (s.modifyCycle eid .drawDetId).cycle eid = some c.drawDetId := by
      rw [cycle_modifyCycle, hc]; rfl
    have hd : c.drawDetId.nextDetId = (s.drawn eid + 1) % 2 ^ 32 := by
      rw [State.drawn, hc]; rfl
    dsimp only
    rw [hcycle, map_some, getD_some]
    have hdraw : ∀ m, (∀ q, (m.lookup q).isSome → q = p.pid ∨ (s.pidToDetId.lookup q).isSome) →
        Draws p.pid eid c.drawDetId.nextDetId s
          { s.modifyCycle eid .drawDetId with pidToDetId := m } := by
      intro m hm
      refine ⟨rfl, fun e he => ?_, fun _ => ⟨hd, ?_⟩, hm, fun e => ?_, fun e => ?_, rfl, rfl⟩
      · exact congrArg (fun o => (Option.map _ o).getD 0)
          (cycle_modifyCycle_of_ne _ _ _ _ he)
      · exact congrArg (fun o => (Option.map _ o).getD 0) hcycle
      · exact congrArg (Option.getD · 0)
          (s.cycle_map_modifyCycle eid (f := .drawDetId)
            (g := SchedCycle.expectedEventsPerCycle) (fun _ => rfl) e)
      · exact congrArg (Option.getD · false)
          (s.cycle_map_modifyCycle eid (f := .drawDetId) (g := SchedCycle.algoInitialized)
            (fun _ => rfl) e)
    split
    · rename_i m hm
      exact hdraw m fun q hq => Table.isSome_of_updateElemLru hm hq
    · exact hdraw _ fun q hq => .inr hq

/-- A new cycle has drawn nothing, learned nothing and initialised nothing. -/
theorem draws_of_created {d : Nat} {s₁ u : State} (hnone : s.cycle eid = none)
    {m : Table Nat SchedCycle} (hs₁ : s₁ = { s with schedCycleMap := m })
    (hm : ∀ e, m.lookup e = if e = eid then some (.fresh cfg) else s.cycle e)
    (h : Draws p eid d s₁ u) : Draws p eid d s u := by
  have hsame : ∀ {α : Type} (g : SchedCycle → α) (e : Nat),
      ((s₁.cycle e).map g).getD (g (.fresh cfg)) = ((s.cycle e).map g).getD (g (.fresh cfg)) := by
    intro α g e
    have hcycle : s₁.cycle e = if e = eid then some (.fresh cfg) else s.cycle e := by
      rw [hs₁]; exact hm e
    rw [hcycle]
    by_cases he : e = eid
    · subst he; rw [if_pos rfl, hnone]; rfl
    · rw [if_neg he]
  have hdrawn : ∀ e, s₁.drawn e = s.drawn e := hsame SchedCycle.nextDetId
  have hctxs : s₁.taskCtxMap = s.taskCtxMap := by rw [hs₁]
  have hpids : s₁.pidToDetId = s.pidToDetId := by rw [hs₁]
  have hprios : s₁.pctPriorities = s.pctPriorities := by rw [hs₁]
  have hdsq : s₁.groupDsq = s.groupDsq := by rw [hs₁]
  refine ⟨h.ctxs.trans hctxs, fun e he => (h.others e he).trans (hdrawn e), fun hp => ?_,
    fun q hq => ?_, fun e => (h.learned e).trans (hsame SchedCycle.expectedEventsPerCycle e),
    fun e => (h.initialised e).trans (hsame SchedCycle.algoInitialized e),
    h.prios.trans hprios, h.dsq.trans hdsq⟩
  · rw [← hdrawn]
    exact h.fresh (hpids ▸ hp)
  · rw [← hpids]
    exact h.pids q hq

/-- A registration of task `p` with group `eid`: nothing, an id without a context
because the map is full, or a fresh context. -/
inductive Enrols (p eid : Nat) (s : State) : State → Prop
  | same : Enrols p eid s s
  | full {d u} (hvalid : eid ≠ invalidEid) (hnone : s.ctx p = none) (hdraw : Draws p eid d s u)
      (hfull : maxTasks ≤ s.taskCtxMap.size) : Enrols p eid s u
  | new {d u} (hvalid : eid ≠ invalidEid) (hnone : s.ctx p = none) (hdraw : Draws p eid d s u)
      (hroom : s.taskCtxMap.size < maxTasks) :
      Enrols p eid s { u with taskCtxMap := u.taskCtxMap.insert p (.fresh eid d) }

theorem enrols_ensureTaskCtx (cfg : Config) (p : TaskStruct) (s : State)
    (hvalid : eid ≠ invalidEid) : Enrols p.pid eid s (ensureTaskCtx cfg p eid s).1 := by
  unfold ensureTaskCtx
  cases hctx : s.ctx p.pid with
  | some t => exact .same
  | none =>
    dsimp only
    have hcreate := getOrCreateSchedCycle_cycle cfg eid s
    generalize getOrCreateSchedCycle cfg eid s = s₁ at *
    cases hc : s₁.cycle eid with
    | none =>
      rcases hcreate with rfl | ⟨_, m, rfl, hm⟩
      · exact .same
      · have hsome := hm eid
        rw [if_pos rfl] at hsome
        cases hc.symm.trans hsome
    | some c =>
      have hdraw₁ := draws_assignDetId p hc
      generalize assignDetId p eid s₁ = r at *
      have hdraw : Draws p.pid eid r.1 s r.2 := by
        rcases hcreate with rfl | ⟨hnone, m, hs₁, hm⟩
        · exact hdraw₁
        · exact draws_of_created hnone hs₁ hm hdraw₁
      have hlookup : r.2.taskCtxMap.lookup p.pid = none := by
        rw [hdraw.ctxs]; exact hctx
      rw [Table.updateElem_noexist_none hlookup, hdraw.ctxs]
      split_ifs with hfull
      · exact .full hvalid hctx hdraw hfull
      · rw [← hdraw.ctxs]
        exact .new hvalid hctx hdraw (Nat.lt_of_not_le hfull)

theorem Ensures.enrols {p : TaskStruct} {u : State} (h : Ensures cfg p s u) :
    Enrols p.pid p.group s u := by
  rcases h with rfl | ⟨hvalid, rfl⟩
  · exact .same
  · exact enrols_ensureTaskCtx cfg p s hvalid

/-- A yield registers the task and then decides whether it joins. -/
theorem enrols_serialiseYield (cfg : Config) (p : TaskStruct) (s : State) :
    ∃ s₁, Enrols p.pid p.group s s₁ ∧ Steady s₁ (serialiseYield cfg p s) := by
  obtain ⟨s₁, hens, hyield⟩ := serialiseYield_cases cfg p s
  refine ⟨s₁, hens.enrols, ?_⟩
  rcases hyield with heq | ⟨t, c, hvalid, ht, hstate, hc, hcase⟩
  · rw [heq]
    exact .refl s₁
  have hmark : ∀ st, Steady s₁ (s₁.modifyCtx p.pid fun t => { t with state := st }) :=
    fun st => steady_modifyCtx s₁ _ _ fun t' ht' => ⟨rfl, fun hi => by
      rw [ht, some.injEq] at ht'
      rw [← ht', hstate] at hi
      cases hi⟩
  rcases hcase with ⟨-, heq⟩ | ⟨-, heq⟩
  · rw [heq]
    exact hmark _
  · rw [heq]
    exact (hmark _).trans (steady_modifyCycle _ _ _ (fun _ => rfl) (fun _ => rfl) fun _ => rfl)

theorem Enrols.ctx_of_ne {q : Nat} {u : State} (h : Enrols p eid s u) (hq : q ≠ p) :
    u.ctx q = s.ctx q := by
  cases h with
  | same => rfl
  | full hvalid hnone hdraw hfull => exact congrArg (Table.lookup q) hdraw.ctxs
  | new hvalid hnone hdraw hroom =>
    show Table.lookup q (Table.insert p _ _) = _
    rw [Table.lookup_insert_of_ne hq, hdraw.ctxs]
    rfl

/-- A registered task keeps its context; a new one is registered. -/
theorem Enrols.ctx_self {u : State} (h : Enrols p eid s u) {t : TaskCtx} (ht : u.ctx p = some t) :
    s.ctx p = some t ∨ s.ctx p = none ∧ ∃ d, t = .fresh eid d := by
  cases h with
  | same => exact .inl ht
  | full hvalid hnone hdraw hfull =>
    have hsame : u.ctx p = s.ctx p := congrArg (Table.lookup p) hdraw.ctxs
    exact .inl (hsame ▸ ht)
  | @new d u hvalid hnone hdraw hroom =>
    have hself : State.ctx { u with taskCtxMap := u.taskCtxMap.insert p (.fresh eid d) } p =
        some (.fresh eid d) := Table.lookup_insert_self ..
    rw [hself, some.injEq] at ht
    exact .inr ⟨hnone, d, ht.symm⟩

/-! ## Exits -/

/-- An exit does nothing, forgets the task, or forgets it and resets its cycle. -/
inductive Exits (cfg : Config) (p : TaskStruct) (s : State) : State → Prop
  | same : Exits cfg p s s
  | forgotten {u} (h : Steady (forgetTask p.pid s) u)
      (hctx : u.taskCtxMap = (forgetTask p.pid s).taskCtxMap) : Exits cfg p s u
  | finished {t c u} (ht : s.ctx p.pid = some t) (hj : t.joined = true)
      (hc : s.cycle (identifyExecutorGroup p) = some c)
      (hfin : (c.exit t.state t.isAsleep).finished c.state = true)
      (h : Steady (forgetTask p.pid s) u)
      (hctx : u.taskCtxMap = (forgetTask p.pid s).taskCtxMap) :
      Exits cfg p s (resetCycleState cfg (identifyExecutorGroup p) u)

theorem exits_serialiseExitTask (cfg : Config) (p : TaskStruct) (s : State) :
    Exits cfg p s (serialiseExitTask cfg p s) := by
  unfold serialiseExitTask handleExecutorExit
  dsimp only
  split
  · exact .same
  split
  · rename_i c t hc ht
    split
    · exact .forgotten (.refl _) rfl
    rename_i hin
    have hj : t.joined = true := by
      rw [t.outsider_eq] at hin
      simpa using hin
    have hcount := steady_modifyCycle (forgetTask p.pid s) p.group
      (.exit t.state t.isAsleep) (fun _ => rfl) (fun _ => rfl) (fun _ => rfl)
    generalize hu : (if (c.exit t.state t.isAsleep).dispatchableOnExit then _ else _ : State) = u
    have hsteady : Steady (forgetTask p.pid s) u ∧
        u.taskCtxMap = (forgetTask p.pid s).taskCtxMap := by
      rw [← hu]
      split
      · exact ⟨hcount.trans (steady_push ..), taskCtxMap_push ..⟩
      · exact ⟨hcount, rfl⟩
    split
    · rename_i hfin
      exact .finished ht hj hc hfin hsteady.1 hsteady.2
    · exact .forgotten hsteady.1 hsteady.2
  · exact .same

end Sect.Serialise
