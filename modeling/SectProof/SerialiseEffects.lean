import SectProof.SerialiseViews

/-! # What each callback does, as the gate sees it

One lemma or two for each callback: what it does for a participant, and that it
is unseen (or only registers the task) for everybody else. -/

open Option

namespace Sect.Serialise

open State

/-- The gate of group `e`: that of its cycle, or of the cycle it would get. -/
def State.gate (cfg : Config) (s : State) (e : Nat) : SchedCycle :=
  ((s.cycle e).getD (.fresh cfg)).gate

variable {s u : State}

variable {cfg : Config} {c : SchedCycle} {p : TaskStruct} {t : TaskCtx} {now : Nat}

theorem State.gate_of_cycle {e : Nat} (h : s.cycle e = some c) : s.gate cfg e = c.gate := by
  rw [State.gate, h, getD_some]

theorem State.gate_eq_map (cfg : Config) (s : State) (e : Nat) :
    s.gate cfg e = ((s.cycle e).map SchedCycle.gate).getD (SchedCycle.fresh cfg).gate := by
  rw [State.gate]
  cases s.cycle e <;> rfl

theorem Unseen.gate_eq (h : Unseen s u) (cfg : Config) (e : Nat) : u.gate cfg e = s.gate cfg e := by
  rw [gate_eq_map, gate_eq_map, h.gate e]

theorem Unseen.isSome (h : Unseen s u) (e : Nat) : (u.cycle e).isSome = (s.cycle e).isSome := by
  have := congrArg Option.isSome (h.gate e)
  rwa [isSome_map, isSome_map] at this

/-! ## Registration -/

/-- The task `p` may have been registered, and its group's cycle created. -/
structure Registers (cfg : Config) (p : TaskStruct) (s u : State) : Prop where
  others : ∀ q, q ≠ p.pid → u.view q = s.view q
  self : u.view p.pid = s.view p.pid ∨ s.view p.pid = none ∧
    u.view p.pid = some ⟨identifyExecutorGroup p, .registered, false⟩ ∧
    identifyExecutorGroup p ≠ invalidEid ∧ (u.cycle (identifyExecutorGroup p)).isSome
  gate : ∀ e, u.gate cfg e = s.gate cfg e
  cycles : ∀ e, (s.cycle e).isSome → (u.cycle e).isSome
  queue : u.cycleDispatchQueue = s.cycleDispatchQueue
  dsq : u.groupDsq = s.groupDsq

theorem Unseen.registers (h : Unseen s u) (cfg : Config) (p : TaskStruct) :
    Registers cfg p s u where
  others q _ := h.view q
  self := .inl (h.view _)
  gate e := h.gate_eq cfg e
  cycles e he := by rw [h.isSome]; exact he
  queue := h.queue
  dsq := h.dsq

theorem Registers.refl (cfg : Config) (p : TaskStruct) (s : State) : Registers cfg p s s :=
  (Unseen.refl s).registers cfg p

theorem getOrCreateSchedCycle_cycle (cfg : Config) (eid : Nat) (s : State) :
    getOrCreateSchedCycle cfg eid s = s ∨
      s.cycle eid = none ∧ ∃ m, getOrCreateSchedCycle cfg eid s = { s with schedCycleMap := m } ∧
        ∀ e, m.lookup e = if e = eid then some (.fresh cfg) else s.cycle e := by
  unfold getOrCreateSchedCycle
  cases hc : s.cycle eid with
  | some c => exact .inl rfl
  | none =>
    dsimp only
    split
    · rename_i m hm
      exact .inr ⟨rfl, m, rfl, fun e => Table.lookup_of_updateElem hm e⟩
    · exact .inl rfl

/-- Creating a cycle is unseen, except that the cycle exists afterwards. -/
theorem registers_getOrCreateSchedCycle (cfg : Config) (p : TaskStruct) (eid : Nat) (s : State) :
    Registers cfg p s (getOrCreateSchedCycle cfg eid s) := by
  rcases getOrCreateSchedCycle_cycle cfg eid s with h | ⟨hnone, m, h, hm⟩
  · rw [h]; exact .refl cfg p s
  rw [h]
  have hcycle : ∀ e, State.cycle { s with schedCycleMap := m } e =
      if e = eid then some (.fresh cfg) else s.cycle e := hm
  refine ⟨fun _ _ => rfl, .inl rfl, fun e => ?_, fun e he => ?_, rfl, rfl⟩
  · rw [State.gate, State.gate, hcycle]
    by_cases hee : e = eid
    · rw [if_pos hee, hee, hnone]; rfl
    · rw [if_neg hee]
  · rw [hcycle]
    split
    · rfl
    · exact he

theorem unseen_assignDetId (p : TaskStruct) (eid : Nat) (s : State) :
    Unseen s (assignDetId p eid s).2 := by
  unfold assignDetId
  split
  · exact .refl s
  have hdraw : Unseen s (s.modifyCycle eid .drawDetId) :=
    unseen_modifyCycle s eid _ fun _ => rfl
  dsimp only
  split
  · exact ⟨hdraw.view, hdraw.gate, rfl, rfl⟩
  · exact hdraw

theorem registers_ensureTaskCtx (cfg : Config) (p : TaskStruct) (s : State)
    (hvalid : p.group ≠ invalidEid) :
    Registers cfg p s (ensureTaskCtx cfg p p.group s).1 := by
  unfold ensureTaskCtx
  cases hctx : s.ctx p.pid with
  | some t => exact .refl cfg p s
  | none =>
    have hcreate := registers_getOrCreateSchedCycle cfg p p.group s
    dsimp only
    cases hcycle : (getOrCreateSchedCycle cfg p.group s).cycle
        p.group with
    | none => exact hcreate
    | some c =>
      have hassign := unseen_assignDetId p p.group
        (getOrCreateSchedCycle cfg p.group s)
      generalize getOrCreateSchedCycle cfg p.group s = s₁ at *
      generalize assignDetId p p.group s₁ = r at *
      have hsame : Registers cfg p s r.2 :=
        ⟨fun q hq => (hassign.view q).trans (hcreate.others q hq),
          hcreate.self.imp (fun h => (hassign.view _).trans h)
            fun h => ⟨h.1, (hassign.view _).trans h.2.1, h.2.2.1, by
              rw [hassign.isSome]; exact h.2.2.2⟩,
          fun e => (hassign.gate_eq cfg e).trans (hcreate.gate e),
          fun e he => by rw [hassign.isSome]; exact hcreate.cycles e he,
          hassign.queue.trans hcreate.queue, hassign.dsq.trans hcreate.dsq⟩
      dsimp only
      split
      · rename_i m hm
        have hview : ∀ q, State.view { r.2 with taskCtxMap := m } q =
            if q = p.pid then some ⟨p.group, .registered, false⟩
            else r.2.view q := by
          intro q
          show (m.lookup q).map TaskCtx.view = _
          rw [Table.lookup_of_updateElem hm]
          split <;> rfl
        refine ⟨fun q hq => ?_, .inr ⟨?_, ?_, hvalid, ?_⟩, hsame.gate, hsame.cycles,
          hsame.queue, hsame.dsq⟩
        · rw [hview, if_neg hq]; exact hsame.others q hq
        · exact view_eq_none.mpr hctx
        · rw [hview, if_pos rfl]
        · show (r.2.cycle _).isSome
          rw [hassign.isSome, hcycle]; rfl
      · exact hsame
      · exact hsame

/-- Nothing happened, or `ensure_task_ctx` was called for a task of a group. -/
def Ensures (cfg : Config) (p : TaskStruct) (s u : State) : Prop :=
  u = s ∨ identifyExecutorGroup p ≠ invalidEid ∧
    u = (ensureTaskCtx cfg p (identifyExecutorGroup p) s).1

theorem Ensures.registers (h : Ensures cfg p s u) : Registers cfg p s u := by
  rcases h with rfl | ⟨hvalid, rfl⟩
  · exact .refl cfg p u
  · exact registers_ensureTaskCtx cfg p s hvalid

theorem ensures_serialiseInitTask (cfg : Config) (p : TaskStruct) (s : State) :
    Ensures cfg p s (serialiseInitTask cfg p s).1 := by
  rw [serialiseInitTask]
  split
  · exact .inl rfl
  dsimp only
  split
  · exact .inl rfl
  · rename_i hvalid
    split
    · exact .inl rfl
    · exact .inr ⟨hvalid, rfl⟩

/-! ## Accounting

Waking, sleeping, exiting and dispatching all end the same way: a section under
the cycle lock, and a push if it left the gate open. -/

/-- The section `f` under the cycle lock of `eid`, then a push if `opens`. -/
def account (eid : Nat) (f : SchedCycle → SchedCycle) (opens timeout : Bool) (s : State) : State :=
  if opens then enqueueCycleForDispatch eid timeout (s.modifyCycle eid f) else s.modifyCycle eid f

section Account
variable (eid : Nat) (f : SchedCycle → SchedCycle) (opens timeout : Bool) (s : State)

@[simp] theorem ctx_account (q : Nat) : (account eid f opens timeout s).ctx q = s.ctx q := by
  unfold account
  split <;> simp

@[simp] theorem view_account (q : Nat) : (account eid f opens timeout s).view q = s.view q := by
  rw [State.view, ctx_account, ← State.view]

@[simp] theorem dsq_account : (account eid f opens timeout s).groupDsq = s.groupDsq := by
  unfold account
  split <;> simp

theorem cycle_account {c : SchedCycle} (hc : s.cycle eid = some c) :
    (account eid f opens timeout s).cycle eid =
      some ((f c).pushIf opens timeout) := by
  unfold account SchedCycle.pushIf
  split <;> simp [hc]

theorem cycle_account_of_ne {e : Nat} (h : e ≠ eid) :
    (account eid f opens timeout s).cycle e = s.cycle e := by
  unfold account
  split
  · rw [cycle_push_of_ne _ _ _ h, cycle_modifyCycle_of_ne _ _ _ _ h]
  · rw [cycle_modifyCycle_of_ne _ _ _ _ h]

theorem isSome_account (e : Nat) :
    ((account eid f opens timeout s).cycle e).isSome = (s.cycle e).isSome := by
  by_cases h : e = eid
  · subst h
    cases hc : s.cycle e with
    | some c => rw [cycle_account _ _ _ _ _ hc]; rfl
    | none =>
      unfold account
      split <;> simp [hc]
  · rw [cycle_account_of_ne _ _ _ _ _ h]

theorem queue_account {c : SchedCycle} (hc : s.cycle eid = some c) :
    (account eid f opens timeout s).cycleDispatchQueue =
      if opens && !(f c).pendingDispatch then pushToken eid s.cycleDispatchQueue
      else s.cycleDispatchQueue := by
  unfold account
  cases opens with
  | false => rfl
  | true => rw [if_pos rfl, queue_push, cycle_modifyCycle, hc]; rfl

end Account

/-! ## Participants and others

Each callback of a participant is `account` after the change of its context. -/

section Callbacks
variable {cfg : Config} {p : TaskStruct} {s : State} {t : TaskCtx} {c : SchedCycle}

theorem serialiseRunnable_of_asleep (hvalid : p.group ≠ invalidEid)
    (ht : s.ctx p.pid = some t) (hc : s.cycle p.group = some c)
    (hasleep : t.isAsleep = true) :
    serialiseRunnable p s = account p.group .wake c.wake.allParked false
      (s.modifyCtx p.pid .markAwake) := by
  unfold serialiseRunnable
  rw [if_neg hvalid, hc, ht]
  dsimp only
  rw [if_pos hasleep]
  rfl

theorem unseen_serialiseRunnable (h : ∀ t, s.ctx p.pid = some t → t.isAsleep = false) :
    Unseen s (serialiseRunnable p s) := by
  unfold serialiseRunnable
  dsimp only
  split
  · exact .refl s
  split
  · rename_i t _ ht
    rw [if_neg (by rw [h t ht]; exact Bool.false_ne_true)]
    refine unseen_modifyCtx s p.pid _ fun t' ht' => ?_
    unfold TaskCtx.markAwake TaskCtx.view
    rw [h t' ht']
  · exact .refl s

theorem handleExecutorSleep_of_joined (hvalid : p.group ≠ invalidEid)
    (ht : s.ctx p.pid = some t) (hc : s.cycle p.group = some c)
    (hjoined : t.joined = true) (hawake : t.isAsleep = false) :
    handleExecutorSleep p s = account p.group (.sleep t.state)
      (c.sleep t.state).allParked false (s.modifyCtx p.pid .markAsleep) := by
  unfold handleExecutorSleep
  rw [if_neg hvalid, hc, ht]
  dsimp only
  rw [t.outsider_eq, hjoined, hawake]
  rfl

theorem unseen_handleExecutorSleep (h : ∀ t, s.ctx p.pid = some t → t.joined = false) :
    Unseen s (handleExecutorSleep p s) := by
  unfold handleExecutorSleep
  dsimp only
  split
  · exact .refl s
  split
  · rename_i t _ ht
    rw [if_pos (by rw [t.outsider_eq, h t ht]; rfl)]
    refine unseen_modifyCtx s p.pid _ fun t' ht' => ?_
    unfold TaskCtx.markAsleep
    rw [t'.outsider_eq, h t' ht']
    rfl
  · exact .refl s

theorem handleExecutorExit_of_joined (hvalid : p.group ≠ invalidEid)
    (ht : s.ctx p.pid = some t) (hc : s.cycle p.group = some c)
    (hjoined : t.joined = true) :
    handleExecutorExit cfg p s =
      let u := account p.group (.exit t.state t.isAsleep)
        (c.exit t.state t.isAsleep).dispatchableOnExit (c.state = .timeout) (forgetTask p.pid s)
      if (c.exit t.state t.isAsleep).finished c.state then
        resetCycleState cfg p.group u
      else u := by
  unfold handleExecutorExit
  rw [if_neg hvalid, hc, ht]
  dsimp only
  rw [t.outsider_eq, hjoined]
  rfl

/-- The exit of a task that never joined only removes its context. -/
theorem handleExecutorExit_of_outsider (hvalid : p.group ≠ invalidEid)
    (ht : s.ctx p.pid = some t) (hc : s.cycle p.group = some c)
    (hout : t.joined = false) : handleExecutorExit cfg p s = forgetTask p.pid s := by
  unfold handleExecutorExit
  rw [if_neg hvalid, hc, ht]
  dsimp only
  rw [t.outsider_eq, hout]
  rfl

theorem handleExecutorExit_of_none (ht : s.ctx p.pid = none) :
    handleExecutorExit cfg p s = s := by
  unfold handleExecutorExit
  dsimp only
  split
  · rfl
  · rw [ht]
    split
    · rename_i h
      exact absurd h (by simp)
    · rfl

/-! ## Yield -/

/-- A yield registers the task, and then marks it as too late or joins it. -/
theorem serialiseYield_cases (cfg : Config) (p : TaskStruct) (s : State) :
    ∃ s₁, Ensures cfg p s s₁ ∧ (serialiseYield cfg p s = s₁ ∨
      ∃ t c, p.group ≠ invalidEid ∧
        s₁.ctx p.pid = some t ∧ t.state = .registered ∧
        s₁.cycle p.group = some c ∧
        (c.state ≠ .unavailable ∧
            serialiseYield cfg p s = s₁.modifyCtx p.pid (fun t => { t with state := .ignored }) ∨
          c.state = .unavailable ∧
            serialiseYield cfg p s =
              account p.group .join false false
                (s₁.modifyCtx p.pid fun t => { t with state := .running }))) := by
  rw [serialiseYield]
  split
  · exact ⟨s, .inl rfl, .inl rfl⟩
  dsimp only
  split
  · exact ⟨s, .inl rfl, .inl rfl⟩
  rename_i hvalid
  split
  · exact ⟨s, .inl rfl, .inl rfl⟩
  refine ⟨_, .inr ⟨hvalid, rfl⟩, ?_⟩
  obtain ⟨s₁, e⟩ := ensureTaskCtx cfg p p.group s
  cases e with
  | some e => exact .inl rfl
  | none =>
    dsimp only
    split
    · rename_i c t hc ht
      split
      · exact .inl rfl
      rename_i hstate
      refine .inr ⟨t, c, hvalid, ht, not_not.mp hstate, hc, ?_⟩
      split
      · rename_i hcs
        exact .inl ⟨hcs, rfl⟩
      · rename_i hcs
        exact .inr ⟨not_not.mp hcs, rfl⟩
    · exact .inl rfl

/-! ## Enqueue -/

theorem serialiseEnqueue_of_joined {now : Nat} {rng : Rng} (hk : isKthread p = false)
    (hext : isSchedExt p = true) (hvalid : p.group ≠ invalidEid)
    (ht : s.ctx p.pid = some t) (hc : s.cycle p.group = some c)
    (hjoined : t.joined = true) :
    serialiseEnqueue cfg p now rng s = if c.state = .timeout then s
      else parkParticipant cfg p p.group now rng s := by
  unfold serialiseEnqueue handleSerialiseEnqueue
  rw [hk, hext]
  rw [if_neg Bool.false_ne_true, if_neg hvalid, Bool.not_true, if_neg Bool.false_ne_true, hc, ht]
  dsimp only [isNone_some]
  rw [if_neg Bool.false_ne_true]
  rw [ht]
  dsimp only
  rw [t.outsider_eq, hjoined]
  rfl

/-- An enqueue of a task that has not joined at most registers it. -/
theorem ensures_serialiseEnqueue (cfg : Config) (now : Nat) (rng : Rng)
    (h : ∀ t, s.ctx p.pid = some t → t.joined = false) :
    Ensures cfg p s (serialiseEnqueue cfg p now rng s) := by
  rw [serialiseEnqueue]
  split
  · exact .inl rfl
  rw [handleSerialiseEnqueue]
  dsimp only
  split
  · exact .inl rfl
  rename_i hvalid
  split
  · exact .inl rfl
  split
  · exact .inl rfl
  split
  · exact .inl rfl
  have hens : Ensures cfg p s (if (s.ctx p.pid).isNone then
      ensureTaskCtx cfg p p.group s else (s, none)).1 := by
    split
    · exact .inr ⟨hvalid, rfl⟩
    · exact .inl rfl
  generalize (if (s.ctx p.pid).isNone then
      ensureTaskCtx cfg p p.group s else (s, none)) = r at *
  split
  · exact hens
  split
  · exact hens
  rename_i t ht
  have hout : t.joined = false := by
    rw [← t.joined_view]
    rcases hens.registers.self with hsame | ⟨_, hnew, _⟩
    · rw [view_of_ctx ht] at hsame
      obtain ⟨t₀, ht₀, hv⟩ := view_eq_some.mp hsame.symm
      rw [← hv, t₀.joined_view, h t₀ ht₀]
    · rw [view_of_ctx ht] at hnew
      rw [some.inj hnew]; rfl
  rw [if_pos (by rw [t.outsider_eq, hout]; rfl)]
  exact hens

end Callbacks

/-- Parking a participant: its standing, the counters and the gate check, and
its insertion into the group's queue. -/
structure Parks (p : TaskStruct) (eid : Nat) (t : TaskCtx) (c : SchedCycle) (s u : State) :
    Prop where
  others : ∀ q, q ≠ p.pid → u.view q = s.view q
  self : u.view p.pid = some ⟨t.eid, .enqueued, t.isAsleep⟩
  cycle : ∃ c', u.cycle eid = some c' ∧ c'.gate = c.afterPark.gate
  cycles : ∀ e, e ≠ eid → (u.cycle e).map SchedCycle.gate = (s.cycle e).map SchedCycle.gate
  dsq : ∃ vtime, u.groupDsq =
    Function.update s.groupDsq eid (VtimeQueue.insert vtime p.pid (s.groupDsq eid))
  queue : u.cycleDispatchQueue =
    if c.countEnqueue.dispatchable && !c.pendingDispatch then pushToken eid s.cycleDispatchQueue
    else s.cycleDispatchQueue

theorem parks_parkParticipant (cfg : Config) (now : Nat) (rng : Rng) {eid : Nat}
    (ht : s.ctx p.pid = some t) (hc : s.cycle eid = some c) :
    Parks p eid t c s (parkParticipant cfg p eid now rng s) := by
  unfold parkParticipant
  dsimp only
  have hinit := unseen_initAlgorithm cfg eid rng s
  generalize initAlgorithm cfg eid rng s = r at *
  obtain ⟨t₁, ht₁, hv₁⟩ := hinit.ctx_some ht
  obtain ⟨c₁, hc₁, hg₁⟩ := hinit.cycle_some hc
  -- the context and the counters
  have hmark : ((r.1.modifyCtx p.pid (.markEnqueued p now)).modifyCycle eid .countEnqueue).ctx
      p.pid = some (t₁.markEnqueued p now) := by
    rw [ctx_modifyCycle, ctx_modifyCtx, ht₁]; rfl
  have hcount : ((r.1.modifyCtx p.pid (.markEnqueued p now)).modifyCycle eid .countEnqueue).cycle
      eid = some c₁.countEnqueue := by
    rw [cycle_modifyCycle, cycle_modifyCtx, hc₁]; rfl
  have halgo := (algoStep_algoUpdatePriority cfg p.pid eid
    (((r.1.modifyCtx p.pid (.markEnqueued p now)).cycle eid).any fun c => !c.algoInitialized) r.2
    ((r.1.modifyCtx p.pid (.markEnqueued p now)).modifyCycle eid .countEnqueue)).unseen
  generalize (algoUpdatePriority cfg p.pid eid _ r.2 _).1 = s₃ at *
  obtain ⟨t₃, ht₃, hv₃⟩ := halgo.ctx_some hmark
  obtain ⟨c₃, hc₃, hg₃⟩ := halgo.cycle_some hcount
  have hgate : c₃.gate = c.countEnqueue.gate := by
    rw [hg₃]
    show (SchedCycle.countEnqueue c₁.gate).gate = (SchedCycle.countEnqueue c.gate).gate
    rw [hg₁]
  have hopen : c₃.gate.dispatchable = c.countEnqueue.gate.dispatchable := by rw [hgate]
  have hopen : c₃.dispatchable = c.countEnqueue.dispatchable := hopen
  have hpending : c₃.gate.pendingDispatch = c.countEnqueue.gate.pendingDispatch := by rw [hgate]
  have hpending : c₃.pendingDispatch = c.pendingDispatch := hpending
  have hview : ∀ q, q ≠ p.pid → s₃.view q = s.view q := fun q hq => by
    rw [halgo.view, view_modifyCycle, view_modifyCtx_of_ne _ _ hq, hinit.view]
  -- the insertion, then the push
  have hins : ∀ q, (insertIntoCycleDsq p.pid eid (insertPriority p.pid s₃) s₃).cycle q =
      s₃.cycle q := fun _ => rfl
  rw [hins, hc₃, any_some, hopen]
  have hself : s₃.view p.pid = some ⟨t.eid, .enqueued, t.isAsleep⟩ := by
    rw [view_of_ctx ht₃, hv₃]
    have heid : t₁.eid = t.eid := congrArg TaskView.eid hv₁
    have hasleep : t₁.isAsleep = t.isAsleep := congrArg TaskView.isAsleep hv₁
    show some (TaskView.mk t₁.eid .enqueued t₁.isAsleep) = _
    rw [heid, hasleep]
  have hdsq : s₃.groupDsq = s.groupDsq := halgo.dsq.trans hinit.dsq
  have hqueue : s₃.cycleDispatchQueue = s.cycleDispatchQueue := halgo.queue.trans hinit.queue
  have hrest : ∀ e, e ≠ eid →
      (s₃.cycle e).map SchedCycle.gate = (s.cycle e).map SchedCycle.gate := by
    intro e he
    rw [halgo.gate, cycle_modifyCycle_of_ne _ _ _ _ he, cycle_modifyCtx, hinit.gate]
  have hafter : c.afterPark.gate = if c.countEnqueue.dispatchable = true then
      c₃.gate.push false else c₃.gate := by
    unfold SchedCycle.afterPark
    rw [SchedCycle.gate_pushIf, hgate]
    rfl
  refine ⟨fun q hq => ?_, ?_, ?_, fun e he => ?_,
    ⟨u32Max - insertPriority p.pid s₃, ?_⟩, ?_⟩
  · rw [← hview q hq]
    split <;> simp [insertIntoCycleDsq]
  · rw [← hself]
    split <;> simp [insertIntoCycleDsq]
  · split
    · rename_i hd
      refine ⟨c₃.push false, ?_, ?_⟩
      · rw [cycle_push, hins, hc₃]; rfl
      · rw [hafter, if_pos hd, SchedCycle.gate_push]
    · rename_i hd
      exact ⟨c₃, hc₃, by rw [hafter, if_neg hd]⟩
  · rw [← hrest e he]
    split
    · rw [cycle_push_of_ne _ _ _ he, hins]
    · rfl
  · rw [← hdsq]
    split
    · rw [dsq_push]; rfl
    · rfl
  · rw [← hqueue, ← hpending]
    split
    · rename_i hd
      rw [queue_push, hins, hc₃, hd]
      rfl
    · rename_i hd
      rw [Bool.not_eq_true] at hd
      rw [hd]
      rfl

/-! ## Dispatch -/

section Dispatch
variable {s : State} {e : Nat} {rest : List Nat}

theorem serialiseDispatch_of_nil (hq : s.cycleDispatchQueue = []) :
    serialiseDispatch s = s ∧ dispatchedTask s = none := by
  unfold serialiseDispatch dispatchedTask BoundedQueue.popElem
  rw [hq]
  exact ⟨rfl, rfl⟩

/-- A token of a group that has no cycle is dropped. -/
theorem serialiseDispatch_of_none (hq : s.cycleDispatchQueue = e :: rest)
    (hc : s.cycle e = none) :
    serialiseDispatch s = { s with cycleDispatchQueue := rest } ∧ dispatchedTask s = none := by
  have hc' : State.cycle { s with cycleDispatchQueue := rest } e = none := hc
  unfold serialiseDispatch dispatchedTask BoundedQueue.popElem
  rw [hq]
  dsimp only
  rw [hc, hc']
  exact ⟨rfl, rfl⟩

theorem serialiseDispatch_of_empty {c : SchedCycle} (hq : s.cycleDispatchQueue = e :: rest)
    (hc : s.cycle e = some c) (hd : s.groupDsq e = []) :
    serialiseDispatch s = account e .dispatchEmpty (decide (c.dispatchEmpty.numQueued > 0))
        (c.state = .timeout) { s with cycleDispatchQueue := rest } ∧
      dispatchedTask s = none := by
  have hc' : State.cycle { s with cycleDispatchQueue := rest } e = some c := hc
  unfold serialiseDispatch dispatchedTask BoundedQueue.popElem account
  rw [hq]
  dsimp only
  rw [hc, hc', hd]
  refine ⟨?_, rfl⟩
  simp only [decide_eq_true_eq]
  rfl

theorem serialiseDispatch_of_cons {c : SchedCycle} {v pid : Nat} {dsq : List (Nat × Nat)}
    (hq : s.cycleDispatchQueue = e :: rest) (hc : s.cycle e = some c)
    (hd : s.groupDsq e = (v, pid) :: dsq) :
    serialiseDispatch s = account e .dispatchMoved
        (decide (c.state = .timeout ∧ c.dispatchMoved.numQueued > 0)) true
        (State.setDsq { s with cycleDispatchQueue := rest } e dsq) ∧
      dispatchedTask s = some (e, pid) := by
  have hc' : State.cycle { s with cycleDispatchQueue := rest } e = some c := hc
  unfold serialiseDispatch dispatchedTask BoundedQueue.popElem account
  rw [hq]
  dsimp only
  rw [hc, hc', hd]
  refine ⟨?_, rfl⟩
  simp only [decide_eq_true_eq]
  rfl

end Dispatch

/-! ## The timer -/

/-- What holds before the scan and is kept by the mark and the push of an
expired task holds after it. -/
theorem dispatchTimerFn_induct {P : State → Prop} (hs : P s)
    (hstep : ∀ u pid t, P u → u.ctx pid = some t → t.expired now = true →
      P (enqueueCycleForDispatch t.eid true (u.modifyCtx pid fun t => { t with state := .timeout }))) :
    P (dispatchTimerFn now s) := by
  unfold dispatchTimerFn
  induction s.taskCtxMap.entries.map Prod.fst generalizing s with
  | nil => exact hs
  | cons pid rest ih =>
    refine ih ?_
    unfold checkDispatchTimeout
    split
    · exact hs
    · rename_i t ht
      split
      · rename_i hexp
        exact hstep s pid t hs ht hexp
      · exact hs

theorem TaskCtx.view_timeout (h : t.expired now = true) :
    TaskCtx.view { t with state := .timeout } = t.view := by
  unfold TaskCtx.expired at h
  simp only [Bool.and_eq_true, Bool.or_eq_true, decide_eq_true_eq] at h
  obtain ⟨⟨⟨h | h, _⟩, _⟩, _⟩ := h <;> simp [TaskCtx.view, h, ThreadState.standing]

/-- A second push of a claimed token does nothing. -/
theorem SchedCycle.push_push (timeout : Bool) (c : SchedCycle) :
    (c.push timeout).push timeout = c.push timeout := by
  have hpending : (c.push timeout).pendingDispatch = true := by
    unfold SchedCycle.push
    split
    · assumption
    · rfl
  rw [SchedCycle.push, if_pos hpending]

/-- The scan changes no view and no queue of a group, and pushes some groups. -/
theorem dispatchTimerFn_effect (now : Nat) (s : State) :
    (∀ q, (dispatchTimerFn now s).view q = s.view q) ∧
    (dispatchTimerFn now s).groupDsq = s.groupDsq ∧
    ∀ e, (dispatchTimerFn now s).cycle e = s.cycle e ∨
      (dispatchTimerFn now s).cycle e = (s.cycle e).map (.push true) := by
  refine dispatchTimerFn_induct (P := fun u => (∀ q, u.view q = s.view q) ∧
    u.groupDsq = s.groupDsq ∧
    ∀ e, u.cycle e = s.cycle e ∨ u.cycle e = (s.cycle e).map (.push true))
    ⟨fun _ => rfl, rfl, fun _ => .inl rfl⟩ ?_
  rintro u pid t ⟨hview, hdsq, hcycle⟩ ht hexp
  have hmark := unseen_modifyCtx u pid (fun t => { t with state := .timeout }) fun t' ht' => by
    rw [ht, some.injEq] at ht'
    exact ht' ▸ TaskCtx.view_timeout hexp
  refine ⟨fun q => ?_, ?_, fun e => ?_⟩
  · rw [view_push, hmark.view, hview]
  · rw [dsq_push, hmark.dsq, hdsq]
  by_cases he : e = t.eid
  · subst he
    rw [cycle_push, cycle_modifyCtx]
    rcases hcycle t.eid with h | h
    · rw [h]; exact .inr rfl
    · rw [h, map_map]
      refine .inr (congrArg (fun f => Option.map f _) (funext fun c => ?_))
      exact c.push_push true
  · rw [cycle_push_of_ne _ _ _ he, cycle_modifyCtx]
    exact hcycle e

end Sect.Serialise
