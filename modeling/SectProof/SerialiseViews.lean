import SectProof.SerialiseKernel

/-! # What the gate sees

The proofs about the dispatch gate look at three things only: the `view` of a
task's context (its group, its standing in the cycle and whether it sleeps), the
`gate` of a cycle (the counters, the pending flag and the state), and the group
queues.  This module says what each helper and each callback does to them;
priorities, addresses, clocks and event counts do not appear after it. -/

open Option

namespace Sect.Serialise

open State

/-! ## Views -/

/-- A thread's standing in its cycle.  `THREAD_ENQUEUED` and `THREAD_TIMEOUT` are
one: the gate never tells them apart. -/
inductive Standing
  | registered
  | ignored
  | enqueued
  | running
  deriving DecidableEq, Repr

def ThreadState.standing : ThreadState → Standing
  | .registered => .registered
  | .ignored => .ignored
  | .enqueued | .timeout => .enqueued
  | .running => .running

/-- The part of a context the gate depends on. -/
structure TaskView where
  eid : Nat
  standing : Standing
  isAsleep : Bool
  deriving DecidableEq, Repr

def TaskView.joined (v : TaskView) : Bool := v.standing = .enqueued || v.standing = .running

def TaskCtx.view (t : TaskCtx) : TaskView := ⟨t.eid, t.state.standing, t.isAsleep⟩

def State.view (s : State) (pid : Nat) : Option TaskView := (s.ctx pid).map TaskCtx.view

/-- The part of a cycle the gate depends on: the event counts, the identifier
cursor and the algorithm's fields are blanked. -/
def SchedCycle.gate (c : SchedCycle) : SchedCycle :=
  { c with
    nextDetId := 0
    expectedEventsPerCycle := 0
    numEventsSeen := 0
    pctStrata := 0
    algoInitialized := false }

theorem TaskCtx.joined_view (t : TaskCtx) : t.view.joined = t.joined := by
  unfold TaskView.joined TaskCtx.joined TaskCtx.view
  cases t.state <;> rfl

theorem TaskCtx.outsider_eq (t : TaskCtx) : t.outsider = !t.joined := by
  unfold TaskCtx.outsider TaskCtx.joined
  cases t.state <;> rfl

theorem ThreadState.standing_eq_enqueued {st : ThreadState} :
    st.standing = .enqueued ↔ st = .enqueued ∨ st = .timeout := by
  cases st <;> simp [standing]

variable {s u : State} {pid : Nat} {t : TaskCtx}

theorem State.view_eq_some {v : TaskView} :
    s.view pid = some v ↔ ∃ t, s.ctx pid = some t ∧ t.view = v := by
  rw [State.view, map_eq_some_iff]

theorem State.view_of_ctx (h : s.ctx pid = some t) : s.view pid = some t.view := by
  rw [State.view, h]; rfl

theorem State.view_eq_none : s.view pid = none ↔ s.ctx pid = none := by
  rw [State.view, map_eq_none_iff]

@[simp] theorem State.view_modifyCycle (s : State) (eid pid : Nat) (f : SchedCycle → SchedCycle) :
    (s.modifyCycle eid f).view pid = s.view pid := rfl

@[simp] theorem State.view_setDsq (s : State) (eid pid : Nat) (q : List (Nat × Nat)) :
    (s.setDsq eid q).view pid = s.view pid := rfl

theorem State.view_modifyCtx_of_ne (s : State) {q : Nat} (g : TaskCtx → TaskCtx) (h : q ≠ pid) :
    (s.modifyCtx pid g).view q = s.view q := by
  rw [State.view, ctx_modifyCtx_of_ne _ _ _ _ h, ← State.view]

theorem State.view_modifyCtx (s : State) (g : TaskCtx → TaskCtx) (h : s.ctx pid = some t) :
    (s.modifyCtx pid g).view pid = some (g t).view := by
  rw [State.view, ctx_modifyCtx, h]; rfl

/-! ## Changes the gate cannot see -/

/-- The two states look the same to the gate. -/
structure Unseen (s u : State) : Prop where
  view : ∀ q, u.view q = s.view q
  gate : ∀ e, (u.cycle e).map SchedCycle.gate = (s.cycle e).map SchedCycle.gate
  queue : u.cycleDispatchQueue = s.cycleDispatchQueue
  dsq : u.groupDsq = s.groupDsq

theorem Unseen.refl (s : State) : Unseen s s := ⟨fun _ => rfl, fun _ => rfl, rfl, rfl⟩

theorem Unseen.trans {w : State} (h : Unseen s u) (h' : Unseen u w) : Unseen s w where
  view q := (h'.view q).trans (h.view q)
  gate e := (h'.gate e).trans (h.gate e)
  queue := h'.queue.trans h.queue
  dsq := h'.dsq.trans h.dsq

theorem unseen_modifyCycle (s : State) (eid : Nat) (f : SchedCycle → SchedCycle)
    (h : ∀ c, (f c).gate = c.gate) : Unseen s (s.modifyCycle eid f) where
  view _ := rfl
  gate e := by
    by_cases he : e = eid
    · subst he
      rw [cycle_modifyCycle, map_map]
      exact congrArg (fun g => Option.map g _) (funext h)
    · rw [cycle_modifyCycle_of_ne _ _ _ _ he]
  queue := rfl
  dsq := rfl

theorem unseen_modifyCtx (s : State) (pid : Nat) (g : TaskCtx → TaskCtx)
    (h : ∀ t, s.ctx pid = some t → (g t).view = t.view) : Unseen s (s.modifyCtx pid g) where
  view q := by
    by_cases hq : q = pid
    · subst hq
      cases ht : s.ctx q with
      | none => rw [State.view, State.view, ctx_modifyCtx, ht]; rfl
      | some t => rw [view_modifyCtx _ _ ht, view_of_ctx ht, h t ht]
    · exact view_modifyCtx_of_ne s g hq
  gate _ := rfl
  queue := rfl
  dsq := rfl

/-- The algorithms are unseen. -/
theorem AlgoStep.unseen (h : AlgoStep s u) : Unseen s u where
  view q := by
    have hview : ∀ t : TaskCtx, t.sansPriority.view = t.view := fun _ => rfl
    have := congrArg (Option.map TaskCtx.view) (h.ctxs q)
    rwa [map_map, map_map] at this
  gate e := by
    have := congrArg (Option.map SchedCycle.gate) (h.cycles e)
    rwa [map_map, map_map] at this
  queue := h.queue
  dsq := h.dsq

theorem unseen_initAlgorithm (cfg : Config) (eid : Nat) (rng : Rng) (s : State) :
    Unseen s (initAlgorithm cfg eid rng s).1 := by
  unfold initAlgorithm
  split
  · exact (unseen_modifyCycle s eid (fun c => { c with algoInitialized := true })
      fun _ => rfl).trans (algoStep_algoInit ..).unseen
  · exact .refl s

theorem Unseen.cycle_some (h : Unseen s u) {e : Nat} {c : SchedCycle} (hc : s.cycle e = some c) :
    ∃ c', u.cycle e = some c' ∧ c'.gate = c.gate := by
  have := h.gate e
  rw [hc] at this
  exact map_eq_some_iff.mp this

theorem Unseen.ctx_some (h : Unseen s u) {p : Nat} (ht : s.ctx p = some t) :
    ∃ t', u.ctx p = some t' ∧ t'.view = t.view :=
  view_eq_some.mp ((h.view p).trans (view_of_ctx ht))

/-! ## The gate queue -/

/-- What a push does to its cycle. -/
def SchedCycle.push (timeout : Bool) (c : SchedCycle) : SchedCycle :=
  if c.pendingDispatch then c else c.claim timeout

/-- What a push does to the queue: a full queue drops its oldest token. -/
def pushToken (eid : Nat) (q : List Nat) : List Nat :=
  (if dispatchQueueEntries ≤ q.length then q.tail else q) ++ [eid]

/-- A push claims the group's token and appends it, or does nothing: it never
fails, as `BPF_EXIST` makes room. -/
theorem enqueueCycleForDispatch_eq (eid : Nat) (timeout : Bool) (s : State) :
    enqueueCycleForDispatch eid timeout s =
      match s.cycle eid with
      | none => s
      | some c =>
        if c.pendingDispatch then s
        else { s.modifyCycle eid (SchedCycle.claim timeout) with
          cycleDispatchQueue := pushToken eid s.cycleDispatchQueue } := by
  unfold enqueueCycleForDispatch
  cases hc : s.cycle eid with
  | none => rfl
  | some c =>
    dsimp only
    rw [BoundedQueue.pushElem_exist]
    rfl

section Push
variable (eid : Nat) (timeout : Bool) (s : State)

@[simp] theorem ctx_push (q : Nat) : (enqueueCycleForDispatch eid timeout s).ctx q = s.ctx q := by
  rw [enqueueCycleForDispatch_eq]
  split
  · rfl
  · split <;> rfl

@[simp] theorem view_push (q : Nat) :
    (enqueueCycleForDispatch eid timeout s).view q = s.view q := by
  rw [State.view, ctx_push, ← State.view]

@[simp] theorem dsq_push : (enqueueCycleForDispatch eid timeout s).groupDsq = s.groupDsq := by
  rw [enqueueCycleForDispatch_eq]
  split
  · rfl
  · split <;> rfl

@[simp] theorem cycle_push :
    (enqueueCycleForDispatch eid timeout s).cycle eid = (s.cycle eid).map (.push timeout) := by
  rw [enqueueCycleForDispatch_eq]
  cases hc : s.cycle eid with
  | none => exact hc
  | some c =>
    dsimp only
    split
    · rename_i hp
      rw [hc, map_some, SchedCycle.push, if_pos hp]
    · rename_i hp
      show (s.modifyCycle eid (.claim timeout)).cycle eid = _
      rw [cycle_modifyCycle, hc, map_some, map_some, SchedCycle.push,
        if_neg hp]

theorem cycle_push_of_ne {e : Nat} (h : e ≠ eid) :
    (enqueueCycleForDispatch eid timeout s).cycle e = s.cycle e := by
  rw [enqueueCycleForDispatch_eq]
  split
  · rfl
  · split
    · rfl
    · exact cycle_modifyCycle_of_ne _ _ _ _ h

theorem queue_push : (enqueueCycleForDispatch eid timeout s).cycleDispatchQueue =
    if (s.cycle eid).any fun c => !c.pendingDispatch then pushToken eid s.cycleDispatchQueue
    else s.cycleDispatchQueue := by
  rw [enqueueCycleForDispatch_eq]
  cases hc : s.cycle eid with
  | none => rfl
  | some c => cases hp : c.pendingDispatch <;> simp [hp]

end Push

/-- The gate part of a cycle after a push only depends on its gate part. -/
theorem SchedCycle.gate_push (timeout : Bool) (c : SchedCycle) :
    (c.push timeout).gate = c.gate.push timeout := by
  show (if c.pendingDispatch then c else c.claim timeout).gate =
    if c.pendingDispatch then c.gate else (c.gate).claim timeout
  split <;> rfl

/-! ## What a whole callback does to its cycle -/

namespace SchedCycle

/-- A push, if the gate was found open. -/
def pushIf (opens timeout : Bool) (c : SchedCycle) : SchedCycle :=
  if opens then c.push timeout else c

/-- An enqueue that parks: the count, then the gate check. -/
def afterPark (c : SchedCycle) : SchedCycle :=
  c.countEnqueue.pushIf c.countEnqueue.dispatchable false

/-- A dispatch that moved a task. -/
def afterMove (c : SchedCycle) : SchedCycle :=
  c.dispatchMoved.pushIf (decide (c.state = .timeout ∧ c.dispatchMoved.numQueued > 0)) true

/-- A dispatch that found the group queue empty. -/
def afterEmpty (c : SchedCycle) : SchedCycle :=
  c.dispatchEmpty.pushIf (decide (c.dispatchEmpty.numQueued > 0)) (c.state = .timeout)

def afterWake (c : SchedCycle) : SchedCycle := c.wake.pushIf c.wake.allParked false

def afterSleep (taskState : ThreadState) (c : SchedCycle) : SchedCycle :=
  (c.sleep taskState).pushIf (c.sleep taskState).allParked false

def afterExit (cfg : Config) (taskState : ThreadState) (wasAsleep : Bool) (c : SchedCycle) :
    SchedCycle :=
  let c' := c.exit taskState wasAsleep
  let u := c'.pushIf c'.dispatchableOnExit (c.state = .timeout)
  if c'.finished c.state then u.reset cfg else u

section PushIf
variable (opens timeout : Bool) (c : SchedCycle)

@[simp] theorem numExpectedThreads_pushIf :
    (c.pushIf opens timeout).numExpectedThreads = c.numExpectedThreads := by
  unfold pushIf push claim
  split
  · split <;> rfl
  · rfl

@[simp] theorem numAlive_pushIf : (c.pushIf opens timeout).numAlive = c.numAlive := by
  unfold pushIf push claim
  split
  · split <;> rfl
  · rfl

@[simp] theorem numQueued_pushIf : (c.pushIf opens timeout).numQueued = c.numQueued := by
  unfold pushIf push claim
  split
  · split <;> rfl
  · rfl

@[simp] theorem numAsleep_pushIf : (c.pushIf opens timeout).numAsleep = c.numAsleep := by
  unfold pushIf push claim
  split
  · split <;> rfl
  · rfl

@[simp] theorem pendingDispatch_pushIf :
    (c.pushIf opens timeout).pendingDispatch = (opens || c.pendingDispatch) := by
  unfold pushIf push claim
  cases opens <;> cases hp : c.pendingDispatch <;> simp [hp]

theorem state_pushIf : (c.pushIf opens timeout).state =
    if opens && !c.pendingDispatch then if timeout then .timeout else .running else c.state := by
  unfold pushIf push claim
  cases opens <;> cases hp : c.pendingDispatch <;> simp

theorem gate_pushIf : (c.pushIf opens timeout).gate = c.gate.pushIf opens timeout := by
  unfold pushIf
  rw [← gate_push]
  split <;> rfl

end PushIf

section Gate
variable (c : SchedCycle)

theorem gate_afterPark : c.afterPark.gate = c.gate.afterPark.gate := by
  unfold afterPark
  rw [gate_pushIf, gate_pushIf]
  rfl

theorem gate_afterMove : c.afterMove.gate = c.gate.afterMove.gate := by
  unfold afterMove
  rw [gate_pushIf, gate_pushIf]
  rfl

theorem gate_afterEmpty : c.afterEmpty.gate = c.gate.afterEmpty.gate := by
  unfold afterEmpty
  rw [gate_pushIf, gate_pushIf]
  rfl

theorem gate_afterWake : c.afterWake.gate = c.gate.afterWake.gate := by
  unfold afterWake
  rw [gate_pushIf, gate_pushIf]
  rfl

theorem gate_afterSleep (st : ThreadState) :
    (c.afterSleep st).gate = (c.gate.afterSleep st).gate := by
  unfold afterSleep
  rw [gate_pushIf, gate_pushIf]
  rfl

/-- A reset makes the gate that of a fresh cycle. -/
theorem gate_reset (cfg : Config) : (c.reset cfg).gate = (fresh cfg).gate := rfl

theorem gate_afterExit (cfg : Config) (st : ThreadState) (asleep : Bool) :
    (c.afterExit cfg st asleep).gate = (c.gate.afterExit cfg st asleep).gate := by
  unfold afterExit
  rw [apply_ite SchedCycle.gate, apply_ite SchedCycle.gate, gate_reset, gate_reset, gate_pushIf,
    gate_pushIf]
  rfl

end Gate

end SchedCycle

end Sect.Serialise
