import SectProof.SerialiseState

/-! # The scheduling algorithms

PCT, POS, random walk and random priority, behind `algoInit` and
`algoUpdatePriority`.  They decide priorities and nothing else: `AlgoStep` says
so, and is all that the proofs about the gate need to know of them. -/

namespace Sect.Serialise

/-! ## PCT -/

/-- Pack (eid, det_id) into a single 32-bit map key. -/
def getCombinedKey (eid detId : Nat) : Nat :=
  (eid <<< 16) % 2 ^ 32 ||| (detId % maxCycleThreads)

def getCombinedChangepointKey (eid cp : Nat) : Nat :=
  (eid <<< 16) % 2 ^ 32 ||| cp

/-- The base of a stratum, an `s32`: higher strata give lower priorities. -/
def getStrataBase (strata : Nat) : Int :=
  Int.bmod ((s32Max : Int) - ((strata : Int) + 2) * maxCycleThreads) (2 ^ 32)

/-- An integer stored into a `u32`. -/
def toU32 (i : Int) : Nat := (i % 2 ^ 32).toNat

/-- A `u32` read as an `s32`. -/
def asS32 (n : Nat) : Int := Int.bmod n (2 ^ 32)

/-- Slot `i - depth` is given `get_strata_base(strata) + i`, for `i` from `depth`. -/
def resetPrios (cfg : Config) (eid strata : Nat) (m : Table Nat Nat) : Table Nat Nat :=
  (List.range' cfg.depth maxCycleThreads).foldl (fun m i =>
    match m.updateElem maxTasks .any (getCombinedKey eid (i - cfg.depth))
        (toU32 (getStrataBase strata + i)) with
    | .ok m' => m'
    | .error _ => m) m

/-- Exchange the values of two slots. -/
def swapU32 (a b : Nat) (m : Table Nat Nat) : Table Nat Nat :=
  match m.lookup a, m.lookup b with
  | some va, some vb => (m.modify a fun _ => vb).modify b fun _ => va
  | _, _ => m

/-- One round of the shuffle: slot `max - i` with a random one not above it. -/
def shuffleRound (eid : Nat) (acc : Table Nat Nat × Rng) (i : Nat) : Table Nat Nat × Rng :=
  let draw := bpfGetPrandomU32 acc.2
  (swapU32 (getCombinedKey eid (maxCycleThreads - i))
    (getCombinedKey eid (draw.1 % (maxCycleThreads - i + 1))) acc.1, draw.2)

/-- Reset the priorities of all slots and shuffle them (Fisher-Yates). -/
def shufflePrios (cfg : Config) (eid strata : Nat) (rng : Rng) (m : Table Nat Nat) :
    Table Nat Nat × Rng :=
  if cfg.depth < 1 ∨ maxCycleThreads + 1 < cfg.depth then (m, rng)
  else
    (List.range' 1 (maxCycleThreads - 1)).foldl (shuffleRound eid)
      (resetPrios cfg eid strata m, rng)

/-- One change point: a random event number, or its own index when no event
count is known. -/
def chooseRound (eid maxEvents : Nat) (acc : Table Nat Nat × Rng) (i : Nat) :
    Table Nat Nat × Rng :=
  let draw := if maxEvents = 0 then (i, acc.2) else
    ((bpfGetPrandomU32 acc.2).1 % maxEvents + 1, (bpfGetPrandomU32 acc.2).2)
  match acc.1.updateElem maxTasks .any (getCombinedChangepointKey eid i) (draw.1 % 2 ^ 32) with
  | .ok m' => (m', draw.2)
  | .error _ => (acc.1, draw.2)

/-- Choose `depth - 1` random change points in `[1, max_events]`. -/
def chooseChangePoints (cfg : Config) (eid maxEvents : Nat) (rng : Rng) (m : Table Nat Nat) :
    Table Nat Nat × Rng :=
  if cfg.depth < 1 ∨ maxCycleThreads + 1 < cfg.depth then (m, rng)
  else (List.range (cfg.depth - 1)).foldl (chooseRound eid maxEvents) (m, rng)

def initPct (cfg : Config) (eid : Nat) (rng : Rng) (s : State) : State × Rng :=
  match s.cycle eid with
  | none => (s, rng)
  | some cycle =>
    let prios := shufflePrios cfg eid cycle.pctStrata rng s.pctPriorities
    let points := chooseChangePoints cfg eid cycle.expectedEventsPerCycle prios.2
      s.pctChangePoints
    ({ s with pctPriorities := prios.1, pctChangePoints := points.1 }, points.2)

/-- The pre-shuffled priority of this thread's slot, as an `s32`; -1 if absent. -/
def assignPctPriority (eid detId : Nat) (s : State) : Int :=
  match s.pctPriorities.lookup (getCombinedKey eid detId) with
  | some val => asS32 val
  | none => -1

/-- Update a task's priority. -/
def updatePriority (pid : Nat) (priority : Int) (s : State) : State :=
  s.modifyCtx pid fun t => { t with priority := toU32 priority }

/-- The first change point that the current event hits. -/
def hitChangePoint (cfg : Config) (eid numEventsSeen maxEvents : Nat) (s : State) : Option Nat :=
  (List.range (cfg.depth - 1)).find? fun i =>
    s.pctChangePoints.lookup (getCombinedChangepointKey eid i) = some (numEventsSeen % maxEvents)

/-- The stratum of a demotion: one further once more events were seen than
`strata + 1` laps. -/
def nextStrata (numEventsSeen maxEvents strata : Nat) : Nat :=
  if numEventsSeen > (maxEvents * ((strata + 1) % 2 ^ 32)) % 2 ^ 32 then (strata + 1) % 2 ^ 32
  else strata

/-- The first event of a task gives it the priority of its slot. -/
def initialPriorityPct (eid pid : Nat) (tctx : TaskCtx) (s : State) : State :=
  let prio := assignPctPriority eid tctx.detId s
  if !tctx.pctInitialized && decide (0 ≤ prio) then
    s.modifyCtx pid fun t => { t with priority := toU32 prio, pctInitialized := true }
  else s

/-- A task whose event hits a change point is demoted; the stratum is written
back so that later calls see it. -/
def demotePct (cfg : Config) (eid pid : Nat) (cycle : SchedCycle) (s : State) : State :=
  match hitChangePoint cfg eid cycle.numEventsSeen cycle.expectedEventsPerCycle s with
  | none => s
  | some i =>
    let strata := nextStrata cycle.numEventsSeen cycle.expectedEventsPerCycle cycle.pctStrata
    updatePriority pid (asS32 (toU32 (getStrataBase strata + i + 1)))
      (s.modifyCycle eid fun c => { c with pctStrata := strata })

def updatePrioritiesPct (cfg : Config) (eid pid : Nat) (s : State) : State :=
  match s.cycle eid, s.ctx pid with
  | some cycle, some tctx =>
    if cfg.depth < 1 ∨ maxCycleThreads + 1 < cfg.depth then s
    else if cycle.expectedEventsPerCycle = 0 then s
    else demotePct cfg eid pid cycle (initialPriorityPct eid pid tctx s)
  | _, _ => s

/-! ## Random walk, random priority and POS -/

/-- A uniformly random priority in `[1, 50]`. -/
def randPriority (rng : Rng) : Nat × Rng :=
  ((bpfGetPrandomU32 rng).1 % 50 + 1, (bpfGetPrandomU32 rng).2)

/-- Callback of the random walk: every task of the group draws a new priority. -/
def updateAllPrios (eid : Nat) (rng : Rng) (_pid : Nat) (tctx : TaskCtx) : TaskCtx × Rng :=
  if tctx.eid ≠ eid then (tctx, rng)
  else ({ tctx with priority := (randPriority rng).1 }, (randPriority rng).2)

def updatePrioritiesRw (eid : Nat) (rng : Rng) (s : State) : State × Rng :=
  let r := s.taskCtxMap.forEach (updateAllPrios eid) rng
  ({ s with taskCtxMap := r.1 }, r.2)

/-- The two accesses are to one address and one of them writes. -/
def racesWith (tctx other : TaskCtx) : Bool :=
  tctx.nextEventAddrs ≠ 0 && tctx.nextEventAddrs = other.nextEventAddrs &&
    (tctx.isWrite || other.isWrite)

/-- Callback of POS: a task of the group that races with the enqueueing one
draws a new priority. -/
def updateAllPriosPos (eid : Nat) (enq : TaskCtx) (rng : Rng) (_pid : Nat) (tctx : TaskCtx) :
    TaskCtx × Rng :=
  if tctx.eid ≠ eid then (tctx, rng)
  else if racesWith tctx enq then
    ({ tctx with priority := (randPriority rng).1 }, (randPriority rng).2)
  else (tctx, rng)

def updatePrioritiesPos (eid pid : Nat) (rng : Rng) (s : State) : State × Rng :=
  match s.ctx pid with
  | none => (s, rng)
  | some tctx =>
    let s := s.modifyCtx pid fun t => { t with priority := (randPriority rng).1 }
    let r := s.taskCtxMap.forEach (updateAllPriosPos eid tctx) (randPriority rng).2
    ({ s with taskCtxMap := r.1 }, r.2)

def updatePrioritiesRp (pid : Nat) (rng : Rng) (s : State) : State × Rng :=
  (updatePriority pid (randPriority rng).1 s, (randPriority rng).2)

/-! ## The algorithm interface -/

/-- Called once per cycle, at its first event after the warm-up. -/
def algoInit (cfg : Config) (eid : Nat) (rng : Rng) (s : State) : State × Rng :=
  match cfg.schedAlgorithm with
  | .pct => initPct cfg eid rng s
  | .pos => (s, rng)
  | .rw => (s, rng)
  | .rp => (s, rng)

/-- Called at every enqueue.  PCT walks randomly until it knows the event count. -/
def algoUpdatePriority (cfg : Config) (pid eid : Nat) (initialRun : Bool) (rng : Rng)
    (s : State) : State × Rng :=
  match cfg.schedAlgorithm with
  | .pct =>
    if initialRun then updatePrioritiesRw eid rng s
    else (updatePrioritiesPct cfg eid pid s, rng)
  | .pos => updatePrioritiesPos eid pid rng s
  | .rw => updatePrioritiesRw eid rng s
  | .rp => if 0 < pid then updatePrioritiesRp pid rng s else (s, rng)

/-! ## What an algorithm may touch -/

/-- A context with its priority fields blanked. -/
def TaskCtx.sansPriority (t : TaskCtx) : TaskCtx := { t with priority := 0, pctInitialized := false }

/-- A cycle with its PCT stratum blanked. -/
def SchedCycle.sansStrata (c : SchedCycle) : SchedCycle := { c with pctStrata := 0 }

/-- **What an algorithm may do**: change priorities, the stratum, and its own
two maps. -/
structure AlgoStep (s u : State) : Prop where
  cycles : ∀ e, (u.cycle e).map SchedCycle.sansStrata = (s.cycle e).map SchedCycle.sansStrata
  ctxs : ∀ p, (u.ctx p).map TaskCtx.sansPriority = (s.ctx p).map TaskCtx.sansPriority
  detIds : u.pidToDetId = s.pidToDetId
  queue : u.cycleDispatchQueue = s.cycleDispatchQueue
  dsq : u.groupDsq = s.groupDsq

theorem AlgoStep.refl (s : State) : AlgoStep s s :=
  ⟨fun _ => rfl, fun _ => rfl, rfl, rfl, rfl⟩

theorem AlgoStep.trans {s u w : State} (h : AlgoStep s u) (h' : AlgoStep u w) : AlgoStep s w where
  cycles e := (h'.cycles e).trans (h.cycles e)
  ctxs p := (h'.ctxs p).trans (h.ctxs p)
  detIds := h'.detIds.trans h.detIds
  queue := h'.queue.trans h.queue
  dsq := h'.dsq.trans h.dsq

/-- Rewriting one context's priority fields is an algorithm step. -/
theorem algoStep_modifyCtx (s : State) (pid : Nat) (g : TaskCtx → TaskCtx)
    (h : ∀ t, (g t).sansPriority = t.sansPriority) : AlgoStep s (s.modifyCtx pid g) where
  cycles _ := rfl
  ctxs p := by
    by_cases hp : p = pid
    · subst hp
      rw [State.ctx_modifyCtx, Option.map_map]
      exact congrArg (fun f => Option.map f _) (funext h)
    · rw [State.ctx_modifyCtx_of_ne _ _ _ _ hp]
  detIds := rfl
  queue := rfl
  dsq := rfl

theorem algoStep_forEach (s : State) (f : Rng → Nat → TaskCtx → TaskCtx × Rng) (rng : Rng)
    (h : ∀ r k t, (f r k t).1.sansPriority = t.sansPriority) :
    AlgoStep s { s with taskCtxMap := (s.taskCtxMap.forEach f rng).1 } :=
  ⟨fun _ => rfl, fun p => Table.lookup_forEach_map _ f h rng _ p, rfl, rfl, rfl⟩

theorem algoStep_updatePrioritiesRw (eid : Nat) (rng : Rng) (s : State) :
    AlgoStep s (updatePrioritiesRw eid rng s).1 := by
  refine algoStep_forEach s _ rng fun r k t => ?_
  unfold updateAllPrios
  split <;> rfl

theorem algoStep_updatePrioritiesPos (eid pid : Nat) (rng : Rng) (s : State) :
    AlgoStep s (updatePrioritiesPos eid pid rng s).1 := by
  unfold updatePrioritiesPos
  split
  · exact .refl s
  refine .trans (algoStep_modifyCtx s pid _ fun _ => ?_)
    (algoStep_forEach _ _ _ fun r k t => ?_)
  · rfl
  unfold updateAllPriosPos
  split
  · rfl
  · split <;> rfl

theorem algoStep_strata (s : State) (eid strata : Nat) :
    AlgoStep s (s.modifyCycle eid fun c => { c with pctStrata := strata }) where
  cycles e := by
    by_cases he : e = eid
    · subst he
      rw [State.cycle_modifyCycle, Option.map_map]
      rfl
    · rw [State.cycle_modifyCycle_of_ne _ _ _ _ he]
  ctxs _ := rfl
  detIds := rfl
  queue := rfl
  dsq := rfl

/-- **What PCT may do at an event of task `pid` of group `eid`**: change the priority of
the task and the stratum of the group. -/
structure PctCall (eid pid : Nat) (s u : State) : Prop extends AlgoStep s u where
  others : ∀ q, q ≠ pid → u.ctx q = s.ctx q
  groups : ∀ e, e ≠ eid → u.cycle e = s.cycle e
  prios : u.pctPriorities = s.pctPriorities
  points : u.pctChangePoints = s.pctChangePoints

section PctCall
variable (cfg : Config) (eid pid : Nat) (s : State)

theorem PctCall.refl : PctCall eid pid s s :=
  ⟨.refl s, fun _ _ => rfl, fun _ _ => rfl, rfl, rfl⟩

variable {eid pid s} in
theorem PctCall.trans {u w : State} (h : PctCall eid pid s u) (h' : PctCall eid pid u w) :
    PctCall eid pid s w :=
  ⟨h.toAlgoStep.trans h'.toAlgoStep, fun q hq => (h'.others q hq).trans (h.others q hq),
    fun e he => (h'.groups e he).trans (h.groups e he), h'.prios.trans h.prios,
    h'.points.trans h.points⟩

theorem pctCall_modifyCtx (g : TaskCtx → TaskCtx) (h : ∀ t, (g t).sansPriority = t.sansPriority) :
    PctCall eid pid s (s.modifyCtx pid g) :=
  ⟨algoStep_modifyCtx s pid g h, fun _ hq => State.ctx_modifyCtx_of_ne _ _ _ _ hq, fun _ _ => rfl,
    rfl, rfl⟩

theorem pctCall_updatePriority (priority : Int) :
    PctCall eid pid s (updatePriority pid priority s) :=
  pctCall_modifyCtx eid pid s _ fun _ => rfl

theorem pctCall_initialPriorityPct (tctx : TaskCtx) :
    PctCall eid pid s (initialPriorityPct eid pid tctx s) := by
  rw [initialPriorityPct]
  split
  · exact pctCall_modifyCtx eid pid s _ fun _ => rfl
  · exact .refl eid pid s

theorem pctCall_demotePct (cycle : SchedCycle) :
    PctCall eid pid s (demotePct cfg eid pid cycle s) := by
  rw [demotePct]
  split
  · exact .refl eid pid s
  · refine .trans ?_ (pctCall_updatePriority ..)
    exact ⟨algoStep_strata s eid _, fun _ _ => rfl,
      fun _ he => State.cycle_modifyCycle_of_ne _ _ _ _ he, rfl, rfl⟩

theorem pctCall_updatePrioritiesPct : PctCall eid pid s (updatePrioritiesPct cfg eid pid s) := by
  rw [updatePrioritiesPct]
  split
  · split
    · exact .refl eid pid s
    · split
      · exact .refl eid pid s
      · exact (pctCall_initialPriorityPct ..).trans (pctCall_demotePct ..)
  · exact .refl eid pid s

end PctCall

theorem algoStep_algoInit (cfg : Config) (eid : Nat) (rng : Rng) (s : State) :
    AlgoStep s (algoInit cfg eid rng s).1 := by
  unfold algoInit
  split
  · unfold initPct
    split
    · exact .refl s
    · exact ⟨fun _ => rfl, fun _ => rfl, rfl, rfl, rfl⟩
  all_goals exact .refl s

/-- **Every algorithm only touches priorities.** -/
theorem algoStep_algoUpdatePriority (cfg : Config) (pid eid : Nat) (initialRun : Bool) (rng : Rng)
    (s : State) : AlgoStep s (algoUpdatePriority cfg pid eid initialRun rng s).1 := by
  unfold algoUpdatePriority
  split
  · split
    · exact algoStep_updatePrioritiesRw eid rng s
    · exact (pctCall_updatePrioritiesPct cfg eid pid s).toAlgoStep
  · exact algoStep_updatePrioritiesPos eid pid rng s
  · exact algoStep_updatePrioritiesRw eid rng s
  · split
    · exact (pctCall_updatePriority eid pid s _).toAlgoStep
    · exact .refl s

end Sect.Serialise
