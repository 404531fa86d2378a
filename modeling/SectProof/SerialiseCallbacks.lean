import SectProof.SerialiseAlgorithms

/-! # The scheduler callbacks

Every callback of `serialise_ops`, as a function on the scheduler's state.  A
section between `bpf_spin_lock` and `bpf_spin_unlock` is a function on the
`SchedCycle` or `TaskCtx` the lock protects, named after what it does, so that
the callback reads as the sequence of its sections.  A task inserted into
`SCX_DSQ_GLOBAL` leaves the state unchanged: the scheduler never looks at that
queue again. -/

namespace Sect.Serialise

/-! ## Identifying tasks -/

def executorComm : List Char :=
  ['s', 'y', 'z', '-', 'e', 'x', 'e', 'c', 'u', 't', 'o', 'r', '.']

/-- Match comm against `syz-executor.[0-9]`; the digit is the group. -/
def identifyExecutorGroup (p : TaskStruct) : Nat :=
  match p.comm with
  | none => invalidEid
  | some comm =>
    if comm.take 13 ≠ executorComm then invalidEid
    else
      let digit := comm.getD 13 (Char.ofNat 0)
      if digit < '0' ∨ '9' < digit ∨ comm.getD 14 (Char.ofNat 0) ≠ Char.ofNat 0 then invalidEid
      else digit.toNat - '0'.toNat

abbrev TaskStruct.group (p : TaskStruct) : Nat := identifyExecutorGroup p

def isKthread (p : TaskStruct) : Bool := p.flags &&& pfKthread ≠ 0

def isSchedExt (p : TaskStruct) : Bool := p.policy = schedExtPolicy

/-- A group identifier is a digit or the sentinel. -/
theorem identifyExecutorGroup_lt (p : TaskStruct) (h : identifyExecutorGroup p ≠ invalidEid) :
    identifyExecutorGroup p < maxExecutorGroups := by
  unfold identifyExecutorGroup at *
  split at h
  · exact absurd rfl h
  rename_i comm _
  split at h
  · exact absurd rfl h
  dsimp only at *
  split at h
  · exact absurd rfl h
  rename_i hcomm hdigit
  rw [if_neg hcomm, if_neg hdigit]
  simp only [not_or, Char.not_lt] at hdigit
  have hle : (comm.getD 13 (Char.ofNat 0)).toNat ≤ 57 := hdigit.2.1
  show (comm.getD 13 (Char.ofNat 0)).toNat - 48 < 10
  omega

/-! ## Sections under the cycle lock -/

namespace SchedCycle

/-- A new cycle, waiting for its participants. -/
def fresh (cfg : Config) : SchedCycle where
  numExpectedThreads := cfg.cycleThreadCount
  numQueued := 0
  numAsleep := 0
  numAlive := 0
  nextDetId := 0
  expectedEventsPerCycle := 0
  numEventsSeen := 0
  pctStrata := 0
  algoInitialized := false
  pendingDispatch := false
  state := .unavailable

/-- Draw a deterministic thread ID. -/
def drawDetId (c : SchedCycle) : SchedCycle :=
  { c with nextDetId := (c.nextDetId + 1) % 2 ^ 32 }

/-- The algorithm has to be initialised: the warm-up is over and it was not yet. -/
def needInit (c : SchedCycle) : Bool := !c.algoInitialized && c.expectedEventsPerCycle ≠ 0

/-- A participant is about to be parked. -/
def countEnqueue (c : SchedCycle) : SchedCycle :=
  { c with numQueued := c.numQueued + 1, numEventsSeen := (c.numEventsSeen + 1) % 2 ^ 32 }

/-- The dispatch condition checked at the end of an enqueue. -/
def dispatchable (c : SchedCycle) : Bool :=
  match c.state with
  | .ready | .unavailable => c.numQueued = c.numExpectedThreads
  | .running => c.numQueued = c.numAlive - c.numAsleep
  | .timeout => false

/-- Everybody who is awake is parked, in a running cycle. -/
def allParked (c : SchedCycle) : Bool :=
  c.state = .running && decide (c.numQueued = c.numAlive - c.numAsleep)

/-- Claim the group's token. -/
def claim (timeout : Bool) (c : SchedCycle) : SchedCycle :=
  { c with state := if timeout then .timeout else .running, pendingDispatch := true }

/-- Give the token back after a failed push. -/
def unclaim (prevState : CycleState) (c : SchedCycle) : SchedCycle :=
  { c with pendingDispatch := false, state := prevState }

/-- The token was consumed but the group queue was empty. -/
def dispatchEmpty (c : SchedCycle) : SchedCycle :=
  { c with
    pendingDispatch := false
    numQueued := if c.state = .timeout then 0 else c.numQueued }

/-- The token was consumed and a task was moved. -/
def dispatchMoved (c : SchedCycle) : SchedCycle :=
  { c with
    numQueued := if c.numQueued > 0 then c.numQueued - 1 else c.numQueued
    pendingDispatch := false }

/-- A sleeper wakes. -/
def wake (c : SchedCycle) : SchedCycle :=
  { c with numAsleep := if c.numAsleep > 0 then c.numAsleep - 1 else c.numAsleep }

/-- A participant recorded as `taskState` goes to sleep. -/
def sleep (taskState : ThreadState) (c : SchedCycle) : SchedCycle :=
  { c with
    numQueued := if (taskState = .enqueued ∨ taskState = .timeout) ∧ c.numQueued > 0
      then c.numQueued - 1 else c.numQueued
    numAsleep := c.numAsleep + 1 }

/-- A participant joins. -/
def join (c : SchedCycle) : SchedCycle :=
  { c with
    numAlive := c.numAlive + 1
    state := if c.numAlive + 1 = c.numExpectedThreads then .ready else c.state }

/-- A participant recorded as `taskState` exits. -/
def exit (taskState : ThreadState) (wasAsleep : Bool) (c : SchedCycle) : SchedCycle :=
  { c with
    numExpectedThreads := if c.state = .ready ∨ c.state = .unavailable
      then c.numExpectedThreads - 1 else c.numExpectedThreads
    numQueued := if (taskState = .enqueued ∨ taskState = .timeout) ∧ c.numQueued > 0
      then c.numQueued - 1 else c.numQueued
    numAsleep := if wasAsleep ∧ c.numAsleep > 0 then c.numAsleep - 1 else c.numAsleep
    numAlive := if c.numAlive > 0 then c.numAlive - 1 else c.numAlive }

/-- The dispatch condition checked at the end of an exit. -/
def dispatchableOnExit (c : SchedCycle) : Bool :=
  decide (c.numAlive ≠ 0) && decide (c.numQueued = c.numAlive - c.numAsleep)

/-- The exit finished the cycle, which was in state `state` before it. -/
def finished (state : CycleState) (c : SchedCycle) : Bool :=
  decide (c.numExpectedThreads = 0) || (decide (c.numAlive = 0) && decide (state ≠ .unavailable))

/-- The cycle is made ready for the next program. -/
def reset (cfg : Config) (c : SchedCycle) : SchedCycle :=
  { c with
    numExpectedThreads := cfg.cycleThreadCount
    numAlive := 0
    numQueued := 0
    numAsleep := 0
    nextDetId := 0
    pctStrata := 0
    expectedEventsPerCycle := if c.expectedEventsPerCycle = 0 then c.numEventsSeen
      else c.expectedEventsPerCycle
    numEventsSeen := 0
    algoInitialized := false
    pendingDispatch := false
    state := .unavailable }

end SchedCycle

/-! ## Sections under the task lock -/

namespace TaskCtx

/-- The context of a task that has not joined. -/
def fresh (eid detId : Nat) : TaskCtx where
  priority := 0
  eid := eid
  detId := detId
  isAsleep := false
  pctInitialized := false
  nextEventAddrs := 0
  isWrite := false
  state := .registered
  lastEnqueueTime := 0

/-- The task never joined the current cycle. -/
def outsider (t : TaskCtx) : Bool := t.state = .registered || t.state = .ignored

/-- The address and kind of the next access, if the kernel left a valid message. -/
def access (p : TaskStruct) : Nat × Bool :=
  match p.rt with
  | none => (0, false)
  | some m => if m.timeout ≠ rtMagic then (0, false) else (m.back, m.timeSlice ≠ 0)

/-- The task is about to be parked. -/
def markEnqueued (p : TaskStruct) (now : Nat) (t : TaskCtx) : TaskCtx :=
  { t with
    state := .enqueued
    isWrite := (access p).2
    nextEventAddrs := (access p).1
    lastEnqueueTime := now }

/-- The task starts on a CPU. -/
def markRunning (t : TaskCtx) : TaskCtx :=
  if t.state = .enqueued ∨ t.state = .timeout then
    { t with state := .running, lastEnqueueTime := 0 }
  else t

/-- The task goes to sleep. -/
def markAsleep (t : TaskCtx) : TaskCtx :=
  if !t.outsider && !t.isAsleep then
    { t with
      isAsleep := true
      lastEnqueueTime := if t.state = .enqueued ∨ t.state = .timeout then 0
        else t.lastEnqueueTime }
  else t

/-- The task wakes. -/
def markAwake (t : TaskCtx) : TaskCtx := { t with isAsleep := false }

/-- The task has been parked for longer than the budget. -/
def expired (now : Nat) (t : TaskCtx) : Bool :=
  (t.state = .enqueued || t.state = .timeout) && !t.isAsleep && t.lastEnqueueTime ≠ 0 &&
    -- vtime_before(expire_at, now): the signed 64-bit difference is negative
    decide (2 ^ 63 ≤ ((t.lastEnqueueTime + timeoutBudget) % 2 ^ 64 + (2 ^ 64 - now % 2 ^ 64)) % 2 ^ 64)

end TaskCtx

/-! ## Helpers -/

/-- Look up the cycle of `eid`, creating it if it does not exist. -/
def getOrCreateSchedCycle (cfg : Config) (eid : Nat) (s : State) : State :=
  match s.cycle eid with
  | some _ => s
  | none =>
    match s.schedCycleMap.updateElem maxExecutorGroups .noexist eid (SchedCycle.fresh cfg) with
    | .ok m => { s with schedCycleMap := m }
    | .error _ => s

/-- The errors `ensure_task_ctx` returns. -/
inductive Errno
  | enomem
  | map (e : MapError)
  deriving DecidableEq, Repr

/-- The deterministic ID of a task that has no context: the one on record, or
the next of its cycle, which is then recorded. -/
def assignDetId (p : TaskStruct) (eid : Nat) (s : State) : Nat × State :=
  match s.pidToDetId.lookup p.pid with
  | some existing => (existing, s)
  | none =>
    let s := s.modifyCycle eid SchedCycle.drawDetId
    let detId := ((s.cycle eid).map SchedCycle.nextDetId).getD 0
    match s.pidToDetId.updateElemLru maxTasks .noexist p.pid detId with
    | .ok m => (detId, { s with pidToDetId := m })
    | .error _ => (detId, s)

/-- Create the context of a target task lazily.  The second component is the
error returned, if any. -/
def ensureTaskCtx (cfg : Config) (p : TaskStruct) (eid : Nat) (s : State) :
    State × Option Errno :=
  match s.ctx p.pid with
  | some _ => (s, none)
  | none =>
    let s := getOrCreateSchedCycle cfg eid s
    match s.cycle eid with
    | none => (s, some .enomem)
    | some _ =>
      let r := assignDetId p eid s
      match r.2.taskCtxMap.updateElem maxTasks .noexist p.pid (TaskCtx.fresh eid r.1) with
      | .ok m => ({ r.2 with taskCtxMap := m }, none)
      | .error .eexist => (r.2, none)
      | .error e => (r.2, some (.map e))

/-- Push `eid` onto the gate queue, unless it is there already. -/
def enqueueCycleForDispatch (eid : Nat) (timeout : Bool) (s : State) : State :=
  match s.cycle eid with
  | none => s
  | some cycle =>
    if cycle.pendingDispatch then s
    else
      let s := s.modifyCycle eid (SchedCycle.claim timeout)
      match BoundedQueue.pushElem dispatchQueueEntries .exist eid s.cycleDispatchQueue with
      | .ok q => { s with cycleDispatchQueue := q }
      | .error _ => s.modifyCycle eid (SchedCycle.unclaim cycle.state)

def resetCycleState (cfg : Config) (eid : Nat) (s : State) : State :=
  s.modifyCycle eid (SchedCycle.reset cfg)

/-- Insert into the group's queue; a higher priority is dispatched first. -/
def insertIntoCycleDsq (pid eid priority : Nat) (s : State) : State :=
  s.setDsq eid (VtimeQueue.insert (u32Max - priority) pid (s.groupDsq eid))

/-! ## Enqueue -/

/-- The priority an enqueue inserts with: what the algorithm assigned, or 1. -/
def insertPriority (pid : Nat) (s : State) : Nat :=
  match s.ctx pid with
  | some t => if t.priority > 0 then t.priority else 1
  | none => 1

/-- Run the algorithm's initialisation once the warm-up is over. -/
def initAlgorithm (cfg : Config) (eid : Nat) (rng : Rng) (s : State) : State × Rng :=
  if (s.cycle eid).any SchedCycle.needInit then
    algoInit cfg eid rng (s.modifyCycle eid fun c => { c with algoInitialized := true })
  else (s, rng)

/-- The part of an enqueue that parks a participant of the cycle. -/
def parkParticipant (cfg : Config) (p : TaskStruct) (eid now : Nat) (rng : Rng) (s : State) :
    State :=
  let r := initAlgorithm cfg eid rng s
  let s := r.1.modifyCtx p.pid (TaskCtx.markEnqueued p now)
  let initialRun := (s.cycle eid).any fun c => !c.algoInitialized
  let s := s.modifyCycle eid SchedCycle.countEnqueue
  let s := (algoUpdatePriority cfg p.pid eid initialRun r.2 s).1
  let s := insertIntoCycleDsq p.pid eid (insertPriority p.pid s) s
  if (s.cycle eid).any SchedCycle.dispatchable then enqueueCycleForDispatch eid false s else s

def handleSerialiseEnqueue (cfg : Config) (p : TaskStruct) (now : Nat) (rng : Rng) (s : State) :
    State :=
  let eid := identifyExecutorGroup p
  if eid = invalidEid then s
  else if !isSchedExt p then s
  else
    match s.cycle eid with
    | none => s
    | some cycle =>
      if cycle.state = .timeout then s
      else
        let r := if (s.ctx p.pid).isNone then ensureTaskCtx cfg p eid s else (s, none)
        match r.2 with
        | some _ => r.1
        | none =>
          match r.1.ctx p.pid with
          | none => r.1
          | some tctx =>
            if tctx.outsider then r.1 else parkParticipant cfg p eid now rng r.1

/-! ## Callbacks -/

def serialiseInitTask (cfg : Config) (p : TaskStruct) (s : State) : State × Option Errno :=
  if isKthread p then (s, none)
  else
    let eid := identifyExecutorGroup p
    if eid = invalidEid then (s, none)
    else if !isSchedExt p then (s, none)
    else ensureTaskCtx cfg p eid s

def serialiseEnqueue (cfg : Config) (p : TaskStruct) (now : Nat) (rng : Rng) (s : State) : State :=
  if isKthread p then s else handleSerialiseEnqueue cfg p now rng s

/-- The callback only prints: a task taken out of the group queue for another
reason than sleep is not accounted. -/
def serialiseDequeue (_p : TaskStruct) (s : State) : State := s

/-- Pop a token and move the first task of its group to the local queue. -/
def serialiseDispatch (s : State) : State :=
  match BoundedQueue.popElem s.cycleDispatchQueue with
  | none => s
  | some (eid, rest) =>
    let s := { s with cycleDispatchQueue := rest }
    match s.cycle eid with
    | none => s
    | some cycle =>
      match s.groupDsq eid with
      | [] =>
        let cycle := cycle.dispatchEmpty
        let s := s.modifyCycle eid SchedCycle.dispatchEmpty
        if cycle.numQueued > 0 then
          enqueueCycleForDispatch eid (cycle.state = .timeout) s
        else s
      | _ :: dsq =>
        let cycle := cycle.dispatchMoved
        let s := (s.setDsq eid dsq).modifyCycle eid SchedCycle.dispatchMoved
        -- a timed-out cycle is drained one task per token
        if cycle.state = .timeout ∧ cycle.numQueued > 0 then
          enqueueCycleForDispatch eid true s
        else s

/-- The group and task that `serialiseDispatch` moves out of a group queue. -/
def dispatchedTask (s : State) : Option (Nat × Nat) :=
  match s.cycleDispatchQueue with
  | [] => none
  | eid :: _ =>
    match s.cycle eid, s.groupDsq eid with
    | some _, e :: _ => some (eid, e.2)
    | _, _ => none

def serialiseRunnable (p : TaskStruct) (s : State) : State :=
  let eid := identifyExecutorGroup p
  if eid = invalidEid then s
  else
    match s.cycle eid, s.ctx p.pid with
    | some cycle, some tctx =>
      let s := s.modifyCtx p.pid TaskCtx.markAwake
      if tctx.isAsleep then
        let s := s.modifyCycle eid SchedCycle.wake
        if cycle.wake.allParked then enqueueCycleForDispatch eid false s else s
      else s
    | _, _ => s

def serialiseRunning (p : TaskStruct) (s : State) : State :=
  s.modifyCtx p.pid TaskCtx.markRunning

def handleExecutorSleep (p : TaskStruct) (s : State) : State :=
  let eid := identifyExecutorGroup p
  if eid = invalidEid then s
  else
    match s.cycle eid, s.ctx p.pid with
    | some cycle, some tctx =>
      let s := s.modifyCtx p.pid TaskCtx.markAsleep
      if tctx.outsider then s
      else if tctx.isAsleep then s
      else
        let s := s.modifyCycle eid (SchedCycle.sleep tctx.state)
        if (cycle.sleep tctx.state).allParked then enqueueCycleForDispatch eid false s else s
    | _, _ => s

def serialiseQuiescent (p : TaskStruct) (deqFlags : Nat) (s : State) : State :=
  if deqFlags &&& scxDeqSleep ≠ 0 then handleExecutorSleep p s else s

/-- The first yield of a registered task joins the cycle, if it is still open. -/
def serialiseYield (cfg : Config) (p : TaskStruct) (s : State) : State :=
  if isKthread p then s
  else
    let eid := identifyExecutorGroup p
    if eid = invalidEid then s
    else if !isSchedExt p then s
    else
      match ensureTaskCtx cfg p eid s with
      | (s, some _) => s
      | (s, none) =>
        match s.cycle eid, s.ctx p.pid with
        | some cycle, some tctx =>
          if tctx.state ≠ .registered then s
          else if cycle.state ≠ .unavailable then
            s.modifyCtx p.pid fun t => { t with state := .ignored }
          else
            (s.modifyCtx p.pid fun t => { t with state := .running }).modifyCycle eid
              SchedCycle.join
        | _, _ => s

/-- The maps forget a task. -/
def forgetTask (pid : Nat) (s : State) : State :=
  { s with taskCtxMap := s.taskCtxMap.erase pid, pidToDetId := s.pidToDetId.erase pid }

def handleExecutorExit (cfg : Config) (p : TaskStruct) (s : State) : State :=
  let eid := identifyExecutorGroup p
  if eid = invalidEid then s
  else
    match s.cycle eid, s.ctx p.pid with
    | some cycle, some tctx =>
      let s := forgetTask p.pid s
      if tctx.outsider then s
      else
        let state := cycle.state
        let cycle := cycle.exit tctx.state tctx.isAsleep
        let s := s.modifyCycle eid (SchedCycle.exit tctx.state tctx.isAsleep)
        let s := if cycle.dispatchableOnExit then
            enqueueCycleForDispatch eid (state = .timeout) s
          else s
        if cycle.finished state then resetCycleState cfg eid s else s
    | _, _ => s

def serialiseExitTask (cfg : Config) (p : TaskStruct) (s : State) : State :=
  handleExecutorExit cfg p s

/-- One element of the timer's scan: an expired task is marked and its group's
gate forced open. -/
def checkDispatchTimeout (now : Nat) (s : State) (pid : Nat) : State :=
  match s.ctx pid with
  | none => s
  | some tctx =>
    if tctx.expired now then
      enqueueCycleForDispatch tctx.eid true
        (s.modifyCtx pid fun t => { t with state := .timeout })
    else s

def dispatchTimerFn (now : Nat) (s : State) : State :=
  (s.taskCtxMap.entries.map Prod.fst).foldl (checkDispatchTimeout now) s

end Sect.Serialise
