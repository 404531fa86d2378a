import SectProof.BpfObjects

/-! # The state of the serialising scheduler

`scx_serialise` parks the threads of one `syz-executor.N` group in a private
dispatch queue and lets one of them run at a time.  This module holds the data:
the two state machines of the header (threads and cycles), the per-group
`SchedCycle`, the per-task `TaskCtx`, the maps they live in and the dispatch
queues.

The counters of a cycle are C `int`s and are modelled as `Int`: at most
`maxExecutorGroups * maxCycleThreads` task contexts exist, so they cannot
overflow.  The `u32` and `u64` fields are `Nat`s, reduced modulo `2 ^ 32` and
`2 ^ 64` where the source computes with them.  The `nr_*` statistics are only
read by the user-space printer and are left out. -/

namespace Sect.Serialise

/-! ## Constants -/

def schedExtPolicy : Nat := 7
def maxCycleThreads : Nat := 200
def maxExecutorGroups : Nat := 10
/-- What `identifyExecutorGroup` returns for a task that takes no part. -/
def invalidEid : Nat := maxExecutorGroups + 1
def msToNs : Nat := 1000 * 1000
def timeoutBudget : Nat := 60 * msToNs
def u32Max : Nat := 2 ^ 32 - 1
def s32Max : Nat := 2 ^ 31 - 1
/-- `max_entries` of `task_ctx_map`, `pid_to_det_id` and the two PCT maps. -/
def maxTasks : Nat := maxExecutorGroups * maxCycleThreads
/-- `max_entries` of `cycle_dispatch_queue`. -/
def dispatchQueueEntries : Nat := 64
def pfKthread : Nat := 0x00200000
def scxDeqSleep : Nat := 1
/-- Marks that the access metadata in the task's `rt` fields is valid. -/
def rtMagic : Nat := 0xdeadbeef

/-! ## Threads, cycles and tasks -/

/-- `THREAD_*`. -/
inductive ThreadState
  | registered
  | enqueued
  | running
  | timeout
  | ignored
  deriving DecidableEq, Repr

/-- `CYCLE_*`. -/
inductive CycleState
  | unavailable
  | ready
  | running
  | timeout
  deriving DecidableEq, Repr

/-- `enum sched_algo`. -/
inductive SchedAlgo
  | pct
  | pos
  | rw
  | rp
  deriving DecidableEq, Repr

/-- The read-only configuration the loader fills in from `-n`, `-d` and `-r`. -/
structure Config where
  cycleThreadCount : Int
  depth : Nat
  schedAlgorithm : SchedAlgo

/-- The bounds the loader enforces on `-n` and `-d` before it loads the
scheduler. -/
structure Config.Loaded (cfg : Config) : Prop where
  one_le_threads : 1 ≤ cfg.cycleThreadCount
  threads_le : cfg.cycleThreadCount ≤ maxCycleThreads
  one_le_depth : 1 ≤ cfg.depth
  depth_le : cfg.depth ≤ maxCycleThreads + 1

/-- `struct sched_cycle`. -/
structure SchedCycle where
  numExpectedThreads : Int
  numQueued : Int
  numAsleep : Int
  numAlive : Int
  nextDetId : Nat
  expectedEventsPerCycle : Nat
  numEventsSeen : Nat
  pctStrata : Nat
  algoInitialized : Bool
  pendingDispatch : Bool
  state : CycleState
  deriving DecidableEq, Repr

/-- `struct task_ctx`. -/
structure TaskCtx where
  priority : Nat
  eid : Nat
  detId : Nat
  isAsleep : Bool
  pctInitialized : Bool
  nextEventAddrs : Nat
  isWrite : Bool
  state : ThreadState
  lastEnqueueTime : Nat
  deriving DecidableEq, Repr

/-- The task is accounted in its cycle: it has yielded while the cycle was
unavailable, and has not exited. -/
def TaskCtx.joined (c : TaskCtx) : Bool :=
  c.state = .enqueued || c.state = .running || c.state = .timeout

/-- What the instrumented kernel leaves in `p->rt`: the marker, the address of
the next access and whether it writes. -/
structure RtMessage where
  timeout : Nat
  back : Nat
  timeSlice : Nat
  deriving DecidableEq, Repr

/-- The fields of `struct task_struct` the scheduler reads.  `comm` and `rt` are
read with `bpf_probe_read_kernel`; `none` is a failed read. -/
structure TaskStruct where
  pid : Nat
  comm : Option (List Char)
  flags : Nat
  policy : Nat
  rt : Option RtMessage
  deriving DecidableEq, Repr

/-- The scheduler's maps and the group dispatch queues, each a list of
(vtime, pid) in dispatch order. -/
structure State where
  schedCycleMap : Table Nat SchedCycle
  taskCtxMap : Table Nat TaskCtx
  pidToDetId : Table Nat Nat
  cycleDispatchQueue : List Nat
  pctPriorities : Table Nat Nat
  pctChangePoints : Table Nat Nat
  groupDsq : Nat → List (Nat × Nat)

/-- Nothing registered, every queue empty. -/
def State.init : State where
  schedCycleMap := .empty
  taskCtxMap := .empty
  pidToDetId := .empty
  cycleDispatchQueue := []
  pctPriorities := .empty
  pctChangePoints := .empty
  groupDsq := fun _ => []

namespace State

/-- The cycle of group `eid`. -/
def cycle (s : State) (eid : Nat) : Option SchedCycle := s.schedCycleMap.lookup eid

/-- The context of task `pid`. -/
def ctx (s : State) (pid : Nat) : Option TaskCtx := s.taskCtxMap.lookup pid

/-- A section under `cycle->lock`. -/
def modifyCycle (s : State) (eid : Nat) (f : SchedCycle → SchedCycle) : State :=
  { s with schedCycleMap := s.schedCycleMap.modify eid f }

/-- A section under `tctx->lock`. -/
def modifyCtx (s : State) (pid : Nat) (f : TaskCtx → TaskCtx) : State :=
  { s with taskCtxMap := s.taskCtxMap.modify pid f }

/-- The dispatch queue of group `eid` is replaced. -/
def setDsq (s : State) (eid : Nat) (q : List (Nat × Nat)) : State :=
  { s with groupDsq := Function.update s.groupDsq eid q }

section Fields
variable (s : State) (eid eid' pid pid' : Nat) (f : SchedCycle → SchedCycle)
  (g : TaskCtx → TaskCtx) (q : List (Nat × Nat))

@[simp] theorem cycle_modifyCycle :
    (s.modifyCycle eid f).cycle eid = (s.cycle eid).map f :=
  Table.lookup_modify_self ..

theorem cycle_modifyCycle_of_ne (h : eid' ≠ eid) :
    (s.modifyCycle eid f).cycle eid' = s.cycle eid' :=
  Table.lookup_modify_of_ne h ..

@[simp] theorem ctx_modifyCycle : (s.modifyCycle eid f).ctx pid = s.ctx pid := rfl

@[simp] theorem cycle_modifyCtx : (s.modifyCtx pid g).cycle eid = s.cycle eid := rfl

@[simp] theorem ctx_modifyCtx : (s.modifyCtx pid g).ctx pid = (s.ctx pid).map g :=
  Table.lookup_modify_self ..

theorem ctx_modifyCtx_of_ne (h : pid' ≠ pid) : (s.modifyCtx pid g).ctx pid' = s.ctx pid' :=
  Table.lookup_modify_of_ne h ..

@[simp] theorem cycle_setDsq : (s.setDsq eid q).cycle eid' = s.cycle eid' := rfl

@[simp] theorem ctx_setDsq : (s.setDsq eid q).ctx pid = s.ctx pid := rfl

@[simp] theorem groupDsq_setDsq : (s.setDsq eid q).groupDsq eid = q :=
  Function.update_self ..

theorem groupDsq_setDsq_of_ne (h : eid' ≠ eid) : (s.setDsq eid q).groupDsq eid' = s.groupDsq eid' :=
  Function.update_of_ne h ..

@[simp] theorem groupDsq_modifyCycle : (s.modifyCycle eid f).groupDsq = s.groupDsq := rfl

@[simp] theorem groupDsq_modifyCtx : (s.modifyCtx pid g).groupDsq = s.groupDsq := rfl

@[simp] theorem queue_modifyCycle :
    (s.modifyCycle eid f).cycleDispatchQueue = s.cycleDispatchQueue := rfl

@[simp] theorem queue_modifyCtx :
    (s.modifyCtx pid g).cycleDispatchQueue = s.cycleDispatchQueue := rfl

@[simp] theorem queue_setDsq :
    (s.setDsq eid q).cycleDispatchQueue = s.cycleDispatchQueue := rfl

end Fields

end State

/-! ## The random source -/

/-- The results `bpf_get_prandom_u32` will return, in order. -/
abbrev Rng := Nat → Nat

/-- The next result and the source after it. -/
def bpfGetPrandomU32 (r : Rng) : Nat × Rng := (r 0 % 2 ^ 32, fun n => r (n + 1))

end Sect.Serialise
