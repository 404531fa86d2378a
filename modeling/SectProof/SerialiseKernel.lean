import SectProof.SerialiseCallbacks
import SectProof.StepRuns

/-! # What the kernel delivers

The scheduler does not choose its callbacks: `sched_ext` calls it, in an order
that follows each task through its life.  `Phase` is where the kernel has a
participant of a cycle, `Callback` is one delivered callback with its arguments
(clock readings and random numbers included), and `Sys.step` runs it as one
atomic step if the kernel may deliver it in that phase.

* A task outside every cycle (not registered, not joined, or ignored) may see
  any callback at any time.
* A participant is enqueued after its first yield, which parks it; a dispatch
  moves it to a local queue; it runs; and then it is enqueued again, or sleeps
  and wakes, or sleeps for good and exits.
* The kernel also takes a task out of the queue it is in when the task sleeps
  there, and when its affinity, priority or policy changes (`dequeue`, or a
  `quiescent` without the sleep flag); it is then enqueued again, or exits.
* A task keeps its group while it has a context, and `enqueue` is only called
  for `SCHED_EXT` tasks (the scheduler runs in switch-partial mode). -/

namespace Sect.Serialise

/-- Where the kernel has a task. -/
inductive Phase
  | outside     -- not a participant of a cycle
  | yielded     -- joined through its first yield, not yet enqueued
  | parked      -- in the queue of its group
  | dispatched  -- moved to a local queue, not yet running
  | onCpu
  | asleep
  | waking      -- between its runnable and enqueue callbacks
  | detached    -- taken out of a queue or off a CPU for another reason than sleep
  | global      -- in `SCX_DSQ_GLOBAL`
  deriving DecidableEq, Repr

/-- One callback, with its arguments. -/
inductive Callback
  | initTask (p : TaskStruct)
  | yield (p : TaskStruct)
  | enqueue (p : TaskStruct) (now : Nat) (rng : Rng)
  | dequeue (p : TaskStruct)
  | dispatch
  | runnable (p : TaskStruct)
  | running (p : TaskStruct)
  | quiescent (p : TaskStruct) (deqFlags : Nat)
  | exitTask (p : TaskStruct)
  | timer (now : Nat)

/-- The quiescent callback reports a sleep. -/
def sleeps (deqFlags : Nat) : Bool := deqFlags &&& scxDeqSleep ≠ 0

/-- The task a callback is about. -/
def Callback.task : Callback → Option TaskStruct
  | .initTask p | .yield p | .enqueue p _ _ | .dequeue p | .runnable p | .running p
  | .quiescent p _ | .exitTask p => some p
  | .dispatch | .timer _ => none

/-- The phases in which a task may see a callback. -/
def Callback.phases : Callback → List Phase
  | .initTask _ => [.outside]
  | .yield _ => [.outside, .onCpu]
  | .enqueue _ _ _ => [.outside, .yielded, .onCpu, .waking, .detached]
  | .dequeue _ => [.outside, .parked, .dispatched, .global]
  | .runnable _ => [.outside, .asleep, .detached]
  | .running _ => [.outside, .dispatched, .global]
  | .quiescent _ deqFlags =>
    if sleeps deqFlags then [.outside, .onCpu, .parked, .dispatched, .global]
    else [.outside, .onCpu, .detached]
  | .exitTask _ => [.outside, .asleep, .detached]
  | .dispatch | .timer _ => []

/-- The scheduler's state and where the kernel has each task. -/
structure Sys where
  bpf : State
  phase : Nat → Phase

namespace Sys

/-- Nothing registered, no participants. -/
def init : Sys := ⟨.init, fun _ => .outside⟩

/-- The scheduler's state is replaced and a task moves to a phase. -/
def moveTo (x : Sys) (s : State) (pid : Nat) (ph : Phase) : Sys :=
  ⟨s, Function.update x.phase pid ph⟩

/-- The task still has the group it was registered with. -/
def keepsGroup (x : Sys) (p : TaskStruct) : Bool :=
  (x.bpf.ctx p.pid).all fun c => identifyExecutorGroup p = c.eid

/-- A participant is only enqueued as a `SCHED_EXT` user task. -/
def schedulable (x : Sys) : Callback → Bool
  | .enqueue p _ _ => x.phase p.pid = .outside || (!isKthread p && isSchedExt p)
  | _ => true

/-- The kernel may deliver the callback. -/
def allows (x : Sys) (cb : Callback) : Bool :=
  x.schedulable cb &&
    cb.task.all fun p => x.keepsGroup p && decide (x.phase p.pid ∈ cb.phases)

/-- The kernel takes a task out of its group's queue, if it is there. -/
def unpark (p : TaskStruct) (s : State) : State :=
  let eid := identifyExecutorGroup p
  s.setDsq eid (VtimeQueue.remove p.pid (s.groupDsq eid))

/-- The phase after a yield: a task that has just joined waits to be enqueued. -/
def yieldedPhase (x : Sys) (p : TaskStruct) (s : State) : Phase :=
  if x.phase p.pid = .outside ∧ (s.ctx p.pid).any TaskCtx.joined then .yielded
  else x.phase p.pid

/-- The phase after an enqueue, read off where the task was inserted. -/
def enqueuedPhase (x : Sys) (p : TaskStruct) (s : State) : Phase :=
  if (s.groupDsq (identifyExecutorGroup p)).any fun e => e.2 = p.pid then .parked
  else if x.phase p.pid = .outside then .outside
  else .global

/-- A participant moves to a phase; the others stay outside. -/
def advance (x : Sys) (s : State) (pid : Nat) (ph : Phase) : Sys :=
  x.moveTo s pid (if x.phase pid = .outside then .outside else ph)

/-- The effect of a delivered callback. -/
def deliver (cfg : Config) (x : Sys) : Callback → Sys
  | .initTask p => { x with bpf := (serialiseInitTask cfg p x.bpf).1 }
  | .yield p =>
    let s := serialiseYield cfg p x.bpf
    x.moveTo s p.pid (x.yieldedPhase p s)
  | .enqueue p now rng =>
    let s := serialiseEnqueue cfg p now rng x.bpf
    x.moveTo s p.pid (x.enqueuedPhase p s)
  | .dequeue p => x.advance (serialiseDequeue p (unpark p x.bpf)) p.pid .detached
  | .dispatch =>
    let s := serialiseDispatch x.bpf
    match dispatchedTask x.bpf with
    | none => { x with bpf := s }
    | some (_, pid) => x.moveTo s pid .dispatched
  | .runnable p =>
    let s := serialiseRunnable p x.bpf
    if x.phase p.pid = .asleep then x.moveTo s p.pid .waking else { x with bpf := s }
  | .running p => x.advance (serialiseRunning p x.bpf) p.pid .onCpu
  | .quiescent p deqFlags =>
    x.advance (serialiseQuiescent p deqFlags (unpark p x.bpf)) p.pid
      (if sleeps deqFlags then .asleep else .detached)
  | .exitTask p => x.moveTo (serialiseExitTask cfg p x.bpf) p.pid .outside
  | .timer now => { x with bpf := dispatchTimerFn now x.bpf }

/-- One atomic step: a callback the kernel may deliver. -/
def step (cfg : Config) (x : Sys) (cb : Callback) : Option Sys :=
  if x.allows cb then some (x.deliver cfg cb) else none

/-- A run of callbacks. -/
abbrev run (cfg : Config) : Sys → List Callback → Option Sys := StepRuns.run (step cfg)

theorem step_eq_some {cfg : Config} {x y : Sys} {cb : Callback} :
    x.step cfg cb = some y ↔ x.allows cb = true ∧ x.deliver cfg cb = y := by
  unfold step
  split <;> simp_all

end Sys

end Sect.Serialise
