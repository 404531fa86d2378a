import SectProof.CallExecution
import SectProof.StepRuns

/-! # The executor's threads while a program runs

`execute_one` interprets a program and hands its calls to at most `kMaxThreads`
worker threads.  A call may finish while the interpreter waits for it, after its
timeout during a later call, in the final wait, or never.  The model has one
step per access of the interpreter to a thread, and lets the workers start and
finish their calls between any two of them.

`Pool` is the state that thread accounting is about, with the operations that
change it (`thread_create`, `schedule_call`, `handle_completion` and the two
steps of a worker); `ExecState` adds where the interpreter stands.
-/

namespace Sect.Executor

def kMaxThreads : Nat := 32
def kMaxCommands : Nat := 1000

abbrev ThreadId := Fin kMaxThreads

/-- An instruction of a serialized program, as far as scheduling goes. -/
inductive Instr
  | copyin
  | copyout (index : Nat)
  | setprops (props : CallProps)
  | call (num : Nat) (copyoutIndex : Option Nat)
  deriving DecidableEq

/-- Why the process exits in the middle of a program. -/
inductive Exit
  | outOfThreads
  | badSchedule
  | badCompletion
  | negativeRunning
  | nonMainThread
  | failed
  deriving DecidableEq

/-- The fields of `thread_t` that scheduling uses; `working` is set while the
worker executes its call. -/
structure Thread where
  created : Bool
  ready : Bool
  done : Bool
  working : Bool
  executing : Bool
  callIndex : Nat
  copyoutPos : Nat
  copyoutIndex : Option Nat
  res : Int64
  deriving DecidableEq

/-- The thread after its call has been dealt with. -/
def Thread.idled (th : Thread) : Thread := { th with executing := false }

/-- The thread after a call has been handed to it. -/
def Thread.assigned (th : Thread) (call pos : Nat) (copyoutIndex : Option Nat) : Thread :=
  { th with
    copyoutPos := pos, copyoutIndex := copyoutIndex, done := false, executing := true
    callIndex := call, ready := true }

/-- What the interpreter does to the outside: a call is handed to a thread (was
it executing?), a result slot is marked executed, a reply is written. -/
inductive LogEntry
  | scheduled (call : Nat) (thread : ThreadId) (executing : Bool)
  | marked (call slot : Nat)
  | reply (call : Nat) (finished blocked : Bool)
  deriving DecidableEq

structure Pool where
  threads : ThreadId → Thread
  running : Int
  lastScheduled : Option ThreadId
  nextCall : Nat
  results : Nat → Bool
  log : List LogEntry

/-- The program and its environment: which calls the build supports, and which
copyouts can read their address. -/
structure ExecConfig where
  prog : List Instr
  flagThreaded : Bool
  enabled : Nat → Bool
  readable : Nat → Bool

/-- The slots of the copyout instructions at the start of a list. -/
def copyoutRun : List Instr → List Nat
  | .copyout index :: rest => index :: copyoutRun rest
  | _ => []

/-- Of these, the ones whose address can be read; `pos` is the first position. -/
def copyoutRead (readable : Nat → Bool) : Nat → List Instr → List Nat
  | pos, .copyout index :: rest =>
    if readable pos then index :: copyoutRead readable (pos + 1) rest
    else copyoutRead readable (pos + 1) rest
  | _, _ => []

section Operations
variable (cfg : ExecConfig)

/-- The slots that `copyout_call_results` marks. -/
def Thread.slots (th : Thread) : List Nat :=
  th.copyoutIndex.toList ++ copyoutRead cfg.readable th.copyoutPos (cfg.prog.drop th.copyoutPos)

/-- The slots whose numbers it checks against `kMaxCommands`. -/
def Thread.checkedSlots (th : Thread) : List Nat :=
  th.copyoutIndex.toList ++ copyoutRun (cfg.prog.drop th.copyoutPos)

/-- The slots marked at the completion of a call: none when it failed. -/
def Thread.marks (th : Thread) : List Nat := if th.res ≠ -1 then th.slots cfg else []

namespace Pool

/-- A thread record is replaced. -/
def setThread (p : Pool) (i : ThreadId) (th : Thread) : Pool :=
  { p with threads := Function.update p.threads i th }

/-- `thread_create`. -/
def create (p : Pool) (i : ThreadId) : Pool :=
  p.setThread i { p.threads i with
    created := true, executing := false, ready := false, done := true, working := false }

/-- `handle_completion`, with `copyout_call_results` and `write_call_output`. -/
def complete (p : Pool) (i : ThreadId) : Except Exit Pool :=
  let th := p.threads i
  if th.ready || !th.done || !th.executing then .error .badCompletion
  else if th.res ≠ -1 ∧ ∃ slot ∈ th.checkedSlots cfg, kMaxCommands ≤ slot then .error .failed
  else if p.running - 1 < 0 then .error .negativeRunning
  else .ok
    { p with
      threads := Function.update p.threads i th.idled
      running := p.running - 1
      results := fun slot => p.results slot || decide (slot ∈ th.marks cfg)
      log := p.log ++ ((th.marks cfg).map (.marked th.callIndex) ++
        [.reply th.callIndex true (p.lastScheduled ≠ some i)]) }

/-- The second half of `schedule_call`, for the spare thread that was found. -/
def schedule (p : Pool) (i : ThreadId) (pos : Nat) (copyoutIndex : Option Nat) :
    Except Exit Pool :=
  let th := p.threads i
  if th.ready || !th.done || th.executing then .error .badSchedule
  else .ok
    { p with
      threads := Function.update p.threads i (th.assigned p.nextCall pos copyoutIndex)
      running := p.running + 1
      lastScheduled := some i
      nextCall := p.nextCall + 1
      log := p.log ++ [.scheduled p.nextCall i th.executing] }

/-- `write_call_output` for a call that has not finished. -/
def reportUnfinished (p : Pool) (i : ThreadId) : Pool :=
  { p with log := p.log ++ [.reply (p.threads i).callIndex false false] }

/-- A worker sees `ready` and takes its call. -/
def workerStart (p : Pool) (i : ThreadId) : Option Pool :=
  if (p.threads i).created ∧ (p.threads i).ready then
    some (p.setThread i { p.threads i with ready := false, working := true })
  else none

/-- A worker has executed its call and sets `done`. -/
def workerFinish (p : Pool) (i : ThreadId) (res : Int64) : Option Pool :=
  if (p.threads i).working then
    some (p.setThread i { p.threads i with working := false, done := true, res := res })
  else none

end Pool

end Operations

/-- Where `execute_one` stands.  `scan`, `check`, `drain` and `report` are its
loops over the threads, at the given thread. -/
inductive Phase
  | fetch (pc : Nat)
  | scan (pc : Nat) (copyoutIndex : Option Nat) (i : Nat)
  | wait (pc : Nat) (i : ThreadId)
  | check (pc : Nat) (i : Nat)
  | direct (pc : Nat) (i : ThreadId)
  | drain (i : Nat)
  | report (i : Nat)
  | returned
  | exited (reason : Exit)
  deriving DecidableEq

structure ExecState where
  pool : Pool
  props : CallProps
  phase : Phase

/-- What can happen next: a step of the interpreter, a timeout it observes, the
result of a call it executes itself, a worker that starts or finishes, or a
failure elsewhere that ends the process. -/
inductive ExecLabel
  | main
  | timeout
  | direct (res : Int64)
  | start (i : ThreadId)
  | finish (i : ThreadId) (res : Int64)
  | fail
  deriving DecidableEq

/-- `memset(&call_props, 0, sizeof(call_props))`. -/
def noProps : CallProps := ⟨0, false, 0⟩

namespace ExecState
variable (cfg : ExecConfig)

/-- Continue with the result of an operation, or exit. -/
def continueWith (s : ExecState) (r : Except Exit Pool) (props : CallProps) (phase : Phase) :
    ExecState :=
  match r with
  | .ok p => { pool := p, props := props, phase := phase }
  | .error reason => { s with phase := .exited reason }

/-- `handle_completion` of thread `i` if it has finished a call; then on. -/
def completeIf (s : ExecState) (i : ThreadId) (props : CallProps) (phase : Phase) : ExecState :=
  if (s.pool.threads i).executing ∧ (s.pool.threads i).done then
    s.continueWith (s.pool.complete cfg i) props phase
  else { s with props := props, phase := phase }

/-- What follows `schedule_call`: nothing for an asynchronous call, otherwise the
wait, or the call itself when there are no worker threads. -/
def afterSchedule (s : ExecState) (pc : Nat) (i : ThreadId) : CallProps × Phase :=
  if s.props.async && cfg.flagThreaded then (noProps, .fetch (pc + 1))
  else if cfg.flagThreaded then (s.props, .wait pc i)
  else (s.props, .direct pc i)

/-- `schedule_call` at thread `i`: create it if necessary, use it if it is done. -/
def scanThread (s : ExecState) (pc : Nat) (copyoutIndex : Option Nat) (i : ThreadId) :
    ExecState :=
  let p := if (s.pool.threads i).created then s.pool else s.pool.create i
  if (p.threads i).done then
    let completed := if (p.threads i).executing then p.complete cfg i else .ok p
    let next := s.afterSchedule cfg pc i
    s.continueWith (completed >>= fun p => p.schedule i (pc + 1) copyoutIndex) next.1 next.2
  else { s with pool := p, phase := .scan pc copyoutIndex (i + 1) }

/-- The end of the program: wait for the calls that are still running. -/
def finish (s : ExecState) : ExecState :=
  if s.pool.running > 0 then
    { s with pool := { s.pool with lastScheduled := none }, phase := .drain kMaxThreads }
  else { s with phase := .returned }

/-- One step of the interpreter. -/
def mainStep (s : ExecState) : Option ExecState :=
  match s.phase with
  | .fetch pc =>
    match cfg.prog[pc]? with
    | none => some s.finish
    | some .copyin => some { s with phase := .fetch (pc + 1) }
    | some (.copyout _) => some { s with phase := .fetch (pc + 1) }
    | some (.setprops props) => some { s with props := props, phase := .fetch (pc + 1) }
    | some (.call num copyoutIndex) =>
      if cfg.enabled num then some { s with phase := .scan pc copyoutIndex 0 }
      else some { s with phase := .exited .failed }
  | .scan pc copyoutIndex i =>
    if h : i < kMaxThreads then some (s.scanThread cfg pc copyoutIndex ⟨i, h⟩)
    else some { s with phase := .exited .outOfThreads }
  | .wait pc i =>
    if (s.pool.threads i).done then
      some (s.continueWith (s.pool.complete cfg i) s.props (.check pc 0))
    else none
  | .check pc i =>
    if h : i < kMaxThreads then some (s.completeIf cfg ⟨i, h⟩ s.props (.check pc (i + 1)))
    else some { s with props := noProps, phase := .fetch (pc + 1) }
  | .drain i =>
    if h : i < kMaxThreads then some (s.completeIf cfg ⟨i, h⟩ s.props (.drain (i + 1)))
    else if s.pool.running > 0 then some { s with phase := .drain 0 }
    else some { s with phase := .returned }
  | .report i =>
    if h : i < kMaxThreads then
      if (s.pool.threads ⟨i, h⟩).executing then
        some { s with pool := s.pool.reportUnfinished ⟨i, h⟩, phase := .report (i + 1) }
      else some { s with phase := .report (i + 1) }
    else some { s with phase := .returned }
  | .direct _ _ => none
  | .returned => none
  | .exited _ => none

/-- A timeout: of the wait for a call, or of the final wait. -/
def timeoutStep (s : ExecState) : Option ExecState :=
  match s.phase with
  | .wait pc i => if (s.pool.threads i).done then none else some { s with phase := .check pc 0 }
  | .drain i =>
    if i < kMaxThreads then none
    else if s.pool.running > 0 then some { s with phase := .report 0 }
    else some { s with phase := .returned }
  | _ => none

/-- The call is executed by the interpreter itself. -/
def directStep (s : ExecState) (res : Int64) : Option ExecState :=
  match s.phase with
  | .direct pc i =>
    if i.val ≠ 0 then some { s with phase := .exited .nonMainThread }
    else
      let p := s.pool.setThread i
        { s.pool.threads i with ready := false, done := true, res := res }
      some (s.continueWith (p.complete cfg i) noProps (.fetch (pc + 1)))
  | _ => none

/-- No step leads out of a program that has ended. -/
def ended (s : ExecState) : Bool :=
  match s.phase with
  | .returned => true
  | .exited _ => true
  | _ => false

/-- One step of the whole executor. -/
def step (s : ExecState) : ExecLabel → Option ExecState
  | .main => s.mainStep cfg
  | .timeout => s.timeoutStep
  | .direct res => s.directStep cfg res
  | .start i =>
    if s.ended || !cfg.flagThreaded then none
    else (s.pool.workerStart i).map fun p => { s with pool := p }
  | .finish i res =>
    if s.ended || !cfg.flagThreaded then none
    else (s.pool.workerFinish i res).map fun p => { s with pool := p }
  | .fail => if s.ended then none else some { s with phase := .exited .failed }

/-- The executor when it begins a program: no thread executes a call, and the
threads that exist wait for one. -/
structure Fresh (s : ExecState) : Prop where
  phase : s.phase = .fetch 0
  running : s.pool.running = 0
  nextCall : s.pool.nextCall = 0
  results : ∀ slot, s.pool.results slot = false
  log : s.pool.log = []
  idle : ∀ i, (s.pool.threads i).executing = false ∧ (s.pool.threads i).ready = false ∧
    (s.pool.threads i).working = false
  waiting : ∀ i, (s.pool.threads i).created = true → (s.pool.threads i).done = true

end ExecState

end Sect.Executor
