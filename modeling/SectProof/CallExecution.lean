import SectProof.OutputStream

/-! # Direct and scheduled execution of a call

`execute_call` runs the body of a call either in the worker thread itself or,
for asynchronous calls of a concurrency test, in a helper thread that it starts
and joins.  The return value travels through the shared thread record, but
`errno` is thread-local: the worker reads its own.
-/

namespace Sect.Executor

def EAGAIN : UInt32 := 11
def EFAULT : UInt32 := 14
def EINVAL : UInt32 := 22

/-- The properties of a call (`call_props_t`). -/
structure CallProps where
  failNth : Nat
  async : Bool
  rerun : Nat
  deriving DecidableEq, Repr

/-- How the body of a call ends: with a value and the `errno` of the thread that
ran it, or, under `NONFAILING`, before it assigns anything. -/
inductive Outcome
  | returned (res : Int64) (errno : UInt32)
  | aborted
  deriving DecidableEq

/-- One attempt of `pthread_create`: whether it succeeded, and the creating
thread's `errno` when it, and after a success `pthread_join`, has returned. -/
structure Attempt where
  created : Bool
  errno : UInt32
  deriving DecidableEq

/-- The worker while it executes a call: the record it shares and its own `errno`. -/
structure Worker where
  th : CallResult
  errno : UInt32

/-- `NONFAILING(th->res = execute_syscall(...))` in the worker itself. -/
def Worker.runDirect (w : Worker) : Outcome → Worker
  | .returned res errno => { th := { w.th with res := res }, errno := errno }
  | .aborted => w

/-- `schedule_thread`: the same in the helper thread, whose `errno` goes with it. -/
def Worker.scheduleThread (w : Worker) : Outcome → Worker
  | .returned res _ => { w with th := { w.th with res := res } }
  | .aborted => w

/-- The loop of `thread_run` with `n` attempts to go, the next one the `i`-th;
`none` is the exit with "pthread_create failed". -/
def threadRunFrom (attempts : Nat → Attempt) (body : Worker → Worker) :
    Nat → Nat → Worker → Option Worker
  | 0, _, _ => none
  | n + 1, i, w =>
    if (attempts i).created then some { body w with errno := (attempts i).errno }
    else if (attempts i).errno = EAGAIN then
      threadRunFrom attempts body n (i + 1) { w with errno := (attempts i).errno }
    else none

/-- `thread_run`. -/
def threadRun (attempts : Nat → Attempt) (body : Worker → Worker) (w : Worker) : Option Worker :=
  threadRunFrom attempts body 100 0 w

/-- The body of the call, in the helper thread or in the worker. -/
def runBody (flagConcurrency : Bool) (props : CallProps) (attempts : Nat → Attempt)
    (outcome : Outcome) (w : Worker) : Option Worker :=
  if flagConcurrency && props.async then
    threadRun attempts (fun w => w.scheduleThread outcome) w
  else some (w.runDirect outcome)

/-- `th->reserrno = errno`, with the corrections for calls that misbehave. -/
def Worker.record (ignoreReturn : Bool) (w : Worker) : CallResult :=
  { w.th with
    reserrno := if (w.th.res = -1 ∧ w.errno = 0) ∨ ignoreReturn then EINVAL else w.errno }

/-- `execute_call`, as far as the result of the call goes; `none` is a process
exit.  The repetitions that `rerun` asks for come after the result is recorded. -/
def executeCall (flagConcurrency ignoreReturn : Bool) (props : CallProps)
    (attempts : Nat → Attempt) (outcome : Outcome) (th : CallResult) : Option CallResult :=
  if props.failNth > 0 ∧ props.rerun > 0 then none
  else
    (runBody flagConcurrency props attempts outcome
      { th := { th with res := -1 }, errno := EFAULT }).map (Worker.record ignoreReturn)

/-- The value a body leaves in the thread record. -/
def Outcome.res : Outcome → Int64
  | .returned res _ => res
  | .aborted => -1

/-- The `errno` of the thread that ran the body; before an abort it is `EFAULT`. -/
def Outcome.errno : Outcome → UInt32
  | .returned _ errno => errno
  | .aborted => EFAULT

/-- A missing error number is recorded as `EINVAL`. -/
def recorded (errno : UInt32) : UInt32 := if errno = 0 then EINVAL else errno

/-- The creating thread's `errno` after `thread_run`: that of the first attempt
that succeeds. -/
def errnoAfterFrom (attempts : Nat → Attempt) : Nat → Nat → UInt32
  | 0, _ => 0
  | n + 1, i => if (attempts i).created then (attempts i).errno
      else errnoAfterFrom attempts n (i + 1)

def errnoAfter (attempts : Nat → Attempt) : UInt32 := errnoAfterFrom attempts 100 0

section Results
variable {attempts : Nat → Attempt} {outcome : Outcome} {w w' : Worker}

theorem threadRunFrom_some {n i : Nat}
    (h : threadRunFrom attempts (fun w => w.scheduleThread outcome) n i w = some w') :
    w'.th = (w.scheduleThread outcome).th ∧ w'.errno = errnoAfterFrom attempts n i := by
  induction n generalizing i w with
  | zero => cases h
  | succ n ih =>
    unfold threadRunFrom at h
    unfold errnoAfterFrom
    split at h
    · rename_i hcreated
      rw [if_pos hcreated]
      cases h
      exact ⟨rfl, rfl⟩
    · rename_i hrefused
      rw [if_neg hrefused]
      split at h
      · obtain ⟨hth, herrno⟩ := ih h
        refine ⟨hth.trans ?_, herrno⟩
        cases outcome <;> rfl
      · cases h

/-- The two ways to run a body leave the same record. -/
theorem scheduleThread_th (w : Worker) (outcome : Outcome) :
    (w.scheduleThread outcome).th = (w.runDirect outcome).th := by
  cases outcome <;> rfl

theorem runDirect_fields (th : CallResult) (outcome : Outcome) :
    let w : Worker := { th := { th with res := -1 }, errno := EFAULT }
    (w.runDirect outcome).th = { th with res := outcome.res } ∧
      (w.runDirect outcome).errno = outcome.errno := by
  cases outcome <;> exact ⟨rfl, rfl⟩

/-- What `execute_call` records, whichever thread runs the body: only the `errno`
it is given differs. -/
theorem executeCall_some {flagConcurrency ignoreReturn : Bool} {props : CallProps}
    {th th' : CallResult}
    (h : executeCall flagConcurrency ignoreReturn props attempts outcome th = some th') :
    th'.res = outcome.res ∧
      replyErrno th' true =
        if outcome.res ≠ -1 then 0
        else if ignoreReturn then EINVAL
        else recorded (if flagConcurrency && props.async then errnoAfter attempts
          else outcome.errno) := by
  unfold executeCall at h
  split at h
  · cases h
  obtain ⟨w, hw, rfl⟩ := Option.map_eq_some_iff.mp h
  obtain ⟨hth, herrno⟩ := runDirect_fields th outcome
  have hw' : w.th = { th with res := outcome.res } ∧
      w.errno = if flagConcurrency && props.async then errnoAfter attempts
        else outcome.errno := by
    unfold runBody at hw
    split at hw
    · rename_i hhelper
      obtain ⟨hrun, hleft⟩ := threadRunFrom_some hw
      rw [if_pos hhelper]
      exact ⟨hrun.trans ((scheduleThread_th _ _).trans hth), hleft⟩
    · rename_i hhelper
      cases hw
      rw [if_neg hhelper]
      exact ⟨hth, herrno⟩
  rw [← hw'.2]
  have hres : w.th.res = outcome.res := by rw [hw'.1]
  refine ⟨hres, ?_⟩
  simp only [replyErrno, recorded, Worker.record, hres, if_true]
  by_cases hfail : outcome.res = -1 <;> by_cases hzero : w.errno = 0 <;>
    cases ignoreReturn <;> simp [hfail, hzero]

end Results

/-- **Which results do not depend on the thread that ran the call.**  The return
value never does.  The error number that is reported does not exactly when the
call is not asynchronous, has not failed, ignores its return value, or set the
very error number that thread creation left in the worker. -/
theorem executeCall_errno_iff (ignoreReturn : Bool) (props : CallProps)
    (attempts : Nat → Attempt) (outcome : Outcome) (th direct scheduled : CallResult)
    (hdirect : executeCall false ignoreReturn props attempts outcome th = some direct)
    (hscheduled : executeCall true ignoreReturn props attempts outcome th = some scheduled) :
    scheduled.res = direct.res ∧
      (replyErrno scheduled true = replyErrno direct true ↔
        props.async = false ∨ outcome.res ≠ -1 ∨ ignoreReturn = true ∨
          recorded outcome.errno = recorded (errnoAfter attempts)) := by
  obtain ⟨hres, herrno⟩ := executeCall_some hdirect
  obtain ⟨hres', herrno'⟩ := executeCall_some hscheduled
  refine ⟨hres'.trans hres.symm, ?_⟩
  rw [herrno, herrno']
  by_cases hfail : outcome.res = -1
  · cases ignoreReturn <;> cases props.async <;> simp [hfail, eq_comm]
  · simp [hfail]

/-- A thread record before its call. -/
def idleRecord : CallResult where
  callIndex := 0
  callNum := 0
  res := 0
  reserrno := 0
  faultInjected := false
  cov := ⟨[], [], 0⟩
  callIndex_lt := by decide
  callNum_lt := by decide

/-- Thread creation that succeeds at once and leaves `errno` alone. -/
def createdAtOnce : Nat → Attempt := fun _ => ⟨true, EFAULT⟩

theorem executeCall_errno_faulting :
    ∃ direct scheduled,
      executeCall false false ⟨0, true, 0⟩ createdAtOnce (.returned (-1) EFAULT) idleRecord =
        some direct ∧
      executeCall true false ⟨0, true, 0⟩ createdAtOnce (.returned (-1) EFAULT) idleRecord =
        some scheduled ∧
      replyErrno scheduled true = replyErrno direct true :=
  ⟨_, _, rfl, rfl, (executeCall_errno_iff false ⟨0, true, 0⟩ createdAtOnce
    (.returned (-1) EFAULT) idleRecord _ _ rfl rfl).2.mpr (.inr (.inr (.inr rfl)))⟩

/-- A call that fails with `EAGAIN` is reported with `EAGAIN` when it runs
directly and with `EFAULT` when it runs in the helper thread. -/
theorem executeCall_errno_lost :
    ∃ direct scheduled,
      executeCall false false ⟨0, true, 0⟩ createdAtOnce (.returned (-1) EAGAIN) idleRecord =
        some direct ∧
      executeCall true false ⟨0, true, 0⟩ createdAtOnce (.returned (-1) EAGAIN) idleRecord =
        some scheduled ∧
      replyErrno direct true = EAGAIN ∧ replyErrno scheduled true = EFAULT :=
  ⟨_, _, rfl, rfl, rfl, rfl⟩

end Sect.Executor
