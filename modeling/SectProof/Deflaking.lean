import SectProof.Signals
import SectProof.ReplyParser
import SectProof.ProgConditions

/-! # Deflaking

`triageJob.deflake` of `pkg/fuzzer/job.go` runs a program three times and keeps
the signal that all runs have in common; one run may fail.  The accumulators are
set up by the run number 0.  **`deflake_stable_iff`** says that the result is the
common signal exactly if that run does not fail.
-/

open List

namespace Sect.Fuzzer

open Sect.Program (Target Cells Call Prog)

/-- `CallContainsAny`. -/
def callContainsAny (target : Target) (cells : Cells) (c : Call) : Bool :=
  (c.ret.toList.map Program.Arg.result ++ c.subArgs).any fun arg => target.isAnyPtr (arg.common cells).ref

/-- The result of an execution. -/
structure Result where
  info : Option Ipc.ProgInfo
  stop : Bool

/-- A triage job; no call stands for the extra coverage of the program (-1). -/
structure TriageJob where
  p : Prog
  call : Option Nat
  info : Ipc.CallInfo
  newSignal : Signal

/-- `signalPrio`; no result means that the call number is out of range. -/
def signalPrio (target : Target) (cells : Cells) (p : Prog) (info : Ipc.CallInfo) :
    Option Nat → Option UInt8
  | none => some 0
  | some call => do
    let c ← p.calls[call]?
    return (if info.errno = 0 then 2 else 0) ||| (if callContainsAny target cells c then 0 else 1)

/-- `reexecutionSuccess`; no result means that the call number is out of range. -/
def reexecutionSuccess (info : Option Ipc.ProgInfo) (oldInfo : Ipc.CallInfo) (call : Option Nat) :
    Option Bool :=
  match info with
  | none => some false
  | some info =>
    if info.calls.length = 0 then some false
    else
      match call with
      | some call => do
        let inf ← info.calls[call]?
        -- a call must not turn from successful to unsuccessful
        if oldInfo.errno = 0 ∧ inf.errno ≠ 0 then return false
        return inf.signal.length ≠ 0
      | none => some (info.extra.signal.length ≠ 0)

/-- `getSignalAndCover`. -/
def getSignalAndCover (target : Target) (cells : Cells) (p : Prog) (info : Ipc.ProgInfo)
    (call : Option Nat) : Option (Signal × List UInt32) := do
  let inf ← match call with
    | none => some info.extra
    | some call => info.calls[call]?
  let prio ← signalPrio target cells p inf call
  return (Signal.fromRaw inf.signal prio, inf.cover)

/-- What a run of the program is to `deflake`. -/
inductive Outcome
  | stopped
  | failed
  | succeeded (signal : Signal) (cover : List UInt32)
  deriving DecidableEq

/-- The outcome of a run, unless looking at it panics. -/
def TriageJob.outcome (target : Target) (cells : Cells) (job : TriageJob) (result : Result) :
    Option Outcome :=
  if result.stop then some .stopped
  else do
    let success ← reexecutionSuccess result.info job.info job.call
    if success then
      let info ← result.info
      let (signal, cover) ← getSignalAndCover target cells job.p info job.call
      return .succeeded signal cover
    else return .failed

structure DeflakedCover where
  stableSignal : Signal := ∅
  newStableSignal : Signal := ∅
  cover : Finset UInt32 := ∅
  rawCover : List UInt32 := []

def signalRuns : Nat := 3

/-- What a successful run number `i` does to the accumulators. -/
def DeflakedCover.add (info : DeflakedCover) (newSignal : Signal) (fetchRawCover : Bool) (i : Nat)
    (thisSignal : Signal) (thisCover : List UInt32) : DeflakedCover :=
  { info with
    rawCover :=
      if info.rawCover.length = 0 ∧ fetchRawCover = true then thisCover else info.rawCover
    stableSignal :=
      if i = 0 then thisSignal else info.stableSignal.intersection thisSignal
    newStableSignal :=
      if i = 0 then newSignal.intersection thisSignal
      else info.newStableSignal.intersection thisSignal }

section Loop

variable {R : Type} (outcome : R → Option Outcome) (newSignal : Signal) (fetchRawCover : Bool)

/-- The loop of `deflake` from the run number `i` on, over the results of the
remaining runs.  It returns the cover and whether to stop. -/
def deflakeLoop (i notExecuted : Nat) (info : DeflakedCover) :
    List R → Option (DeflakedCover × Bool)
  | [] => some (info, false)
  | result :: results => do
    match ← outcome result with
    | .stopped => return (info, true)
    | .failed =>
      if signalRuns / 2 + 1 ≤ notExecuted + 1 then return (info, true)
      else deflakeLoop (i + 1) (notExecuted + 1) info results
    | .succeeded thisSignal thisCover =>
      let info := info.add newSignal fetchRawCover i thisSignal thisCover
      if info.newStableSignal.isEmpty then return (info, false)
      else
        deflakeLoop (i + 1) notExecuted { info with cover := info.cover ∪ thisCover.toFinset }
          results

/-- `deflake` over the results of the runs. -/
def deflake (results : List R) : Option (DeflakedCover × Bool) :=
  deflakeLoop outcome newSignal fetchRawCover 0 0 {} results

end Loop

/-- `triageJob.deflake`. -/
def TriageJob.deflake (target : Target) (cells : Cells) (fetchRawCover : Bool) (job : TriageJob)
    (results : List Result) : Option (DeflakedCover × Bool) :=
  Fuzzer.deflake (job.outcome target cells) job.newSignal fetchRawCover results

/-! ## What the runs have in common -/

/-- The signal of a successful run. -/
def Outcome.signal? : Outcome → Option Signal
  | .succeeded signal _ => some signal
  | _ => none

/-- The signals of the successful runs, in order. -/
def successes (outcomes : List Outcome) : List Signal := outcomes.filterMap Outcome.signal?

/-- The signals intersected in order. -/
def commonSignal : List Signal → Signal
  | [] => ∅
  | s :: ss => ss.foldl Signal.intersection s

/-- Some element of `newSignal` is in every one of the signals, with at least its
priority there. -/
def SharesElement (newSignal : Signal) (signals : List Signal) : Prop :=
  ∃ e, ∃ p : Int8, newSignal.prio e = p ∧ ∀ s ∈ signals, p ≤ s.prio e

theorem SharesElement.foldl {newSignal : Signal} {signals rest : List Signal}
    (h : SharesElement newSignal (signals ++ rest)) :
    SharesElement (signals.foldl Signal.intersection newSignal) rest := by
  induction signals generalizing newSignal with
  | nil => exact h
  | cons s ss ih =>
    obtain ⟨e, p, hnew, hall⟩ := h
    rw [cons_append, forall_mem_cons] at hall
    exact ih ⟨e, p, Signal.prio_intersection_eq_coe.mpr ⟨hnew, hall.1⟩, hall.2⟩

theorem SharesElement.not_isEmpty {newSignal : Signal} {signals : List Signal}
    (h : SharesElement newSignal signals) : ¬ newSignal.isEmpty = true := by
  obtain ⟨e, p, hnew, -⟩ := h
  intro hempty
  rw [PrioMap.isEmpty_iff.mp hempty e] at hnew
  exact WithBot.bot_ne_coe hnew

/-! ## The loop -/

section Runs

variable {R : Type} {outcome : R → Option Outcome} {newSignal : Signal} {fetchRawCover : Bool}

variable {results : List R}

variable {i : Nat} {info : DeflakedCover} {result : R}

/-- A failure that is not one too many. -/
theorem deflakeLoop_failed (h : outcome result = some .failed) :
    deflakeLoop outcome newSignal fetchRawCover i 0 info (result :: results) =
      deflakeLoop outcome newSignal fetchRawCover (i + 1) 1 info results := by
  rw [deflakeLoop, h]
  rfl

theorem deflakeLoop_succeeded {notExecuted : Nat} {s : Signal} {cover : List UInt32}
    (h : outcome result = some (.succeeded s cover)) :
    deflakeLoop outcome newSignal fetchRawCover i notExecuted info (result :: results) =
      if (info.add newSignal fetchRawCover i s cover).newStableSignal.isEmpty then
        some (info.add newSignal fetchRawCover i s cover, false)
      else deflakeLoop outcome newSignal fetchRawCover (i + 1) notExecuted
        { info.add newSignal fetchRawCover i s cover with
          cover := info.cover ∪ cover.toFinset } results := by
  rw [deflakeLoop, h]
  rfl

/-- **After the run number 0 the loop intersects the signals of the successful
runs**, as long as some new element is in all of them. -/
theorem deflakeLoop_common :
    ∀ {outcomes : List Outcome} {i notExecuted : Nat}
    {info : DeflakedCover}, results.map outcome = outcomes.map some → 0 < i →
    (∀ o ∈ outcomes, o ≠ .stopped) → notExecuted + outcomes.count .failed ≤ 1 →
    SharesElement info.newStableSignal (successes outcomes) →
    ∃ info', deflakeLoop outcome newSignal fetchRawCover i notExecuted info results =
        some (info', false) ∧
      info'.stableSignal = (successes outcomes).foldl Signal.intersection info.stableSignal ∧
      info'.newStableSignal =
        (successes outcomes).foldl Signal.intersection info.newStableSignal := by
  induction results with
  | nil =>
    intro outcomes i notExecuted info houtcomes _ _ _ _
    obtain rfl : outcomes = [] := map_eq_nil_iff.mp houtcomes.symm
    exact ⟨info, rfl, rfl, rfl⟩
  | cons result results ih =>
    intro outcomes i notExecuted info houtcomes hi hstop hfail hshare
    cases outcomes with
    | nil => cases houtcomes
    | cons o outcomes =>
      obtain ⟨ho, htail⟩ := List.cons.inj houtcomes
      rw [forall_mem_cons] at hstop
      cases o with
      | stopped => exact absurd rfl hstop.1
      | failed =>
        rw [count_cons_self] at hfail
        obtain rfl : notExecuted = 0 := by omega
        have hsignals : successes (.failed :: outcomes) = successes outcomes := rfl
        rw [hsignals] at hshare ⊢
        rw [deflakeLoop_failed ho]
        exact ih htail (Nat.succ_pos i) hstop.2 (by omega) hshare
      | succeeded s cover =>
        have hsignals : successes (.succeeded s cover :: outcomes) = s :: successes outcomes := rfl
        rw [hsignals] at hshare ⊢
        have hadd : (info.add newSignal fetchRawCover i s cover).newStableSignal =
              info.newStableSignal.intersection s ∧
            (info.add newSignal fetchRawCover i s cover).stableSignal =
              info.stableSignal.intersection s :=
          ⟨if_neg (Nat.ne_of_gt hi), if_neg (Nat.ne_of_gt hi)⟩
        have hnext : SharesElement (info.newStableSignal.intersection s) (successes outcomes) :=
          @SharesElement.foldl _ [s] _ hshare
        rw [deflakeLoop_succeeded ho, hadd.1, if_neg hnext.not_isEmpty, foldl_cons,
          foldl_cons]
        obtain ⟨info', hloop, hstable, hnew⟩ := @ih outcomes (i + 1) notExecuted
          { info.add newSignal fetchRawCover i s cover with
            cover := info.cover ∪ cover.toFinset } htail (Nat.succ_pos i) hstop.2 hfail
            (by dsimp only; rw [hadd.1]; exact hnext)
        rw [hadd.2] at hstable
        rw [hadd.1] at hnew
        exact ⟨info', hloop, hstable, hnew⟩

end Runs

/-- What `deflake` is to return for runs with these outcomes. -/
def Deflaked (newSignal : Signal) (outcomes : List Outcome)
    (result : Option (DeflakedCover × Bool)) : Prop :=
  ∃ info, result = some (info, false) ∧
    info.stableSignal = commonSignal (successes outcomes) ∧
    info.newStableSignal = (successes outcomes).foldl Signal.intersection newSignal

/-- **`deflake` returns the signal that the successful runs have in common exactly
if the first run does not fail.** -/
theorem deflake_stable_iff {R : Type} (outcome : R → Option Outcome) (newSignal : Signal)
    (fetchRawCover : Bool) (r₀ r₁ r₂ : R) (o₀ o₁ o₂ : Outcome)
    (houtcomes : [r₀, r₁, r₂].map outcome = [o₀, o₁, o₂].map some)
    (hstop : ∀ o ∈ [o₀, o₁, o₂], o ≠ .stopped) (hfail : [o₀, o₁, o₂].count .failed ≤ 1)
    (hshare : SharesElement newSignal (successes [o₀, o₁, o₂])) :
    Deflaked newSignal [o₀, o₁, o₂] (deflake outcome newSignal fetchRawCover [r₀, r₁, r₂]) ↔
      o₀ ≠ .failed := by
  obtain ⟨h₀, houtcomes'⟩ := List.cons.inj houtcomes
  have hstop' := (forall_mem_cons.mp hstop)
  cases o₀ with
  | stopped => exact absurd rfl hstop'.1
  | failed =>
    refine iff_of_false ?_ fun h => h rfl
    rintro ⟨info, hresult, -, hnew⟩
    -- the other two runs succeed, and the second one empties the accumulators
    rw [count_cons_self] at hfail
    have hnone : [o₁, o₂].count .failed = 0 := by omega
    rw [count_eq_zero] at hnone
    have hempty : ∀ s : Signal, (∅ : Signal).intersection s = ∅ := by
      intro s
      refine PrioMap.ext_prio fun e => ?_
      rw [Signal.intersection_eq, PrioMap.prio_inter, PrioMap.prio_empty, ite_self]
    cases o₁ with
    | stopped => exact hstop'.2 _ (by simp) rfl
    | failed => exact hnone (by simp)
    | succeeded s cover =>
      have h₁ : outcome r₁ = some (.succeeded s cover) := (List.cons.inj houtcomes').1
      rw [deflake, deflakeLoop_failed h₀, deflakeLoop_succeeded h₁] at hresult
      have hadd : (DeflakedCover.add {} newSignal fetchRawCover 1 s cover).newStableSignal = ∅ :=
        hempty s
      rw [Nat.zero_add, hadd, if_pos Std.ExtTreeMap.isEmpty_empty] at hresult
      obtain ⟨rfl, -⟩ := Prod.mk.inj (Option.some.inj hresult)
      rw [hadd] at hnew
      have hall : SharesElement ((successes [.failed, .succeeded s cover, o₂]).foldl
          .intersection newSignal) [] :=
        .foldl (by rw [append_nil]; exact hshare)
      rw [← hnew] at hall
      exact hall.not_isEmpty Std.ExtTreeMap.isEmpty_empty
  | succeeded s cover =>
    refine iff_of_true ?_ (by rintro ⟨⟩)
    rw [count_cons_of_ne (by rintro ⟨⟩)] at hfail
    have hsignals : successes [.succeeded s cover, o₁, o₂] = s :: successes [o₁, o₂] := rfl
    have hnext : SharesElement (newSignal.intersection s) (successes [o₁, o₂]) :=
      @SharesElement.foldl _ [s] _ hshare
    have hadd : (DeflakedCover.add {} newSignal fetchRawCover 0 s cover).newStableSignal =
        newSignal.intersection s := rfl
    obtain ⟨info, hloop, hstable, hnew⟩ := @deflakeLoop_common R outcome newSignal fetchRawCover
      [r₁, r₂] [o₁, o₂] 1 0 { DeflakedCover.add {} newSignal fetchRawCover 0 s cover with
        cover := ∅ ∪ cover.toFinset } houtcomes' Nat.one_pos hstop'.2 (by omega) hnext
    refine ⟨info, ?_, hstable, hnew⟩
    rw [deflake, deflakeLoop_succeeded h₀, hadd, if_neg hnext.not_isEmpty]
    exact hloop

namespace DeflakeSample

def target : Target where
  types := fun _ => .int { typeName := "int", typeSize := 4 }
  any := ⟨1, 2, 3⟩
  pageSize := 4096
  numPages := 1
  specialPointers := [0]
  escapingFilename := fun _ => false

def cells : Cells := fun _ => { ref := 0, dir := .dirIn }

/-- One call that covers the element 7. -/
def callInfo : Ipc.CallInfo := { Ipc.CallInfo.zero with flags := 3, signal := [7] }

def job : TriageJob where
  p := ⟨[{ syscall := { id := 0, name := "getpid", args := [], ret := none }, args := [],
           ret := none }]⟩
  call := some 0
  info := callInfo
  newSignal := Signal.fromRaw [7] 3

/-- A run that reports the call, and one that reports nothing. -/
def executed : Result := ⟨some ⟨[callInfo], Ipc.CallInfo.zero⟩, false⟩

def lost : Result := ⟨none, false⟩

end DeflakeSample

open DeflakeSample in
/-- Two runs that agree, and a failure at the end. -/
theorem deflake_stable_lastFails :
    Deflaked job.newSignal [.succeeded (Signal.fromRaw [7] 3) [],
        .succeeded (Signal.fromRaw [7] 3) [], .failed]
      (job.deflake target cells false [executed, executed, lost]) :=
  (deflake_stable_iff (job.outcome target cells) job.newSignal false executed executed lost
    (.succeeded (.fromRaw [7] 3) []) (.succeeded (.fromRaw [7] 3) []) .failed
    rfl (by decide +kernel) (by decide +kernel)
    ⟨7, 3, by decide +kernel, by decide +kernel⟩).mpr (by rintro ⟨⟩)

open DeflakeSample in
/-- **A failure of the first run**: nothing is left of what the other two agree on. -/
theorem deflake_firstFails :
    [lost, executed, executed].map (job.outcome target cells) =
      [some .failed, some (.succeeded (Signal.fromRaw [7] 3) []),
        some (.succeeded (Signal.fromRaw [7] 3) [])] ∧
    SharesElement job.newSignal [Signal.fromRaw [7] 3, Signal.fromRaw [7] 3] ∧
    ¬ Deflaked job.newSignal [.failed, .succeeded (Signal.fromRaw [7] 3) [],
        .succeeded (Signal.fromRaw [7] 3) []]
      (job.deflake target cells false [lost, executed, executed]) := by
  refine ⟨rfl, ⟨7, 3, by decide +kernel, by decide +kernel⟩, ?_⟩
  rintro ⟨info, hresult, hstable, -⟩
  have hempty : (job.deflake target cells false [lost, executed, executed]).map
      (fun r => r.1.stableSignal) = some ∅ := by decide +kernel
  rw [hresult, Option.map_some, hstable, Option.some.injEq] at hempty
  revert hempty
  decide +kernel

end Sect.Fuzzer
