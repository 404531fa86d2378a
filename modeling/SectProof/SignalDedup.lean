import SectProof.ReplyRoundTrip

/-! # Deduplication of signals

The executor writes a signal only if it is not in a small table, from which older
signals are evicted.  Whatever stands in the table has been written, so a signal
is not lost when it is found there; but `0` marks a free slot.
-/

open List

namespace Sect.Executor

section Computed
variable (cfg : Config)

/-- The signals of the PCs that are not ignored. -/
def keptSignals (pcOffset : UInt64) : List UInt64 → UInt64 → Bool → List UInt32
  | [], _, _ => []
  | raw :: rest, prevPc, prevFilter =>
    let pc := pcOf cfg pcOffset raw
    let filter := cfg.coverageFilter pc
    if !filter && !prevFilter then keptSignals pcOffset rest pc filter
    else signalOf cfg prevPc pc :: keptSignals pcOffset rest pc filter

/-- The signals that `write_coverage_signal` computes for a coverage buffer. -/
def bufferSignals (cov : Cover) : List UInt32 :=
  if cfg.flagCollectSignal then keptSignals cfg cov.pcOffset cov.pcs 0 true else []

/-- The signals that are computed for an event. -/
def OutputEvent.computed : OutputEvent → List UInt32
  | .call th _ _ => if cfg.flagComparisons then [] else bufferSignals cfg th.cov
  | .extra extraCov =>
    if !coverCollectionRequired cfg || !cfg.flagExtraCoverage || cfg.flagComparisons then []
    else bufferSignals cfg extraCov

end Computed

/-- The signals of a sequence for which `dedup` says that they are new, and the table
that is left. -/
def dedupAll : List UInt32 → DedupTable → List UInt32 × DedupTable
  | [], t => ([], t)
  | sig :: rest, t =>
    let tail := dedupAll rest (dedup sig t).2
    (if (dedup sig t).1 then tail.1 else sig :: tail.1, tail.2)

theorem dedupAll_append (l m : List UInt32) (t : DedupTable) :
    dedupAll (l ++ m) t = ((dedupAll l t).1 ++ (dedupAll m (dedupAll l t).2).1,
      (dedupAll m (dedupAll l t).2).2) := by
  induction l generalizing t with
  | nil => rfl
  | cons sig l ih =>
    rw [cons_append, dedupAll, ih, dedupAll]
    split_ifs <;> rfl

section Replies
variable {cfg : Config}

/-- The loop writes what is new among the signals that are kept. -/
theorem signals_eq {off prevPc : UInt64} {pcs : List UInt64} {prevFilter : Bool}
    {t : DedupTable} : signals cfg off pcs prevPc prevFilter t =
      dedupAll (keptSignals cfg off pcs prevPc prevFilter) t := by
  induction pcs generalizing prevPc prevFilter t with
  | nil => rfl
  | cons raw rest ih =>
    rw [signals, keptSignals]
    dsimp only
    split_ifs with hignored hseen
    · exact ih
    · rw [ih, dedupAll, if_pos hseen]
    · rw [ih, dedupAll, if_neg hseen]

theorem signalsOf_eq (t : DedupTable) (cov : Cover) :
    signalsOf cfg t cov = dedupAll (bufferSignals cfg cov) t := by
  rw [signalsOf, bufferSignals]
  split_ifs
  · exact signals_eq
  · rfl

theorem OutputEvent.replies_signals (t : DedupTable) (e : OutputEvent) :
    ((e.replies cfg t).1.flatMap Reply.signal, (e.replies cfg t).2) =
      dedupAll (e.computed cfg) t := by
  cases e with
  | call th finished lastScheduled =>
    rw [OutputEvent.replies, OutputEvent.computed, callReply]
    dsimp only
    split_ifs
    · rfl
    · rw [signalsOf_eq, flatMap_singleton]
  | extra extraCov =>
    rw [OutputEvent.replies, OutputEvent.computed]
    split_ifs with hoff hempty
    · rfl
    · rw [bufferSignals, length_eq_zero_iff.mp hempty, keptSignals, ite_self]
      rfl
    · dsimp only [extraReply]
      rw [signalsOf_eq, flatMap_singleton]

theorem eventReplies_signals {events : List OutputEvent} {t : DedupTable} :
    (eventReplies cfg t events).flatMap Reply.signal =
      (dedupAll (events.flatMap (OutputEvent.computed cfg)) t).1 := by
  induction events generalizing t with
  | nil => rfl
  | cons e rest ih =>
    rw [eventReplies, flatMap_append, ih, flatMap_cons, dedupAll_append, ← e.replies_signals t]

end Replies

/-- Whatever stands in the table has been written. -/
def Recorded (written : List UInt32) (t : DedupTable) : Prop :=
  ∀ pos, t pos ≠ 0 → t pos ∈ written

variable {written : List UInt32} {t : DedupTable}

theorem Recorded.update (h : Recorded written t) (pos : Nat) (sig : UInt32) :
    Recorded (written ++ [sig]) (Function.update t pos sig) := by
  intro q hq
  by_cases hpos : q = pos
  · rw [hpos, Function.update_self]
    exact mem_append_right _ mem_cons_self
  · rw [Function.update_of_ne hpos] at hq ⊢
    exact mem_append_left _ (h q hq)

theorem Recorded.dedupFrom (h : Recorded written t) (sig : UInt32) (probes : List UInt32) :
    if (dedupFrom sig t probes).1 then
      (dedupFrom sig t probes).2 = t ∧ (sig ≠ 0 → sig ∈ written)
    else Recorded (written ++ [sig]) (dedupFrom sig t probes).2 := by
  induction probes with
  | nil => exact h.update _ sig
  | cons i probes ih =>
    by_cases hsame : t ((sig + i).toNat % dedupTableSize) = sig
    · rw [show Executor.dedupFrom sig t (i :: probes) = (true, t) from if_pos hsame]
      refine ⟨rfl, fun hsig => ?_⟩
      rw [← hsame] at hsig ⊢
      exact h _ hsig
    · by_cases hfree : t ((sig + i).toNat % dedupTableSize) = 0
      · rw [show Executor.dedupFrom sig t (i :: probes) = (false, _) from
          (if_neg hsame).trans (if_pos hfree)]
        exact h.update _ sig
      · rw [show Executor.dedupFrom sig t (i :: probes) = _ from
          (if_neg hsame).trans (if_neg hfree)]
        exact ih

/-- **A signal other than 0 is written when it is computed, if it was not before.** -/
theorem Recorded.dedupAll {l : List UInt32} (h : Recorded written t) :
    (∀ sig ∈ l, sig ≠ 0 → sig ∈ written ++ (dedupAll l t).1) ∧
      Recorded (written ++ (dedupAll l t).1) (dedupAll l t).2 := by
  induction l generalizing written t with
  | nil => exact ⟨fun _ hsig => absurd hsig not_mem_nil, (append_nil written).symm ▸ h⟩
  | cons sig l ih =>
    have hstep := h.dedupFrom sig [0, 1, 2, 3]
    rw [Executor.dedupAll]
    by_cases hseen : (dedup sig t).1 = true
    · rw [if_pos hseen]
      rw [← dedup, if_pos hseen] at hstep
      obtain ⟨hall, hrec⟩ := ih h
      rw [hstep.1]
      refine ⟨forall_mem_cons.mpr ⟨fun hsig => ?_, hall⟩, hrec⟩
      exact mem_append_left _ (hstep.2 hsig)
    · rw [if_neg hseen]
      rw [← dedup, if_neg hseen] at hstep
      obtain ⟨hall, hrec⟩ := ih hstep
      rw [append_assoc, singleton_append] at hall hrec
      exact ⟨forall_mem_cons.mpr ⟨fun _ => by simp, hall⟩, hrec⟩

/-- The table of a process that starts. -/
abbrev zeroed : DedupTable := fun _ => 0

theorem recorded_zeroed : Recorded [] zeroed := fun _ h => absurd rfl h

/-- **Every signal other than 0 that a process computes for a PC that is not ignored is
written**, and `dedup` says at no time that such a signal has been seen before it has
been written. -/
theorem computed_signals_written (cfg : Config) (events : List OutputEvent) :
    let computed := events.flatMap (OutputEvent.computed cfg)
    (∀ out, writeProgram cfg events = some out → out.Holds cfg (programReplies cfg events)) ∧
    (programReplies cfg events).flatMap Reply.signal = (dedupAll computed zeroed).1 ∧
    (∀ sig ∈ computed, sig ≠ 0 → sig ∈ (programReplies cfg events).flatMap Reply.signal) ∧
    ∀ before sig after, computed = before ++ sig :: after → sig ≠ 0 →
      (dedup sig (dedupAll before zeroed).2).1 = true → sig ∈ (dedupAll before zeroed).1 := by
  refine ⟨fun out h => writeProgram_holds h, eventReplies_signals, ?_, ?_⟩
  · rw [programReplies, eventReplies_signals]
    exact (recorded_zeroed.dedupAll).1
  · intro before sig after _ hsig hseen
    have hstep := (recorded_zeroed.dedupAll (l := before)).2.dedupFrom sig [0, 1, 2, 3]
    rw [← dedup, if_pos hseen] at hstep
    exact hstep.2 hsig

theorem computed_signals_written_coveredCall :
    0x1000 ∈ (programReplies signalConfig [.call coveredCall true true]).flatMap Reply.signal :=
  (computed_signals_written signalConfig [.call coveredCall true true]).2.2.1 0x1000
    (by decide) (by decide)

/-- **The signal 0 is lost.**  A PC of the first page has it, and `dedup` takes a free
slot for it. -/
theorem zero_signal_lost :
    0 ∈ [OutputEvent.extra ⟨[0x100], [], 0⟩].flatMap (OutputEvent.computed signalConfig) ∧
      (dedup 0 zeroed).1 = true ∧
      (writeProgram signalConfig [.extra ⟨[0x100], [], 0⟩]).isSome ∧
      0 ∉ (programReplies signalConfig [.extra ⟨[0x100], [], 0⟩]).flatMap Reply.signal := by
  decide +kernel

end Sect.Executor
