import SectProof.DispatchTokens

/-! # The serial gate

What makes the gate serial is an invariant of one group, over the numbers of its
participants in each phase.  While the cycle gathers, everybody who has joined
waits for the first enqueue or is parked, and not all expected threads are
parked.  While it runs, there is one permit: a released task or a queued token,
never both and never two; and if somebody is parked, somebody is on the way to
open the gate again.  After a timeout, a token is queued as long as somebody is
parked.

`Group.Serial` says this, and every event of a run in kernel order keeps it. -/

namespace Sect.Serialise

open SchedCycle

namespace Group

/-- The number of tokens the flag stands for. -/
def token (g : Group) : Nat := g.cycle.pendingDispatch.toNat

/-- Nobody has been released yet, and some expected thread is not parked. -/
structure Gathering (g : Group) : Prop where
  closed : g.token = 0
  still : g.pop .dispatched + g.pop .onCpu + g.pop .asleep + g.pop .waking + g.pop .global = 0
  missing : g.pop .parked < g.cycle.numExpectedThreads

/-- **One permit**: a released task or a token; and whoever is parked will be
served, by the token or by somebody who is awake. -/
structure Serving (g : Group) : Prop where
  gathered : g.pop .yielded + g.pop .global = 0
  permit : g.pop .dispatched + g.pop .onCpu + g.token ≤ 1
  served : 0 < g.pop .parked → 0 < g.pop .dispatched + g.pop .onCpu + g.pop .waking + g.token

/-- The invariant of the gate. -/
structure Serial (g : Group) : Prop where
  queued : g.cycle.numQueued = g.pop .parked
  attached : g.pop .detached = 0
  gathering : g.cycle.state = .unavailable ∨ g.cycle.state = .ready → g.Gathering
  serving : g.cycle.state = .running → g.Serving
  draining : g.cycle.state = .timeout → 0 < g.pop .parked → g.token = 1

/-- The events of a run in kernel order: participants leave the group's queue
through a dispatch only, they sleep from a CPU and exit from their sleep, and a
dispatch of the group finds its flag up. -/
def InOrder (g : Group) : Event → Prop
  | .detach _ => False
  | .move | .empty => g.token = 1
  | .drop => False
  | .sleep ph _ => ph = .onCpu
  | .exit ph st asleep => ph = .asleep ∧ st.standing = .running ∧
      (Event.exit ph st asleep).resets g.cycle = false
  | _ => True

variable {cfg : Config} {g : Group} {c : SchedCycle} {pop : Phase → Nat}

theorem Serial.of_gathering (hs : g.cycle.state = .unavailable ∨ g.cycle.state = .ready)
    (hq : g.cycle.numQueued = g.pop .parked) (hd : g.pop .detached = 0) (h : g.Gathering) :
    g.Serial := by
  refine ⟨hq, hd, fun _ => h, fun hs' => ?_, fun hs' => ?_⟩
  · rcases hs with hs | hs <;> rw [hs] at hs' <;> cases hs'
  · rcases hs with hs | hs <;> rw [hs] at hs' <;> cases hs'

theorem Serial.of_running (hs : g.cycle.state = .running)
    (hq : g.cycle.numQueued = g.pop .parked) (hd : g.pop .detached = 0) (h : g.Serving) :
    g.Serial := by
  refine ⟨hq, hd, fun hs' => ?_, fun _ => h, fun hs' => ?_⟩
  · rcases hs' with hs' | hs' <;> rw [hs] at hs' <;> cases hs'
  · rw [hs] at hs'; cases hs'

theorem Serial.of_timeout (hs : g.cycle.state = .timeout)
    (hq : g.cycle.numQueued = g.pop .parked) (hd : g.pop .detached = 0)
    (h : 0 < g.pop .parked → g.token = 1) : g.Serial := by
  refine ⟨hq, hd, fun hs' => ?_, fun hs' => ?_, fun _ => h⟩
  · rcases hs' with hs' | hs' <;> rw [hs] at hs' <;> cases hs'
  · rw [hs] at hs'; cases hs'

/-- Every state of a cycle is gathering, running or timed out. -/
theorem state_cases (c : SchedCycle) :
    (c.state = .unavailable ∨ c.state = .ready) ∨ c.state = .running ∨ c.state = .timeout := by
  cases c.state <;> simp

/-- The arithmetic of a group whose participants are counted. -/
theorem Counted.sums (hc : Counted ⟨c, pop⟩) :
    c.numAlive = pop .yielded + pop .parked + pop .dispatched + pop .onCpu + pop .asleep +
      pop .waking + pop .detached + pop .global ∧ c.numAsleep = pop .asleep := by
  refine ⟨?_, hc.asleep⟩
  have halive : c.numAlive = Population.total pop := hc.alive
  rw [halive, Population.total]
  rfl

section Facts
variable (h : Serial ⟨c, pop⟩)
include h

theorem Serial.counts : c.numQueued = pop .parked ∧ pop .detached = 0 := ⟨h.queued, h.attached⟩

theorem Serial.gathers (hs : c.state = .unavailable ∨ c.state = .ready) :
    c.pendingDispatch.toNat = 0 ∧ pop .dispatched + pop .onCpu + pop .asleep + pop .waking +
      pop .global = 0 ∧ pop .parked < c.numExpectedThreads :=
  ⟨(h.gathering hs).closed, (h.gathering hs).still, (h.gathering hs).missing⟩

theorem Serial.serves (hs : c.state = .running) : pop .yielded + pop .global = 0 ∧
    pop .dispatched + pop .onCpu + c.pendingDispatch.toNat ≤ 1 ∧
    (0 < pop .parked →
      0 < pop .dispatched + pop .onCpu + pop .waking + c.pendingDispatch.toNat) :=
  ⟨(h.serving hs).gathered, (h.serving hs).permit, (h.serving hs).served⟩

end Facts

theorem pushIf_false (timeout : Bool) : c.pushIf false timeout = c := rfl

/-- An answer that opens the gate, with nobody released. -/
theorem Serial.opened (hs : c.pendingDispatch = false ∨ c.state = .running)
    (hq : c.numQueued = pop .parked) (hd : pop .detached = 0)
    (hgathered : pop .yielded + pop .global = 0) (hreleased : pop .dispatched + pop .onCpu = 0) :
    Serial ⟨(c.pushIf true false).gate, pop⟩ := by
  have hstate : (c.pushIf true false).state = .running := by
    rw [state_pushIf]
    rcases hs with hs | hs
    · rw [hs]; rfl
    · rw [hs]; exact ite_self _
  have htoken : token ⟨(c.pushIf true false).gate, pop⟩ = 1 := by
    show (c.pushIf true false).pendingDispatch.toNat = 1
    rw [pendingDispatch_pushIf]
    rfl
  refine .of_running hstate ((numQueued_pushIf ..).trans hq) hd ⟨hgathered, ?_, ?_⟩
  · rw [htoken]; dsimp only; omega
  · rw [htoken]; omega

/-- An answer that forces the gate open. -/
theorem Serial.forced (hs : c.pendingDispatch = false ∨ c.state = .timeout)
    (hq : c.numQueued = pop .parked) (hd : pop .detached = 0) :
    Serial ⟨(c.pushIf true true).gate, pop⟩ := by
  have hstate : (c.pushIf true true).state = .timeout := by
    rw [state_pushIf]
    rcases hs with hs | hs
    · rw [hs]; rfl
    · rw [hs]; exact ite_self _
  refine .of_timeout hstate ((numQueued_pushIf ..).trans hq) hd fun _ => ?_
  show (c.pushIf true true).pendingDispatch.toNat = 1
  rw [pendingDispatch_pushIf]
  rfl

/-- A timed-out cycle that moves nobody into or out of its queue, and answers
with nothing. -/
theorem Serial.timeout_frame (h : Serial ⟨c, pop⟩) (hs : c.state = .timeout) {d : SchedCycle}
    {a b : Option Phase} (hstate : d.state = .timeout) (hnum : d.numQueued = c.numQueued)
    (htoken : d.pendingDispatch = c.pendingDispatch) (ha : a ≠ some .parked)
    (hb : b ≠ some .parked ∧ b ≠ some .detached) :
    Serial ⟨d.gate, Population.shift a b pop⟩ := by
  have hparked : Population.shift a b pop .parked = pop .parked := shift_parked ha hb.1
  have hdetached : pop .detached = 0 := h.attached
  refine .of_timeout hstate ?_ ?_ fun hpos => ?_
  · show d.numQueued = (Population.shift a b pop .parked : Nat)
    rw [hnum, hparked]
    exact h.queued
  · show Population.shift a b pop .detached = 0
    rw [Population.shift, hdetached, if_neg hb.2, Nat.zero_sub]
  · show d.pendingDispatch.toNat = 1
    rw [htoken]
    replace hpos : 0 < Population.shift a b pop .parked := hpos
    rw [hparked] at hpos
    exact h.draining hs hpos

section Events
variable (h : Serial ⟨c, pop⟩)
include h

/-! ## Dispatches -/

/-- A dispatch trades the token for a released task; a timed-out cycle takes a new
token while somebody is left. -/
theorem Serial.move (htoken : c.pendingDispatch.toNat = 1) (hpos : 0 < pop .parked) :
    Serial ⟨c.afterMove.gate, Population.shift (some .parked) (some .dispatched) pop⟩ := by
  obtain ⟨hqueued, hdetached⟩ := h.counts
  have hnum : c.dispatchMoved.numQueued = c.numQueued - 1 := if_pos (by omega)
  rw [SchedCycle.afterMove, hnum]
  rcases state_cases c with hs | hs | hs
  · have hclosed := (h.gathers hs).1
    omega
  · obtain ⟨hgathered, hpermit, _⟩ := h.serves hs
    rw [hs, decide_eq_false (by simp), pushIf_false]
    refine .of_running hs (hnum.trans ?_) ?_ ⟨?_, ?_, ?_⟩
    all_goals simp [Population.shift, SchedCycle.dispatchMoved, SchedCycle.gate, token]
    all_goals omega
  · by_cases hleft : c.numQueued - 1 > 0
    · rw [decide_eq_true ⟨hs, hleft⟩]
      refine .forced (.inl rfl) (hnum.trans ?_) ?_
      all_goals simp [Population.shift]
      all_goals omega
    · rw [decide_eq_false fun h => hleft h.2, pushIf_false]
      refine .of_timeout hs (hnum.trans ?_) ?_ fun hparked => ?_
      · simp [Population.shift]; omega
      · simpa [Population.shift] using hdetached
      · simp [Population.shift] at hparked; omega

/-- A dispatch of an empty queue takes the token away. -/
theorem Serial.empty (htoken : c.pendingDispatch.toNat = 1)
    (hempty : pop .parked = 0) : Serial ⟨c.afterEmpty.gate, pop⟩ := by
  obtain ⟨hqueued, hdetached⟩ := h.counts
  have hnum : c.dispatchEmpty.numQueued = pop .parked := by
    show (if c.state = .timeout then 0 else c.numQueued) = _
    split <;> omega
  rw [SchedCycle.afterEmpty, hnum, hempty, decide_eq_false (by simp), pushIf_false]
  rcases state_cases c with hs | hs | hs
  · have hclosed := (h.gathers hs).1
    omega
  · obtain ⟨hgathered, hpermit, _⟩ := h.serves hs
    refine .of_running hs hnum hdetached ⟨hgathered, ?_, fun hparked => ?_⟩
    · show pop .dispatched + pop .onCpu + 0 ≤ 1
      omega
    · exact absurd hempty (Nat.ne_of_gt hparked)
  · exact .of_timeout hs hnum hdetached fun hparked => absurd hempty (Nat.ne_of_gt hparked)

/-! ## Running, sleeping and waking -/

variable {ph : Phase} {st : ThreadState}

theorem Serial.run (hph : ph ∈ [Phase.dispatched, .global]) (hpos : 0 < pop ph) :
    Serial ⟨c.gate, Population.shift (some ph) (some .onCpu) pop⟩ := by
  obtain ⟨hqueued, hdetached⟩ := h.counts
  have hph : ph = .dispatched ∨ ph = .global := by simpa using hph
  rcases state_cases c with hs | hs | hs
  · have hstill := (h.gathers hs).2.1
    rcases hph with rfl | rfl <;> omega
  · obtain ⟨hgathered, hpermit, hserved⟩ := h.serves hs
    rcases hph with rfl | rfl
    · refine .of_running hs ?_ ?_ ⟨?_, ?_, ?_⟩
      all_goals simp [Population.shift, SchedCycle.gate, token]
      all_goals omega
    · omega
  · refine h.timeout_frame hs hs rfl rfl ?_ (by simp)
    rcases hph with rfl | rfl <;> simp

variable (hc : Counted ⟨c, pop⟩)
include hc

/-- A wake-up never opens the gate: the task that wakes is not parked. -/
theorem Serial.wake (hpos : 0 < pop .asleep) :
    Serial ⟨c.afterWake.gate, Population.shift (some .asleep) (some .waking) pop⟩ := by
  obtain ⟨hqueued, hdetached⟩ := h.counts
  obtain ⟨halive, hasleep⟩ := hc.sums
  have hnum : c.wake.numAsleep = c.numAsleep - 1 := if_pos (by omega)
  have hclosed : c.wake.allParked = false := by
    rw [SchedCycle.allParked, hnum, Bool.and_eq_false_iff]
    refine .inr (decide_eq_false ?_)
    show ¬ c.numQueued = c.numAlive - (c.numAsleep - 1)
    omega
  rw [SchedCycle.afterWake, hclosed, pushIf_false]
  rcases state_cases c with hs | hs | hs
  · have hstill := (h.gathers hs).2.1
    omega
  · obtain ⟨hgathered, hpermit, hserved⟩ := h.serves hs
    refine .of_running hs ?_ ?_ ⟨?_, ?_, ?_⟩
    all_goals simp [Population.shift, SchedCycle.gate, SchedCycle.wake, token]
    all_goals omega
  · exact h.timeout_frame hs hs rfl rfl (by simp) (by simp)

/-- A released task that goes to sleep hands its permit to the token when everybody
else awake is parked. -/
theorem Serial.sleep (hst : st.standing = .running) (hpos : 0 < pop .onCpu) :
    Serial ⟨(c.afterSleep st).gate, Population.shift (some .onCpu) (some .asleep) pop⟩ := by
  obtain ⟨hqueued, hdetached⟩ := h.counts
  obtain ⟨halive, hasleep⟩ := hc.sums
  have hnum : (c.sleep st).numQueued = c.numQueued := by
    refine uncount_eq.trans (if_neg ?_)
    rw [hst]
    simp
  rcases state_cases c with hs | hs | hs
  · have hstill := (h.gathers hs).2.1
    omega
  · obtain ⟨hgathered, hpermit, hserved⟩ := h.serves hs
    have hcond : (c.sleep st).allParked =
        decide (c.numQueued = c.numAlive - (c.numAsleep + 1)) := by
      rw [SchedCycle.allParked, hnum]
      show (decide (c.state = .running) && _) = _
      rw [hs]
      rfl
    rw [SchedCycle.afterSleep, hcond]
    by_cases hlast : c.numQueued = c.numAlive - (c.numAsleep + 1)
    · rw [decide_eq_true hlast]
      refine .opened (.inr hs) (hnum.trans ?_) ?_ ?_ ?_
      all_goals simp [Population.shift]
      all_goals omega
    · rw [decide_eq_false hlast, pushIf_false]
      refine .of_running hs (hnum.trans ?_) ?_ ⟨?_, ?_, ?_⟩
      all_goals simp [Population.shift, SchedCycle.gate, SchedCycle.sleep, token]
      all_goals omega
  · have hcond : (c.sleep st).allParked = false := by
      rw [SchedCycle.allParked, Bool.and_eq_false_iff]
      refine .inl (decide_eq_false ?_)
      show ¬ c.state = .running
      rw [hs]
      simp
    rw [SchedCycle.afterSleep, hcond, pushIf_false]
    exact h.timeout_frame hs hs hnum rfl (by simp) (by simp)

/-- The exit of a sleeper that does not finish the cycle. -/
theorem Serial.exit (hst : st.standing = .running) (hpos : 0 < pop .asleep)
    (hreset : (c.exit st true).finished c.state = false) :
    Serial ⟨(c.afterExit cfg st true).gate, Population.shift (some .asleep) none pop⟩ := by
  obtain ⟨hqueued, hdetached⟩ := h.counts
  obtain ⟨halive, hasleep⟩ := hc.sums
  have hnum : (c.exit st true).numQueued = c.numQueued := by
    refine uncount_eq.trans (if_neg ?_)
    rw [hst]
    simp
  have hA : (c.exit st true).numAlive = c.numAlive - 1 := if_pos (by omega)
  have hS : (c.exit st true).numAsleep = c.numAsleep - 1 := if_pos ⟨rfl, by omega⟩
  have hcond : (c.exit st true).dispatchableOnExit =
      (decide (c.numAlive - 1 ≠ 0) &&
        decide (c.numQueued = c.numAlive - 1 - (c.numAsleep - 1))) := by
    rw [SchedCycle.dispatchableOnExit, hnum, hA, hS]
  have hafter : c.afterExit cfg st true =
      (c.exit st true).pushIf (c.exit st true).dispatchableOnExit (c.state = .timeout) := by
    exact if_neg (by rw [hreset]; simp)
  rw [hafter]
  rcases state_cases c with hs | hs | hs
  · have hstill := (h.gathers hs).2.1
    omega
  · obtain ⟨hgathered, hpermit, hserved⟩ := h.serves hs
    rw [decide_eq_false (show ¬ c.state = .timeout by rw [hs]; simp)]
    cases hopen : (c.exit st true).dispatchableOnExit with
    | true =>
      rw [hcond, Bool.and_eq_true, decide_eq_true_eq, decide_eq_true_eq] at hopen
      refine .opened (.inr hs) (hnum.trans ?_) ?_ ?_ ?_
      all_goals simp [Population.shift]
      all_goals omega
    | false =>
      refine .of_running hs (hnum.trans ?_) ?_ ⟨?_, ?_, ?_⟩
      all_goals simp [Population.shift, SchedCycle.gate, SchedCycle.exit, token]
      all_goals omega
  · rw [decide_eq_true hs]
    cases (c.exit st true).dispatchableOnExit with
    | true =>
      refine .forced (.inr hs) (hnum.trans ?_) ?_
      all_goals simp [Population.shift]
      all_goals omega
    | false =>
      exact h.timeout_frame hs hs hnum rfl (by simp) (by simp)

/-! ## Enqueues -/

/-- The first enqueue: the last of the expected threads opens the gate. -/
theorem Serial.park_gathering (hs : c.state = .unavailable ∨ c.state = .ready)
    (hph : ph ∈ [Phase.yielded, .onCpu, .waking, .detached]) (hpos : 0 < pop ph) :
    Serial ⟨c.afterPark.gate, Population.shift (some ph) (some .parked) pop⟩ := by
  obtain ⟨hclosed, hstill, hmissing⟩ := h.gathers hs
  obtain ⟨halive, _⟩ := hc.sums
  obtain ⟨hqueued, hdetached⟩ := h.counts
  -- only a task that has just yielded can be enqueued
  obtain rfl : ph = .yielded := by
    simp only [List.mem_cons, List.not_mem_nil, or_false] at hph
    rcases hph with rfl | rfl | rfl | rfl
    · rfl
    all_goals omega
  have hle : c.numAlive ≤ c.numExpectedThreads := by
    rcases hs with hs | hs
    · exact Int.le_of_lt (hc.gathering hs)
    · exact Int.le_of_eq (hc.ready hs)
  have hcond : c.countEnqueue.dispatchable = decide (c.numQueued + 1 = c.numExpectedThreads) := by
    rcases hs with hs | hs <;> simp [SchedCycle.dispatchable, SchedCycle.countEnqueue, hs]
  rw [SchedCycle.afterPark, hcond]
  by_cases hlast : c.numQueued + 1 = c.numExpectedThreads
  · rw [decide_eq_true hlast]
    have hpending : c.pendingDispatch = false := Bool.toNat_eq_zero.mp hclosed
    refine .opened (.inl hpending) ?_ ?_ ?_ ?_
    all_goals simp [Population.shift, SchedCycle.countEnqueue]
    all_goals omega
  · rw [decide_eq_false hlast, pushIf_false]
    refine .of_gathering hs ?_ ?_ ⟨hclosed, ?_, ?_⟩
    all_goals simp [Population.shift, SchedCycle.countEnqueue, SchedCycle.gate]
    all_goals omega

/-- An enqueue of a running cycle opens the gate when everybody awake is parked. -/
theorem Serial.park_running (hs : c.state = .running)
    (hph : ph ∈ [Phase.yielded, .onCpu, .waking, .detached]) (hpos : 0 < pop ph) :
    Serial ⟨c.afterPark.gate, Population.shift (some ph) (some .parked) pop⟩ := by
  obtain ⟨hgathered, hpermit, hserved⟩ := h.serves hs
  obtain ⟨halive, hasleep⟩ := hc.sums
  obtain ⟨hqueued, hdetached⟩ := h.counts
  have hph : ph = .onCpu ∨ ph = .waking := by
    simp only [List.mem_cons, List.not_mem_nil, or_false] at hph
    rcases hph with rfl | rfl | rfl | rfl
    · omega
    · exact .inl rfl
    · exact .inr rfl
    · omega
  have hcond : c.countEnqueue.dispatchable =
      decide (c.numQueued + 1 = c.numAlive - c.numAsleep) := by
    simp [SchedCycle.dispatchable, SchedCycle.countEnqueue, hs]
  rw [SchedCycle.afterPark, hcond]
  by_cases hlast : c.numQueued + 1 = c.numAlive - c.numAsleep
  · rw [decide_eq_true hlast]
    refine .opened (.inr hs) ?_ ?_ ?_ ?_
    all_goals rcases hph with rfl | rfl <;> simp [Population.shift, SchedCycle.countEnqueue]
    all_goals omega
  · rw [decide_eq_false hlast, pushIf_false]
    refine .of_running hs ?_ ?_ ⟨?_, ?_, ?_⟩
    all_goals
      rcases hph with rfl | rfl <;>
        simp [Population.shift, SchedCycle.countEnqueue, SchedCycle.gate, token]
    all_goals omega

end Events

/-- **Every event in kernel order keeps the gate serial.** -/
theorem Serial.apply (h : g.Serial) (hc : g.Counted) {ev : Event} (ha : g.Allows ev)
    (hord : g.InOrder ev) : (g.apply cfg ev).Serial := by
  obtain ⟨c, pop⟩ := g
  have hpos : ∀ ph, ev.source = some ph → 0 < pop ph := ha.populated
  have hen := ha.enabled
  have hkeep : Serial ⟨c.gate, pop⟩ := ⟨h.queued, h.attached, fun hs => ⟨(h.gathering hs).closed,
    (h.gathering hs).still, (h.gathering hs).missing⟩, fun hs => ⟨(h.serving hs).gathered,
    (h.serving hs).permit, (h.serving hs).served⟩, h.draining⟩
  cases ev with
  | idle =>
    show Serial ⟨c.gate, Population.shift none none pop⟩
    exact hkeep
  | join =>
    have hopen : c.state = .unavailable := hen
    obtain ⟨hclosed, hstill, hmissing⟩ := h.gathering (.inl hopen)
    refine .of_gathering ?_ ?_ ?_ ⟨hclosed, ?_, hmissing⟩
    · show (if c.numAlive + 1 = c.numExpectedThreads then .ready else c.state) = _ ∨
        (if c.numAlive + 1 = c.numExpectedThreads then .ready else c.state) = _
      split
      · exact .inr rfl
      · exact .inl hopen
    · exact h.queued
    · exact h.attached
    · exact hstill
  | park ph =>
    obtain ⟨hph, hopen⟩ : _ ∧ c.state ≠ .timeout := hen
    rcases state_cases c with hs | hs | hs
    · exact h.park_gathering hc hs hph (hpos ph rfl)
    · exact h.park_running hc hs hph (hpos ph rfl)
    · exact absurd hs hopen
  | pass ph =>
    obtain ⟨hph, hover⟩ : _ ∧ c.state = .timeout := hen
    refine h.timeout_frame hover hover rfl rfl ?_ (by simp [Event.target])
    rintro ⟨⟩
    simp at hph
  | detach ph => exact hord.elim
  | move => exact h.move hord (hpos .parked rfl)
  | empty =>
    show Serial ⟨c.afterEmpty.gate, Population.shift none none pop⟩
    exact h.empty hord hen
  | drop => exact hord.elim
  | wake => exact h.wake hc (hpos .asleep rfl)
  | run ph => exact h.run hen (hpos ph rfl)
  | sleep ph st =>
    obtain rfl : ph = .onCpu := hord
    exact h.sleep hc (hen.2.2 rfl) (hpos .onCpu rfl)
  | exit ph st asleep =>
    obtain ⟨rfl, hst, hreset⟩ := hord
    obtain rfl : asleep = true := hen.2.mpr rfl
    exact h.exit hc hst (hpos .asleep rfl) hreset
  | expire =>
    show Serial ⟨(c.pushIf true true).gate, Population.shift none none pop⟩
    cases hp : c.pendingDispatch with
    | false => exact .forced (.inl hp) h.queued h.attached
    | true =>
      have hsame : c.pushIf true true = c := if_pos hp
      rw [hsame]
      exact hkeep

end Group

end Sect.Serialise
