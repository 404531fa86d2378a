import SectProof.SerialiseEffects

/-! # Where the tasks are

`Placed` ties the kernel's phases to the scheduler's records: which standings a
phase allows, that the asleep flag is the asleep phase, and that a group's queue
holds exactly the parked tasks of the group.  Every delivered callback keeps it,
whatever the interleaving.

The step inversion (`step_interprets`) is the one place where the callbacks are
taken apart: each step moves one task from a phase to a phase and accounts the
move in the cycle of one group, as one of the `Event`s. -/

open List Function Option

namespace Sect.Serialise

open State Sys

/-- The standings and phases that go together. -/
def Fits : Option TaskView → Phase → Prop
  | none, ph => ph = .outside
  | some ⟨_, .registered, asleep⟩, ph => ph = .outside ∧ asleep = false
  | some ⟨_, .ignored, asleep⟩, ph => ph = .outside ∧ asleep = false
  | some ⟨_, .enqueued, asleep⟩, ph =>
    ph ∈ [Phase.parked, .dispatched, .asleep, .waking, .detached, .global] ∧
      (asleep = true ↔ ph = .asleep)
  | some ⟨_, .running, asleep⟩, ph =>
    ph ∈ [Phase.yielded, .onCpu, .asleep, .waking, .detached, .global] ∧
      (asleep = true ↔ ph = .asleep)

/-- The tasks in the queue of a group. -/
def State.parkedIn (s : State) (e : Nat) : List Nat := (s.groupDsq e).map Prod.snd

/-- **Placement**: the scheduler's records agree with where the tasks are. -/
structure Sys.Placed (x : Sys) : Prop where
  fits : ∀ q, Fits (x.bpf.view q) (x.phase q)
  known : ∀ q v, x.bpf.view q = some v → v.eid < maxExecutorGroups ∧ (x.bpf.cycle v.eid).isSome
  queued : ∀ e q, q ∈ x.bpf.parkedIn e ↔
    x.phase q = .parked ∧ ∃ v, x.bpf.view q = some v ∧ v.eid = e
  nodup : ∀ e, (x.bpf.parkedIn e).Nodup

theorem Sys.placed_init : Sys.init.Placed where
  fits _ := rfl
  known q v h := by cases h
  queued e q := by
    constructor
    · intro h; cases h
    · rintro ⟨h, _⟩; cases h
  nodup _ := nodup_nil

/-! ## Events -/

/-- What a step means for the accounting of one group. -/
inductive Event
  | idle
  | join
  | park (source : Phase)
  | pass (source : Phase)     -- enqueued after the timeout, into the global queue
  | detach (source : Phase)
  | move                      -- a dispatch that moved a task
  | empty                     -- a dispatch that found the group's queue empty
  | drop                      -- a dispatch that found no cycle
  | wake
  | run (source : Phase)
  | sleep (source : Phase) (taskState : ThreadState)
  | exit (source : Phase) (taskState : ThreadState) (wasAsleep : Bool)
  | expire

namespace Event

/-- What an event does to the cycle. -/
def account (cfg : Config) : Event → SchedCycle → SchedCycle
  | .idle | .pass _ | .detach _ | .run _ | .drop => id
  | .join => SchedCycle.join
  | .park _ => SchedCycle.afterPark
  | .move => SchedCycle.afterMove
  | .empty => SchedCycle.afterEmpty
  | .wake => SchedCycle.afterWake
  | .sleep _ st => SchedCycle.afterSleep st
  | .exit _ st asleep => SchedCycle.afterExit cfg st asleep
  | .expire => SchedCycle.push true

/-- The phase a participant leaves. -/
def source : Event → Option Phase
  | .park ph | .pass ph | .detach ph | .run ph | .sleep ph _ | .exit ph _ _ => some ph
  | .move => some .parked
  | .wake => some .asleep
  | .idle | .join | .empty | .drop | .expire => none

/-- The phase a participant enters. -/
def target : Event → Option Phase
  | .join => some .yielded
  | .park _ => some .parked
  | .pass _ => some .global
  | .detach _ => some .detached
  | .move => some .dispatched
  | .wake => some .waking
  | .run _ => some .onCpu
  | .sleep _ _ => some .asleep
  | .idle | .empty | .drop | .exit _ _ _ | .expire => none

/-- The event takes a token off the gate queue. -/
def pops : Event → Bool
  | .move | .empty | .drop => true
  | _ => false

/-- The event finds the gate open, and asks for a token. -/
def opens : Event → SchedCycle → Bool
  | .park _, c => c.countEnqueue.dispatchable
  | .move, c => decide (c.state = .timeout ∧ c.dispatchMoved.numQueued > 0)
  | .empty, c => decide (c.dispatchEmpty.numQueued > 0)
  | .wake, c => c.wake.allParked
  | .sleep _ st, c => (c.sleep st).allParked
  | .exit _ st asleep, c => (c.exit st asleep).dispatchableOnExit
  | .expire, _ => true
  | .idle, _ | .join, _ | .pass _, _ | .detach _, _ | .run _, _ | .drop, _ => false

/-- What an event of group `eid`, whose gate was `c`, does to the gate queue. -/
def queueAfter (eid : Nat) (ev : Event) (c : SchedCycle) (q : List Nat) : List Nat :=
  let q := if ev.pops then q.tail else q
  if ev.opens c && (ev.pops || !c.pendingDispatch) then pushToken eid q else q

end Event

/-! ## Steps as events -/

/-- The step from `x` to `y` changes one task, `p`, and accounts it in one cycle,
that of `eid`, as `ev`. -/
structure Moved (cfg : Config) (x y : Sys) (p eid : Nat) (ev : Event) (v : Option TaskView)
    (ph : Phase) : Prop where
  views : ∀ q, q ≠ p → y.bpf.view q = x.bpf.view q
  phases : ∀ q, q ≠ p → y.phase q = x.phase q
  view : y.bpf.view p = v
  phase : y.phase p = ph
  gate : y.bpf.gate cfg eid = (ev.account cfg (x.bpf.gate cfg eid)).gate
  gates : ∀ e, e ≠ eid → y.bpf.gate cfg e = x.bpf.gate cfg e
  queue : y.bpf.cycleDispatchQueue =
    ev.queueAfter eid (x.bpf.gate cfg eid) x.bpf.cycleDispatchQueue
  cycles : ∀ e, (x.bpf.cycle e).isSome → (y.bpf.cycle e).isSome
  known : ∀ w, v = some w → w.eid < maxExecutorGroups ∧ (y.bpf.cycle w.eid).isSome
  parked : ∀ e q, q ≠ p → (q ∈ y.bpf.parkedIn e ↔ q ∈ x.bpf.parkedIn e)
  self : ∀ e, p ∈ y.bpf.parkedIn e ↔ ph = .parked ∧ ∃ w, v = some w ∧ w.eid = e
  nodup : ∀ e, (y.bpf.parkedIn e).Nodup

/-- Which callback of which task is which event, and what it leaves recorded. -/
inductive Interprets (cfg : Config) (x : Sys) :
    Callback → (p eid : Nat) → Event → Option TaskView → Phase → Prop
  /-- a task outside the cycle: registered, ignored, removed, or left as it was -/
  | outside {cb p eid v} (hout : x.phase p = .outside)
      (hv : v = x.bpf.view p ∨ v = none ∨ ∃ st q, (st = .registered ∨ st = .ignored) ∧
        cb.task = some q ∧ v = some ⟨identifyExecutorGroup q, st, false⟩) :
      Interprets cfg x cb p eid .idle v .outside
  /-- nothing happens -/
  | still {cb p eid} : Interprets cfg x cb p eid .idle (x.bpf.view p) (x.phase p)
  | join {p : TaskStruct} (hout : x.phase p.pid = .outside)
      (hvalid : identifyExecutorGroup p ≠ invalidEid)
      (hopen : (x.bpf.gate cfg (identifyExecutorGroup p)).state = .unavailable) :
      Interprets cfg x (.yield p) p.pid (identifyExecutorGroup p) .join
        (some ⟨identifyExecutorGroup p, .running, false⟩) .yielded
  | park {p : TaskStruct} {now rng v} (hv : x.bpf.view p.pid = some v) (hj : v.joined = true)
      (hph : x.phase p.pid ∈ [Phase.yielded, .onCpu, .waking, .detached])
      (hopen : (x.bpf.gate cfg v.eid).state ≠ .timeout) :
      Interprets cfg x (.enqueue p now rng) p.pid v.eid (.park (x.phase p.pid))
        (some ⟨v.eid, .enqueued, false⟩) .parked
  | pass {p : TaskStruct} {now rng v} (hv : x.bpf.view p.pid = some v) (hj : v.joined = true)
      (hph : x.phase p.pid ∈ [Phase.yielded, .onCpu, .waking, .detached])
      (hover : (x.bpf.gate cfg v.eid).state = .timeout) :
      Interprets cfg x (.enqueue p now rng) p.pid v.eid (.pass (x.phase p.pid)) (some v) .global
  | detach {cb : Callback} {p : TaskStruct} {v}
      (hcb : cb = .dequeue p ∨
        x.phase p.pid ≠ .parked ∧ ∃ fl, sleeps fl = false ∧ cb = .quiescent p fl)
      (hv : x.bpf.view p.pid = some v) (hj : v.joined = true)
      (hph : x.phase p.pid ∈ [Phase.parked, .dispatched, .global, .onCpu, .detached]) :
      Interprets cfg x cb p.pid v.eid (.detach (x.phase p.pid)) (some v) .detached
  | move {p eid rest v} (hq : x.bpf.cycleDispatchQueue = eid :: rest)
      (hv : x.bpf.view p = some v) (heid : v.eid = eid) (hph : x.phase p = .parked) :
      Interprets cfg x .dispatch p eid .move (some v) .dispatched
  | empty {p eid rest} (hq : x.bpf.cycleDispatchQueue = eid :: rest)
      (hd : x.bpf.groupDsq eid = []) :
      Interprets cfg x .dispatch p eid .empty (x.bpf.view p) (x.phase p)
  | drop {p eid rest} (hq : x.bpf.cycleDispatchQueue = eid :: rest)
      (hc : x.bpf.cycle eid = none) :
      Interprets cfg x .dispatch p eid .drop (x.bpf.view p) (x.phase p)
  | wake {p : TaskStruct} {v} (hv : x.bpf.view p.pid = some v) (hj : v.joined = true)
      (hph : x.phase p.pid = .asleep) :
      Interprets cfg x (.runnable p) p.pid v.eid .wake (some ⟨v.eid, v.standing, false⟩) .waking
  | run {p : TaskStruct} {v} (hv : x.bpf.view p.pid = some v) (hj : v.joined = true)
      (hph : x.phase p.pid ∈ [Phase.dispatched, .global]) :
      Interprets cfg x (.running p) p.pid v.eid (.run (x.phase p.pid))
        (some ⟨v.eid, .running, false⟩) .onCpu
  | sleep {p : TaskStruct} {fl t} (hfl : sleeps fl = true) (ht : x.bpf.ctx p.pid = some t)
      (hj : t.joined = true)
      (hph : x.phase p.pid ∈ [Phase.onCpu, .parked, .dispatched, .global]) :
      Interprets cfg x (.quiescent p fl) p.pid t.eid (.sleep (x.phase p.pid) t.state)
        (some ⟨t.eid, t.state.standing, true⟩) .asleep
  | exit {p : TaskStruct} {t} (ht : x.bpf.ctx p.pid = some t) (hj : t.joined = true)
      (hph : x.phase p.pid ∈ [Phase.asleep, .detached]) :
      Interprets cfg x (.exitTask p) p.pid t.eid (.exit (x.phase p.pid) t.state t.isAsleep)
        none .outside

/-! ## Reading a placement -/

section Placement
variable {cfg : Config} {x : Sys} {p : TaskStruct}

@[simp] theorem Sys.moveTo_bpf (x : Sys) (s : State) (pid : Nat) (ph : Phase) :
    (x.moveTo s pid ph).bpf = s := rfl

@[simp] theorem Sys.moveTo_phase (x : Sys) (s : State) (pid : Nat) (ph : Phase) :
    (x.moveTo s pid ph).phase pid = ph := update_self ..

variable {pid q e eid : Nat} {t : TaskCtx} {cb : Callback} {s u : State} {c : SchedCycle}

theorem Sys.moveTo_phase_of_ne (x : Sys) (s : State) (ph : Phase) (h : q ≠ pid) :
    (x.moveTo s pid ph).phase q = x.phase q := update_of_ne h ..

variable {ph : Phase} {ev : Event} {f : SchedCycle → SchedCycle} {opens timeout : Bool} {now : Nat}
  {rng : Rng}

/-- A move to the phase the task is in. -/
theorem Sys.moveTo_same (x : Sys) (s : State) (h : x.phase pid = ph) :
    x.moveTo s pid ph = ⟨s, x.phase⟩ := by
  subst h
  exact congrArg (Sys.mk s) (update_eq_self ..)

/-- A task outside the cycle has not joined. -/
theorem Sys.Placed.outsider (hx : x.Placed) (hph : x.phase q = .outside) (t : TaskCtx)
    (ht : x.bpf.ctx q = some t) : t.joined = false := by
  have hfit := hx.fits q
  rw [view_of_ctx ht, hph] at hfit
  rw [← t.joined_view]
  generalize t.view = v at hfit ⊢
  obtain ⟨e, st, a⟩ := v
  cases st
  · rfl
  · rfl
  · exact absurd hfit.1 (by simp)
  · exact absurd hfit.1 (by simp)

/-- A task in a cycle has joined. -/
theorem Sys.Placed.joined (hx : x.Placed) (hph : x.phase q ≠ .outside) :
    ∃ t, x.bpf.ctx q = some t ∧ t.joined = true := by
  have hfit := hx.fits q
  cases ht : x.bpf.ctx q with
  | none =>
    rw [view_eq_none.mpr ht] at hfit
    exact absurd hfit hph
  | some t =>
    refine ⟨t, rfl, ?_⟩
    rw [view_of_ctx ht] at hfit
    rw [← t.joined_view]
    generalize t.view = v at hfit ⊢
    obtain ⟨e, st, a⟩ := v
    cases st
    · exact absurd hfit.1 hph
    · exact absurd hfit.1 hph
    · rfl
    · rfl

/-- The asleep flag is the asleep phase. -/
theorem Sys.Placed.asleep_iff (hx : x.Placed) (ht : x.bpf.ctx q = some t) :
    t.isAsleep = true ↔ x.phase q = .asleep := by
  have hfit := hx.fits q
  rw [view_of_ctx ht] at hfit
  show t.view.isAsleep = true ↔ _
  generalize t.view = v at hfit ⊢
  obtain ⟨e, st, a⟩ := v
  cases st
  · simp [hfit.1, hfit.2]
  · simp [hfit.1, hfit.2]
  · exact hfit.2
  · exact hfit.2

theorem Sys.Placed.awake (hx : x.Placed) (ht : x.bpf.ctx q = some t) (hph : x.phase q ≠ .asleep) :
    t.isAsleep = false :=
  Bool.eq_false_iff.mpr fun h => hph ((hx.asleep_iff ht).mp h)

theorem ne_invalidEid (h : e < maxExecutorGroups) : e ≠ invalidEid :=
  Nat.ne_of_lt (Nat.lt_succ_of_lt h)

theorem eid_of_keepsGroup (hkeep : x.keepsGroup p = true) (ht : x.bpf.ctx p.pid = some t) :
    t.eid = p.group := by
  unfold Sys.keepsGroup at hkeep
  rw [ht] at hkeep
  exact (of_decide_eq_true hkeep).symm

/-- What is on record about a participant that sees a callback. -/
theorem Sys.Placed.participant (hx : x.Placed) (hkeep : x.keepsGroup p = true)
    (hph : x.phase p.pid ≠ .outside) :
    ∃ t c, x.bpf.ctx p.pid = some t ∧ t.joined = true ∧ t.eid = p.group ∧
      p.group ≠ invalidEid ∧
      x.bpf.cycle p.group = some c := by
  obtain ⟨t, ht, hj⟩ := hx.joined hph
  have heid := eid_of_keepsGroup hkeep ht
  obtain ⟨hvalid, hsome : (x.bpf.cycle t.eid).isSome⟩ := hx.known p.pid t.view (view_of_ctx ht)
  rw [heid] at hsome
  obtain ⟨c, hc⟩ := isSome_iff_exists.mp hsome
  exact ⟨t, c, ht, hj, heid, heid ▸ ne_invalidEid hvalid, hc⟩

theorem Sys.allows_task (h : x.allows cb = true) (htask : cb.task = some p) :
    x.keepsGroup p = true ∧ x.phase p.pid ∈ cb.phases := by
  unfold Sys.allows at h
  rw [htask, Bool.and_eq_true, all_some, Bool.and_eq_true, decide_eq_true_eq] at h
  exact h.2

/-! ## The group queues -/

/-- Task `p` is in no group's queue; the others are where they were. -/
structure Unparked (p : Nat) (s u : State) : Prop where
  others : ∀ e q, q ≠ p → (q ∈ u.parkedIn e ↔ q ∈ s.parkedIn e)
  gone : ∀ e, p ∉ u.parkedIn e
  nodup : ∀ e, (u.parkedIn e).Nodup

theorem parkedIn_congr (h : u.groupDsq = s.groupDsq) (e : Nat) : u.parkedIn e = s.parkedIn e := by
  rw [State.parkedIn, State.parkedIn, h]

theorem Unparked.congr {p : Nat} {w : State} (h : Unparked p s u) (hd : w.groupDsq = u.groupDsq) :
    Unparked p s w where
  others e q hq := by rw [parkedIn_congr hd]; exact h.others e q hq
  gone e := by rw [parkedIn_congr hd]; exact h.gone e
  nodup e := by rw [parkedIn_congr hd]; exact h.nodup e

theorem Sys.Placed.not_parked (hx : x.Placed) (hph : x.phase q ≠ .parked) (e : Nat) :
    q ∉ x.bpf.parkedIn e :=
  fun h => hph ((hx.queued e q).mp h).1

theorem Sys.Placed.unparked_of_eq (hx : x.Placed) (hph : x.phase q ≠ .parked)
    (hd : u.groupDsq = x.bpf.groupDsq) : Unparked q x.bpf u where
  others e r _ := by rw [parkedIn_congr hd]
  gone e := by rw [parkedIn_congr hd]; exact hx.not_parked hph e
  nodup e := by rw [parkedIn_congr hd]; exact hx.nodup e

theorem parkedIn_unpark (p : TaskStruct) (s : State) (e : Nat) :
    (Sys.unpark p s).parkedIn e = if e = p.group then
      (s.parkedIn e).filter (· ≠ p.pid) else s.parkedIn e := by
  unfold State.parkedIn Sys.unpark
  split
  · rename_i he
    subst he
    rw [State.groupDsq_setDsq, VtimeQueue.remove, List.filter_map]
    rfl
  · rename_i he
    rw [groupDsq_setDsq_of_ne _ _ _ _ he]

theorem Sys.Placed.unparked_unpark (hx : x.Placed) (ht : x.bpf.ctx p.pid = some t)
    (heid : t.eid = p.group) : Unparked p.pid x.bpf (Sys.unpark p x.bpf) where
  others e q hq := by
    rw [parkedIn_unpark]
    split
    · simp [hq]
    · rfl
  gone e := by
    rw [parkedIn_unpark]
    split
    · simp
    · rename_i he
      intro hmem
      obtain ⟨_, v, hv, hve⟩ := (hx.queued e p.pid).mp hmem
      rw [view_of_ctx ht, some.injEq] at hv
      exact he (by rw [← hve, ← hv]; exact heid)
  nodup e := by
    rw [parkedIn_unpark]
    split
    · exact (hx.nodup e).filter _
    · exact hx.nodup e

theorem unpark_eq_self (hx : x.Placed) (hph : x.phase p.pid ≠ .parked) :
    (Sys.unpark p x.bpf).groupDsq = x.bpf.groupDsq := by
  have hsame : VtimeQueue.remove p.pid (x.bpf.groupDsq p.group) =
      x.bpf.groupDsq p.group := by
    refine filter_eq_self.mpr fun a ha => ?_
    have hne : a.2 ≠ p.pid := fun heq =>
      hx.not_parked hph p.group (heq ▸ mem_map_of_mem ha)
    simpa using hne
  unfold Sys.unpark
  dsimp only
  rw [hsame]
  exact update_eq_self ..

/-! ## The callbacks, one by one -/

/-- The step interprets the callback: it moves one task and accounts the move. -/
def Sys.Interpreted (cfg : Config) (x : Sys) (cb : Callback) (y : Sys) : Prop :=
  ∃ p eid ev v ph, Interprets cfg x cb p eid ev v ph ∧ Moved cfg x y p eid ev v ph

/-- The cycle of `eid` accounts an event; the other cycles stay as they are. -/
structure Accounted (cfg : Config) (s u : State) (eid : Nat) (ev : Event) : Prop where
  gate : u.gate cfg eid = (ev.account cfg (s.gate cfg eid)).gate
  gates : ∀ e, e ≠ eid → u.gate cfg e = s.gate cfg e
  queue : u.cycleDispatchQueue = ev.queueAfter eid (s.gate cfg eid) s.cycleDispatchQueue
  cycles : ∀ e, (s.cycle e).isSome → (u.cycle e).isSome

/-- A step that moves nobody, and is accounted in the cycle of `eid`. -/
theorem Sys.Placed.moved_nobody (hx : x.Placed) (hviews : ∀ r, u.view r = x.bpf.view r)
    (hdsq : u.groupDsq = x.bpf.groupDsq) (hacc : Accounted cfg x.bpf u eid ev) :
    Moved cfg x ⟨u, x.phase⟩ q eid ev (x.bpf.view q) (x.phase q) where
  views r _ := hviews r
  phases _ _ := rfl
  view := hviews q
  phase := rfl
  gate := hacc.gate
  gates := hacc.gates
  queue := hacc.queue
  cycles := hacc.cycles
  known w hw := ⟨(hx.known q w hw).1, hacc.cycles _ (hx.known q w hw).2⟩
  parked e r _ := by rw [parkedIn_congr hdsq]
  self e := by
    rw [parkedIn_congr hdsq]
    exact hx.queued e q
  nodup e := by
    rw [parkedIn_congr hdsq]
    exact hx.nodup e

/-- A step the gate cannot see, that moves nobody. -/
theorem Sys.Placed.still (hx : x.Placed) (hu : Unseen x.bpf u) :
    x.Interpreted cfg cb ⟨u, x.phase⟩ :=
  ⟨0, 0, .idle, _, _, .still, hx.moved_nobody hu.view hu.dsq ⟨hu.gate_eq cfg 0,
    fun e _ => hu.gate_eq cfg e, hu.queue, fun e he => by rw [hu.isSome]; exact he⟩⟩

/-- Registration leaves a registered task alone. -/
theorem Registers.view_some (hu : Registers cfg p s u) (ht : s.ctx p.pid = some t) :
    ∀ q, u.view q = s.view q := by
  intro q
  by_cases hq : q = p.pid
  · subst hq
    rcases hu.self with h | ⟨h, _⟩
    · exact h
    · rw [view_of_ctx ht] at h
      cases h
  · exact hu.others q hq

theorem Registers.accounted (hu : Registers cfg p s u) : Accounted cfg s u eid .idle :=
  ⟨hu.gate _, fun e _ => hu.gate e, hu.queue, hu.cycles⟩

/-- The task may have been registered; it stays outside. -/
theorem Sys.Placed.moved_registers (hx : x.Placed) (hu : Registers cfg p x.bpf u)
    (hph : x.phase p.pid = .outside) :
    Moved cfg x ⟨u, x.phase⟩ p.pid p.group .idle (u.view p.pid) .outside := by
  have hun : Unparked p.pid x.bpf u := hx.unparked_of_eq (by simp [hph]) hu.dsq
  refine ⟨hu.others, fun _ _ => rfl, rfl, hph, hu.gate _, fun e _ => hu.gate e, hu.queue, hu.cycles,
    fun w hw => ?_, hun.others, fun e => ?_, hun.nodup⟩
  · rcases hu.self with h | ⟨_, h, hvalid, hsome⟩
    · obtain ⟨hvalid, hsome⟩ := hx.known p.pid w (by rw [← h, hw])
      exact ⟨hvalid, hu.cycles _ hsome⟩
    · rw [h, some.injEq] at hw
      exact hw ▸ ⟨identifyExecutorGroup_lt p hvalid, hsome⟩
  · refine ⟨fun h => absurd h (hun.gone e), ?_⟩
    rintro ⟨h, _⟩
    cases h

theorem Sys.Placed.registers (hx : x.Placed) (hu : Registers cfg p x.bpf u)
    (htask : cb.task = some p) (hph : x.phase p.pid = .outside) :
    x.Interpreted cfg cb ⟨u, x.phase⟩ := by
  refine ⟨_, _, .idle, _, _, .outside hph ?_, hx.moved_registers hu hph⟩
  rcases hu.self with h | ⟨_, h, _⟩
  · exact .inl h
  · exact .inr (.inr ⟨.registered, p, .inl rfl, htask, h⟩)

/-- A participant's move that leaves the group queues alone: the phase changes,
the context changes, and one cycle accounts it. -/
theorem Sys.Placed.moved_of {v : Option TaskView} (hun : Unparked q x.bpf u)
    (hviews : ∀ r, r ≠ q → u.view r = x.bpf.view r) (hview : u.view q = v)
    (hacc : Accounted cfg x.bpf u eid ev)
    (hknown : ∀ w, v = some w → w.eid < maxExecutorGroups ∧ (u.cycle w.eid).isSome)
    (hph : ph ≠ .parked) : Moved cfg x (x.moveTo u q ph) q eid ev v ph := by
  refine ⟨hviews, fun r hr => x.moveTo_phase_of_ne u ph hr, hview, x.moveTo_phase .., hacc.gate,
    hacc.gates, hacc.queue, hacc.cycles, hknown, hun.others, fun e => ?_, hun.nodup⟩
  exact ⟨fun h => absurd h (hun.gone e), fun h => absurd h.1 hph⟩

/-- A task that keeps its group keeps a known one. -/
theorem Sys.Placed.known_of (hx : x.Placed) {v w : TaskView} (hv : x.bpf.view q = some v)
    (hw : w.eid = v.eid) (hcycles : ∀ e, (x.bpf.cycle e).isSome → (u.cycle e).isSome) :
    ∀ w', some w = some w' → w'.eid < maxExecutorGroups ∧ (u.cycle w'.eid).isSome := by
  rintro w' ⟨⟩
  obtain ⟨hvalid, hsome⟩ := hx.known q v hv
  rw [hw]
  exact ⟨hvalid, hcycles _ hsome⟩

/-- The same, of a task that keeps its group. -/
theorem Sys.Placed.moved_keep (hx : x.Placed) {v w : TaskView} (hv : x.bpf.view q = some v)
    (hw : w.eid = v.eid) (hun : Unparked q x.bpf u)
    (hviews : ∀ r, r ≠ q → u.view r = x.bpf.view r) (hview : u.view q = some w)
    (hacc : Accounted cfg x.bpf u eid ev) (hph : ph ≠ .parked) :
    Moved cfg x (x.moveTo u q ph) q eid ev (some w) ph :=
  Sys.Placed.moved_of hun hviews hview hacc (hx.known_of hv hw hacc.cycles) hph

theorem State.gate_account_of_ne (h : e ≠ eid) :
    (account eid f opens timeout s).gate cfg e = s.gate cfg e := by
  rw [State.gate, State.gate, cycle_account_of_ne _ _ _ _ _ h]

/-- A task outside the cycle is not made to join by its registration. -/
theorem Registers.not_joined (hu : Registers cfg p x.bpf u) (hx : x.Placed)
    (hph : x.phase p.pid = .outside) : (u.ctx p.pid).any TaskCtx.joined = false := by
  cases ht : u.ctx p.pid with
  | none => rfl
  | some t =>
    rw [any_some, ← t.joined_view]
    rcases hu.self with h | ⟨_, h, _⟩
    · rw [view_of_ctx ht] at h
      obtain ⟨t₀, ht₀, hv⟩ := view_eq_some.mp h.symm
      rw [← hv, t₀.joined_view]
      exact hx.outsider hph t₀ ht₀
    · rw [view_of_ctx ht] at h
      rw [some.inj h]; rfl

theorem Registers.gate_some (hu : Registers cfg p s u) (hc : u.cycle e = some c) :
    c.gate = s.gate cfg e := by
  rw [← hu.gate e, gate_of_cycle hc]

theorem State.gate_account (hc : s.cycle eid = some c) :
    (account eid f opens timeout s).gate cfg eid = ((f c).pushIf opens timeout).gate :=
  gate_of_cycle (cycle_account _ _ _ _ _ hc)

/-- A section under the lock of a cycle accounts an event there. -/
theorem accounted_account (hcycle : u.cycle = s.cycle) (hc : s.cycle eid = some c)
    (hgate : ((f c).pushIf opens timeout).gate = (ev.account cfg c.gate).gate)
    (hqueue : (if opens && !(f c).pendingDispatch then pushToken eid u.cycleDispatchQueue
      else u.cycleDispatchQueue) = ev.queueAfter eid c.gate s.cycleDispatchQueue) :
    Accounted cfg s (account eid f opens timeout u) eid ev := by
  have hc' : u.cycle eid = some c := by rw [hcycle]; exact hc
  refine ⟨?_, fun e he => ?_, ?_, fun e he => ?_⟩
  · rw [gate_account hc', gate_of_cycle hc]; exact hgate
  · rw [gate_account_of_ne he, State.gate, hcycle]; rfl
  · rw [queue_account _ _ _ _ _ hc', gate_of_cycle hc]; exact hqueue
  · rw [isSome_account, hcycle]; exact he

/-- What is on record about a registered task. -/
theorem Registers.registered_view {s₁ : State} (hu : Registers cfg p x.bpf s₁) (hx : x.Placed)
    (hkeep : x.keepsGroup p = true) (ht : s₁.ctx p.pid = some t) (hst : t.state = .registered) :
    t.view = ⟨p.group, .registered, false⟩ := by
  rcases hu.self with h | ⟨_, h, _⟩
  · rw [view_of_ctx ht] at h
    obtain ⟨t₀, ht₀, hv⟩ := view_eq_some.mp h.symm
    have heid : t.eid = p.group :=
      (congrArg TaskView.eid hv).symm.trans (eid_of_keepsGroup hkeep ht₀)
    have hasleep : t.isAsleep = false := by
      have hfit := hx.fits p.pid
      rw [view_of_ctx ht₀, hv] at hfit
      unfold TaskCtx.view at hfit
      rw [hst] at hfit
      exact hfit.2
    unfold TaskCtx.view
    rw [heid, hst, hasleep]
    rfl
  · rw [view_of_ctx ht] at h
    exact some.inj h

theorem interprets_yield (hx : x.Placed) (hallow : x.allows (.yield p) = true) :
    x.Interpreted cfg (.yield p) (x.deliver cfg (.yield p)) := by
  obtain ⟨hkeep, hphase⟩ := allows_task hallow rfl
  unfold Sys.deliver Sys.yieldedPhase
  dsimp only
  have hcases : x.phase p.pid = .outside ∨ x.phase p.pid = .onCpu := by
    simpa [Callback.phases] using hphase
  rcases hcases with hph | hph
  · obtain ⟨s₁, hens, hyield⟩ := serialiseYield_cases cfg p x.bpf
    have hreg := hens.registers
    rcases hyield with heq | ⟨t, c, hvalid, ht, hst, hc, hcase⟩
    · rw [heq, hreg.not_joined hx hph, if_neg (by simp), x.moveTo_same _ rfl]
      exact hx.registers hreg rfl hph
    have hun : Unparked p.pid x.bpf s₁ := hx.unparked_of_eq (by simp [hph]) hreg.dsq
    have hview := hreg.registered_view hx hkeep ht hst
    have heid : t.eid = identifyExecutorGroup p := congrArg TaskView.eid hview
    have hasleep : t.isAsleep = false := congrArg TaskView.isAsleep hview
    rcases hcase with ⟨hcs, hu⟩ | ⟨hcs, hu⟩
    · -- too late: the task is ignored
      have hnot : ((s₁.modifyCtx p.pid fun t => { t with state := .ignored }).ctx p.pid).any
          TaskCtx.joined = false := by
        rw [ctx_modifyCtx, ht]; rfl
      have hself := view_modifyCtx s₁ (fun t => { t with state := .ignored }) ht
      rw [hu, hnot, if_neg (by simp), hph]
      refine ⟨_, 0, .idle, _, _, .outside hph (.inr (.inr ⟨.ignored, p, .inr rfl, rfl, rfl⟩)),
        Sys.Placed.moved_of (hun.congr rfl) (fun r hr => ?_) ?_
          ⟨hreg.gate _, fun e _ => hreg.gate e, hreg.queue, hreg.cycles⟩ (fun w hw => ?_)
          (by simp)⟩
      · rw [view_modifyCtx_of_ne _ _ hr, hreg.others r hr]
      · rw [hself, ← heid, ← hasleep]; rfl
      · cases hw
        exact ⟨identifyExecutorGroup_lt p hvalid, isSome_of_eq_some hc⟩
    · -- the cycle is still open: the task joins
      have hc' : (s₁.modifyCtx p.pid fun t => { t with state := .running }).cycle
          (identifyExecutorGroup p) = some c := hc
      have hself := view_modifyCtx s₁ (fun t => { t with state := .running }) ht
      have hjoined : ((account (identifyExecutorGroup p) .join false false
          (s₁.modifyCtx p.pid fun t => { t with state := .running })).ctx p.pid).any
          TaskCtx.joined = true := by
        rw [ctx_account, ctx_modifyCtx, ht]; rfl
      rw [hu, hjoined, if_pos ⟨hph, rfl⟩]
      refine ⟨_, _, .join, _, _, .join hph hvalid (by rw [← hreg.gate_some hc]; exact hcs),
        Sys.Placed.moved_of (hun.congr (dsq_account ..)) (fun r hr => ?_) ?_
        ⟨?_, fun e he => ?_, hreg.queue, fun e he => ?_⟩ (fun w hw => ?_) (by simp)⟩
      · rw [view_account, view_modifyCtx_of_ne _ _ hr, hreg.others r hr]
      · rw [view_account, hself, ← heid, ← hasleep]; rfl
      · rw [gate_account hc', ← hreg.gate_some hc]; rfl
      · rw [gate_account_of_ne he]; exact hreg.gate e
      · rw [isSome_account]; exact hreg.cycles e he
      · cases hw
        exact ⟨identifyExecutorGroup_lt p hvalid,
          by rw [isSome_account]; exact isSome_of_eq_some hc'⟩
  · obtain ⟨t, c, ht, hj, heid, hvalid, hc⟩ := hx.participant hkeep (by simp [hph])
    rw [if_neg (by simp [hph]), x.moveTo_same _ rfl]
    obtain ⟨s₁, hens, hyield⟩ := serialiseYield_cases cfg p x.bpf
    have hreg := hens.registers
    rcases hyield with heq | ⟨t', c, _, ht', hst, _⟩
    · rw [heq]
      exact ⟨p.pid, 0, .idle, _, _, .still, hx.moved_nobody (hreg.view_some ht) hreg.dsq
        hreg.accounted⟩
    -- a participant is not registered any more
    have hview := hreg.view_some ht p.pid
    rw [view_of_ctx ht', view_of_ctx ht] at hview
    have hj' : t'.joined = true := by
      rw [← t'.joined_view, some.inj hview, t.joined_view, hj]
    unfold TaskCtx.joined at hj'
    rw [hst] at hj'
    cases hj'

theorem any_parked : ((s.groupDsq e).any fun a => a.2 = q) = true ↔ q ∈ s.parkedIn e := by
  simp [State.parkedIn]

theorem mem_parkedIn_insert {vtime : Nat} :
    q ∈ ((Function.update s.groupDsq eid (VtimeQueue.insert vtime pid (s.groupDsq eid))) e).map
      Prod.snd ↔ q = pid ∧ e = eid ∨ q ∈ s.parkedIn e := by
  unfold State.parkedIn
  by_cases he : e = eid
  · subst he
    rw [update_self, ((VtimeQueue.perm_insert vtime pid (s.groupDsq e)).map _).mem_iff]
    simp
  · simp [he]

theorem Parks.mem_parkedIn (h : Parks p eid t c s u) (e q : Nat) :
    q ∈ u.parkedIn e ↔ q = p.pid ∧ e = eid ∨ q ∈ s.parkedIn e := by
  obtain ⟨vtime, hd⟩ := h.dsq
  unfold State.parkedIn
  rw [hd]
  exact mem_parkedIn_insert

theorem Parks.isSome (h : Parks p eid t c s u) (he : (s.cycle e).isSome) : (u.cycle e).isSome := by
  by_cases hee : e = eid
  · obtain ⟨c', hc', _⟩ := h.cycle
    rw [hee, hc']; rfl
  · have hsome := congrArg Option.isSome (h.cycles e hee)
    rw [isSome_map, isSome_map] at hsome
    rw [hsome]; exact he

/-- Parking moves the task into its group's queue and accounts it there. -/
theorem Parks.moved (cfg : Config) (ph : Phase) (h : Parks p eid t c x.bpf u) (hx : x.Placed)
    (ht : x.bpf.ctx p.pid = some t) (hc : x.bpf.cycle eid = some c) (heid : t.eid = eid)
    (hnp : x.phase p.pid ≠ .parked) :
    Moved cfg x (x.moveTo u p.pid .parked) p.pid eid (.park ph)
      (some ⟨t.eid, .enqueued, t.isAsleep⟩) .parked := by
  obtain ⟨vtime, hd⟩ := h.dsq
  obtain ⟨c', hc', hg'⟩ := h.cycle
  refine ⟨h.others, fun r hr => x.moveTo_phase_of_ne u _ hr, h.self, x.moveTo_phase .., ?_,
    fun e he => ?_, ?_, fun e he => h.isSome he, ?_, fun e q hq => ?_, fun e => ?_, fun e => ?_⟩
  · rw [moveTo_bpf, gate_of_cycle hc', hg', gate_of_cycle hc]
    exact c.gate_afterPark
  · rw [moveTo_bpf, gate_eq_map, gate_eq_map, h.cycles e he]
  · rw [moveTo_bpf, h.queue, gate_of_cycle hc]; rfl
  · exact hx.known_of (view_of_ctx ht) rfl fun e he => h.isSome he
  · rw [moveTo_bpf, h.mem_parkedIn]
    simp [hq]
  · rw [moveTo_bpf, h.mem_parkedIn]
    constructor
    · rintro (⟨_, he⟩ | hin)
      · exact ⟨rfl, _, rfl, he ▸ heid⟩
      · exact absurd hin (hx.not_parked hnp e)
    · rintro ⟨_, w, hw, hwe⟩
      exact .inl ⟨rfl, by rw [← hwe, ← some.inj hw]; exact heid⟩
  · rw [moveTo_bpf]
    unfold State.parkedIn
    rw [hd]
    by_cases hee : e = eid
    · subst hee
      rw [update_self, ((VtimeQueue.perm_insert vtime p.pid _).map Prod.snd).nodup_iff]
      exact nodup_cons.mpr ⟨hx.not_parked hnp _, hx.nodup _⟩
    · rw [update_of_ne hee]
      exact hx.nodup e

/-- What an enqueue does with a participant: it parks it, unless the cycle has
timed out. -/
theorem Sys.Placed.enqueue_participant (hx : x.Placed) (cfg : Config)
    (hallow : x.allows (.enqueue p now rng) = true) (hph : x.phase p.pid ≠ .outside) :
    ∃ t c, x.bpf.ctx p.pid = some t ∧ t.joined = true ∧ t.eid = p.group ∧
      x.bpf.cycle p.group = some c ∧
      serialiseEnqueue cfg p now rng x.bpf = if c.state = .timeout then x.bpf
        else parkParticipant cfg p p.group now rng x.bpf := by
  obtain ⟨hkeep, _⟩ := allows_task hallow rfl
  obtain ⟨t, c, ht, hj, heid, hvalid, hc⟩ := hx.participant hkeep hph
  obtain ⟨hk, hext⟩ : isKthread p = false ∧ isSchedExt p = true := by
    unfold Sys.allows Sys.schedulable at hallow
    simp only [hph, decide_false, Bool.false_or, Bool.and_eq_true, Bool.not_eq_true'] at hallow
    exact hallow.1
  exact ⟨t, c, ht, hj, heid, hc, serialiseEnqueue_of_joined hk hext hvalid ht hc hj⟩

theorem interprets_enqueue (hx : x.Placed) (hallow : x.allows (.enqueue p now rng) = true) :
    x.Interpreted cfg (.enqueue p now rng) (x.deliver cfg (.enqueue p now rng)) := by
  obtain ⟨hkeep, hphase⟩ := allows_task hallow rfl
  unfold Sys.deliver Sys.enqueuedPhase
  dsimp only
  by_cases hph : x.phase p.pid = .outside
  · have hreg := (ensures_serialiseEnqueue cfg now rng (hx.outsider hph)).registers
    have hnot : ¬ (((serialiseEnqueue cfg p now rng x.bpf).groupDsq
        p.group).any fun a => a.2 = p.pid) = true := by
      rw [any_parked, parkedIn_congr hreg.dsq]
      exact hx.not_parked (by simp [hph]) _
    rw [if_neg hnot, if_pos hph, x.moveTo_same _ hph]
    exact hx.registers hreg rfl hph
  · obtain ⟨t, c, ht, hj, heid, hc, heq⟩ := hx.enqueue_participant cfg hallow hph
    have hmem : x.phase p.pid ∈ [Phase.yielded, .onCpu, .waking, .detached] := by
      simpa [Callback.phases, hph] using hphase
    have hnp : x.phase p.pid ≠ .parked := fun h => by simp [h] at hmem
    have hna : x.phase p.pid ≠ .asleep := fun h => by simp [h] at hmem
    have hawake := hx.awake ht hna
    have hview := view_of_ctx ht
    have hgate : x.bpf.gate cfg p.group = c.gate := gate_of_cycle hc
    have hjv : t.view.joined = true := by rw [t.joined_view, hj]
    have hve : t.view.eid = p.group := heid
    rw [heq]
    by_cases hst : c.state = .timeout
    · -- the cycle has timed out: into the global queue
      rw [if_pos hst, if_neg (by rw [any_parked]; exact hx.not_parked hnp _), if_neg hph]
      refine ⟨_, p.group, .pass (x.phase p.pid), some t.view, .global, ?_,
        hx.moved_keep hview rfl (hx.unparked_of_eq hnp rfl) (fun _ _ => rfl) hview
          ⟨rfl, fun _ _ => rfl, rfl, fun _ h => h⟩ (by simp)⟩
      rw [← hve]
      exact .pass hview hjv hmem (by rw [hve, hgate]; exact hst)
    · have hpark := parks_parkParticipant cfg now rng ht hc
      have hin := (hpark.mem_parkedIn _ _).mpr (.inl ⟨rfl, rfl⟩)
      have hmoved := hpark.moved cfg (x.phase p.pid) hx ht hc heid hnp
      rw [hawake] at hmoved
      rw [if_neg hst, if_pos (any_parked.mpr hin)]
      refine ⟨_, p.group, .park (x.phase p.pid), _, .parked, ?_, hmoved⟩
      rw [← hve]
      exact .park hview hjv hmem (by rw [hve, hgate]; exact hst)

theorem Sys.advance_outside (ph : Phase) (h : x.phase pid = .outside) :
    x.advance s pid ph = ⟨s, x.phase⟩ := by
  unfold Sys.advance
  rw [if_pos h, x.moveTo_same s h]

theorem Sys.advance_inside (ph : Phase) (h : x.phase pid ≠ .outside) :
    x.advance s pid ph = x.moveTo s pid ph := by
  unfold Sys.advance
  rw [if_neg h]

theorem unseen_unpark (hx : x.Placed) (hph : x.phase p.pid ≠ .parked) :
    Unseen x.bpf (Sys.unpark p x.bpf) :=
  ⟨fun _ => rfl, fun _ => rfl, rfl, unpark_eq_self hx hph⟩

/-- Taken out of a queue, or off a CPU, for another reason than sleep. -/
theorem Sys.Placed.detach (hx : x.Placed) (hkeep : x.keepsGroup p = true)
    (hcb : cb = .dequeue p ∨
        x.phase p.pid ≠ .parked ∧ ∃ fl, sleeps fl = false ∧ cb = .quiescent p fl)
    (hph : x.phase p.pid ∈ [Phase.parked, .dispatched, .global, .onCpu, .detached]) :
    x.Interpreted cfg cb (x.moveTo (Sys.unpark p x.bpf) p.pid .detached) := by
  obtain ⟨t, c, ht, hj, heid, hvalid, hc⟩ :=
    hx.participant hkeep fun h => by simp [h] at hph
  have hview := view_of_ctx ht
  exact ⟨_, t.view.eid, .detach (x.phase p.pid), some t.view, .detached,
    .detach hcb hview (by rw [t.joined_view, hj]) hph,
    hx.moved_keep hview rfl (hx.unparked_unpark ht heid) (fun _ _ => rfl) hview
      ⟨rfl, fun _ _ => rfl, rfl, fun _ h => h⟩ (by simp)⟩

theorem interprets_dequeue (hx : x.Placed) (hallow : x.allows (.dequeue p) = true) :
    x.Interpreted cfg (.dequeue p) (x.deliver cfg (.dequeue p)) := by
  obtain ⟨hkeep, hphase⟩ := allows_task hallow rfl
  unfold Sys.deliver serialiseDequeue
  dsimp only
  by_cases hph : x.phase p.pid = .outside
  · rw [advance_outside _ hph]
    exact hx.still (unseen_unpark hx (by simp [hph]))
  · rw [advance_inside _ hph]
    refine hx.detach hkeep (.inl rfl) ?_
    simp only [Callback.phases, mem_cons, hph, false_or] at hphase
    simp only [mem_cons]
    tauto

theorem interprets_runnable (hx : x.Placed) (hallow : x.allows (.runnable p) = true) :
    x.Interpreted cfg (.runnable p) (x.deliver cfg (.runnable p)) := by
  obtain ⟨hkeep, hphase⟩ := allows_task hallow rfl
  unfold Sys.deliver
  dsimp only
  by_cases hph : x.phase p.pid = .asleep
  · obtain ⟨t, c, ht, hj, heid, hvalid, hc⟩ := hx.participant hkeep (by simp [hph])
    have hasleep := (hx.asleep_iff ht).mpr hph
    rw [if_pos hph, serialiseRunnable_of_asleep hvalid ht hc hasleep]
    refine ⟨_, t.view.eid, .wake, _, .waking,
      .wake (view_of_ctx ht) (by rw [t.joined_view, hj]) hph, ?_⟩
    have hve : t.view.eid = p.group := heid
    rw [hve]
    refine hx.moved_keep (view_of_ctx ht) hve.symm
      (hx.unparked_of_eq (by simp [hph]) (dsq_account ..)) (fun r hr => ?_) ?_
      (accounted_account rfl hc c.gate_afterWake rfl) (by simp)
    · rw [view_account, view_modifyCtx_of_ne _ _ hr]
    · rw [view_account, view_modifyCtx _ _ ht, ← hve]; rfl
  · rw [if_neg hph]
    refine hx.still (unseen_serialiseRunnable fun t ht => ?_)
    exact hx.awake ht hph

theorem interprets_running (hx : x.Placed) (hallow : x.allows (.running p) = true) :
    x.Interpreted cfg (.running p) (x.deliver cfg (.running p)) := by
  obtain ⟨hkeep, hphase⟩ := allows_task hallow rfl
  unfold Sys.deliver serialiseRunning
  dsimp only
  by_cases hph : x.phase p.pid = .outside
  · rw [advance_outside _ hph]
    refine hx.still (unseen_modifyCtx _ _ _ fun t ht => ?_)
    have hout := hx.outsider hph t ht
    unfold TaskCtx.markRunning
    rw [if_neg]
    rintro (h | h) <;> simp [TaskCtx.joined, h] at hout
  · rw [advance_inside _ hph]
    obtain ⟨t, c, ht, hj, heid, hvalid, hc⟩ := hx.participant hkeep hph
    have hmem : x.phase p.pid ∈ [Phase.dispatched, .global] := by
      simpa [Callback.phases, hph] using hphase
    have hnp : x.phase p.pid ≠ .parked := fun h => by simp [h] at hmem
    have hna : x.phase p.pid ≠ .asleep := fun h => by simp [h] at hmem
    have hawake := hx.awake ht hna
    refine ⟨_, t.view.eid, .run (x.phase p.pid), _, .onCpu,
      .run (view_of_ctx ht) (by rw [t.joined_view, hj]) hmem,
      hx.moved_keep (view_of_ctx ht) rfl (hx.unparked_of_eq hnp rfl)
        (fun r hr => view_modifyCtx_of_ne _ _ hr) ?_ ⟨rfl, fun _ _ => rfl, rfl, fun _ h => h⟩
        (by simp)⟩
    rw [view_modifyCtx _ _ ht, some.injEq, ← hawake]
    unfold TaskCtx.markRunning TaskCtx.view
    unfold TaskCtx.joined at hj
    cases hst : t.state <;> simp_all [ThreadState.standing]

theorem interprets_quiescent {fl : Nat} (hx : x.Placed)
    (hallow : x.allows (.quiescent p fl) = true) :
    x.Interpreted cfg (.quiescent p fl) (x.deliver cfg (.quiescent p fl)) := by
  obtain ⟨hkeep, hphase⟩ := allows_task hallow rfl
  have hquiet : serialiseQuiescent p fl (Sys.unpark p x.bpf) =
      if sleeps fl = true then handleExecutorSleep p (Sys.unpark p x.bpf)
      else Sys.unpark p x.bpf := by
    unfold serialiseQuiescent sleeps
    simp
  unfold Sys.deliver
  dsimp only
  rw [hquiet]
  by_cases hph : x.phase p.pid = .outside
  · rw [advance_outside _ hph]
    have hun := unseen_unpark (p := p) hx (by simp [hph])
    refine hx.still (hun.trans ?_)
    split
    · exact unseen_handleExecutorSleep (hx.outsider hph)
    · exact .refl _
  · rw [advance_inside _ hph]
    cases hfl : sleeps fl with
    | false =>
      rw [Callback.phases, hfl] at hphase
      simp only [Bool.false_eq_true, if_false, mem_cons, hph, false_or] at hphase
      have hnp : x.phase p.pid ≠ .parked := by
        intro h; rw [h] at hphase; simp at hphase
      refine hx.detach hkeep (.inr ⟨hnp, fl, hfl, rfl⟩) ?_
      simp only [mem_cons]
      tauto
    | true =>
      rw [if_pos rfl, if_pos rfl]
      have hmem : x.phase p.pid ∈ [Phase.onCpu, .parked, .dispatched, .global] := by
        simpa [Callback.phases, hph, hfl] using hphase
      obtain ⟨t, c, ht, hj, heid, hvalid, hc⟩ := hx.participant hkeep hph
      have hna : x.phase p.pid ≠ .asleep := fun h => by simp [h] at hmem
      have hawake := hx.awake ht hna
      have ht' : (Sys.unpark p x.bpf).ctx p.pid = some t := ht
      have hc' : (Sys.unpark p x.bpf).cycle p.group = some c := hc
      rw [handleExecutorSleep_of_joined hvalid ht' hc' hj hawake]
      refine ⟨_, t.eid, .sleep (x.phase p.pid) t.state, _, .asleep, .sleep hfl ht hj hmem, ?_⟩
      rw [heid]
      refine hx.moved_keep (view_of_ctx ht) heid.symm
        ((hx.unparked_unpark ht heid).congr (dsq_account ..)) (fun r hr => ?_) ?_
        (accounted_account rfl hc (c.gate_afterSleep t.state) rfl) (by simp)
      · rw [view_account, view_modifyCtx_of_ne _ _ hr]; rfl
      · rw [view_account, view_modifyCtx _ _ ht', ← heid]
        unfold TaskCtx.markAsleep
        rw [t.outsider_eq, hj, hawake]
        rfl

theorem view_forgetTask (s : State) (pid q : Nat) :
    (forgetTask pid s).view q = if q = pid then none else s.view q := by
  show ((s.taskCtxMap.erase pid).lookup q).map TaskCtx.view = _
  rw [Table.lookup_erase]
  split <;> rfl

theorem interprets_exitTask (hx : x.Placed) (hallow : x.allows (.exitTask p) = true) :
    x.Interpreted cfg (.exitTask p) (x.deliver cfg (.exitTask p)) := by
  obtain ⟨hkeep, hphase⟩ := allows_task hallow rfl
  unfold Sys.deliver serialiseExitTask
  dsimp only
  by_cases hph : x.phase p.pid = .outside
  · have hnp : x.phase p.pid ≠ .parked := by rw [hph]; simp
    cases ht : x.bpf.ctx p.pid with
    | none =>
      rw [handleExecutorExit_of_none ht, x.moveTo_same _ hph]
      exact hx.still (.refl _)
    | some t =>
      obtain ⟨hvalid, hsome⟩ := hx.known p.pid t.view (view_of_ctx ht)
      obtain ⟨c, hc⟩ := isSome_iff_exists.mp hsome
      have hve : t.view.eid = p.group := eid_of_keepsGroup hkeep ht
      rw [hve] at hvalid hc
      rw [handleExecutorExit_of_outsider (ne_invalidEid hvalid) ht hc (hx.outsider hph t ht)]
      refine ⟨_, 0, .idle, none, .outside, .outside hph (.inr (.inl rfl)),
        Sys.Placed.moved_of (hx.unparked_of_eq hnp rfl) (fun r hr => ?_) ?_
          ⟨rfl, fun _ _ => rfl, rfl, fun _ h => h⟩ (fun _ hw => nomatch hw) (by simp)⟩
      · rw [view_forgetTask, if_neg hr]
      · rw [view_forgetTask, if_pos rfl]
  · have hmem : x.phase p.pid ∈ [Phase.asleep, .detached] := by
      simpa [Callback.phases, hph] using hphase
    have hnp : x.phase p.pid ≠ .parked := fun h => by simp [h] at hmem
    obtain ⟨t, c, ht, hj, heid, hvalid, hc⟩ := hx.participant hkeep hph
    have hc' : (forgetTask p.pid x.bpf).cycle p.group = some c := hc
    rw [handleExecutorExit_of_joined hvalid ht hc hj]
    refine ⟨_, t.eid, .exit (x.phase p.pid) t.state t.isAsleep, none, _, .exit ht hj hmem, ?_⟩
    rw [heid]
    have hview : ∀ r, (account p.group (.exit t.state t.isAsleep)
        (c.exit t.state t.isAsleep).dispatchableOnExit (c.state = .timeout)
        (forgetTask p.pid x.bpf)).view r = if r = p.pid then none else x.bpf.view r := fun r => by
      rw [view_account, view_forgetTask]
    have hcycle := cycle_account p.group (.exit t.state t.isAsleep)
      (c.exit t.state t.isAsleep).dispatchableOnExit (c.state = .timeout)
      (forgetTask p.pid x.bpf) hc'
    refine Sys.Placed.moved_of (hx.unparked_of_eq hnp ?_) (fun r hr => ?_) ?_
      ⟨?_, fun e he => ?_, ?_, fun e he => ?_⟩ (fun _ hw => nomatch hw) (by simp)
    · split <;> exact dsq_account ..
    · rw [← if_neg (c := r = p.pid) hr (t := none) (e := x.bpf.view r), ← hview]
      split <;> rfl
    · rw [← if_pos (c := p.pid = p.pid) rfl (t := none) (e := x.bpf.view p.pid), ← hview]
      split <;> rfl
    · rw [gate_of_cycle hc]
      refine .trans ?_ (c.gate_afterExit cfg t.state t.isAsleep)
      unfold SchedCycle.afterExit
      dsimp only
      split
      · unfold resetCycleState
        rw [State.gate, cycle_modifyCycle, hcycle]
        rfl
      · rw [gate_of_cycle hcycle]
    · split
      · unfold resetCycleState
        rw [State.gate, cycle_modifyCycle_of_ne _ _ _ _ he, ← State.gate,
          gate_account_of_ne he]
        rfl
      · exact gate_account_of_ne he
    · rw [gate_of_cycle hc]
      refine .trans ?_ (queue_account p.group (.exit t.state t.isAsleep)
        (c.exit t.state t.isAsleep).dispatchableOnExit (c.state = .timeout)
        (forgetTask p.pid x.bpf) hc')
      split <;> rfl
    · have hsome : ((account p.group (.exit t.state t.isAsleep)
          (c.exit t.state t.isAsleep).dispatchableOnExit (c.state = .timeout)
          (forgetTask p.pid x.bpf)).cycle e).isSome := by
        rw [isSome_account]; exact he
      split
      · unfold resetCycleState
        by_cases hee : e = p.group
        · rw [hee, cycle_modifyCycle, hcycle]; rfl
        · rw [cycle_modifyCycle_of_ne _ _ _ _ hee]; exact hsome
      · exact hsome

/-- A dispatch takes the head of its group's queue out of it. -/
theorem Sys.Placed.unparked_head (hx : x.Placed) {v : Nat} {dsq : List (Nat × Nat)}
    (hd : x.bpf.groupDsq e = (v, pid) :: dsq)
    (hu : u.groupDsq = Function.update x.bpf.groupDsq e dsq) : Unparked pid x.bpf u := by
  have hin : x.bpf.parkedIn e = pid :: dsq.map Prod.snd := by
    rw [State.parkedIn, hd]; rfl
  have hself : u.parkedIn e = dsq.map Prod.snd := by
    rw [State.parkedIn, hu, update_self]
  have hrest : ∀ e', e' ≠ e → u.parkedIn e' = x.bpf.parkedIn e' := fun e' he => by
    rw [State.parkedIn, hu, update_of_ne he, ← State.parkedIn]
  have hnodup := hx.nodup e
  rw [hin] at hnodup
  obtain ⟨hnot, hnodup⟩ := nodup_cons.mp hnodup
  refine ⟨fun e' q hq => ?_, fun e' => ?_, fun e' => ?_⟩
  all_goals by_cases he : e' = e
  · subst he
    rw [hself, hin]
    simp [hq]
  · rw [hrest e' he]
  · subst he
    rw [hself]
    exact hnot
  · rw [hrest e' he]
    intro hmem
    obtain ⟨_, w, hw, hwe⟩ := (hx.queued e' pid).mp hmem
    obtain ⟨_, w', hw', hwe'⟩ := (hx.queued e pid).mp (by rw [hin]; exact mem_cons_self)
    rw [hw, some.injEq] at hw'
    exact he (by rw [← hwe, hw', hwe'])
  · subst he
    rw [hself]
    exact hnodup
  · rw [hrest e' he]
    exact hx.nodup e'

theorem interprets_dispatch (hx : x.Placed) :
    x.Interpreted cfg .dispatch (x.deliver cfg .dispatch) := by
  unfold Sys.deliver
  cases hq : x.bpf.cycleDispatchQueue with
  | nil =>
    obtain ⟨hs, hnone⟩ := serialiseDispatch_of_nil hq
    rw [hs, hnone]
    exact hx.still (.refl _)
  | cons e rest =>
    cases hc : x.bpf.cycle e with
    | none =>
      obtain ⟨hs, hnone⟩ := serialiseDispatch_of_none hq hc
      rw [hs, hnone]
      exact ⟨0, e, .drop, _, _, .drop hq hc, hx.moved_nobody (fun _ => rfl) rfl
        ⟨rfl, fun _ _ => rfl, by rw [hq]; rfl, fun _ h => h⟩⟩
    | some c =>
      cases hd : x.bpf.groupDsq e with
      | nil =>
        obtain ⟨hs, hnone⟩ := serialiseDispatch_of_empty hq hc hd
        rw [hs, hnone]
        refine ⟨0, e, .empty, _, _, .empty hq hd, hx.moved_nobody (fun r => ?_)
          (dsq_account ..) (accounted_account rfl hc c.gate_afterEmpty (by rw [hq]; rfl))⟩
        rw [view_account]; rfl
      | cons a dsq =>
        obtain ⟨v, pid⟩ := a
        obtain ⟨hs, hsome⟩ := serialiseDispatch_of_cons hq hc hd
        have hin : pid ∈ x.bpf.parkedIn e := by
          rw [State.parkedIn, hd]; exact mem_cons_self
        obtain ⟨hph, w, hw, hwe⟩ := (hx.queued e pid).mp hin
        rw [hs, hsome]
        refine ⟨pid, e, .move, some w, .dispatched, .move hq hw hwe hph,
          hx.moved_keep hw rfl (hx.unparked_head hd (dsq_account ..)) (fun r _ => ?_) ?_
            (accounted_account rfl hc c.gate_afterMove (by rw [hq]; rfl)) (by simp)⟩
        · rw [view_account]; rfl
        · rw [view_account]; exact hw

end Placement

/-- **The step inversion.**  A step is a timer scan, or moves one task and
accounts the move in one cycle. -/
theorem step_interprets {cfg : Config} {x y : Sys} {cb : Callback} (hx : x.Placed)
    (h : x.step cfg cb = some y) :
    (∃ now, cb = .timer now ∧ y = ⟨dispatchTimerFn now x.bpf, x.phase⟩) ∨
    x.Interpreted cfg cb y := by
  obtain ⟨hallow, rfl⟩ := step_eq_some.mp h
  cases cb with
  | initTask p =>
    obtain ⟨_, hphase⟩ := allows_task hallow rfl
    have hph : x.phase p.pid = .outside := by simpa [Callback.phases] using hphase
    have hreg := (ensures_serialiseInitTask cfg p x.bpf).registers
    exact .inr (hx.registers hreg rfl hph)
  | yield p => exact .inr (interprets_yield hx hallow)
  | enqueue p now rng => exact .inr (interprets_enqueue hx hallow)
  | dequeue p => exact .inr (interprets_dequeue hx hallow)
  | dispatch => exact .inr (interprets_dispatch hx)
  | runnable p => exact .inr (interprets_runnable hx hallow)
  | running p => exact .inr (interprets_running hx hallow)
  | quiescent p fl => exact .inr (interprets_quiescent hx hallow)
  | exitTask p => exact .inr (interprets_exitTask hx hallow)
  | timer now => exact .inl ⟨now, rfl, rfl⟩

end Sect.Serialise
