import SectProof.PctSlots

/-! # The change points of PCT

`choose_change_points` draws event numbers in `[1, max_events]`, and
`update_priorities_pct` compares them with `num_events_seen % max_events`, which
is in `[0, max_events - 1]`.  Along one cycle a change point `v < max_events`
fires at event `v` and nowhere else; the change point `max_events` is never
met, since its event is counted as event `0` of the next lap. -/

open Nat Table

namespace Sect.Serialise

open State

/-! ## The points that are drawn -/

/-- The `i`-th change point that the random stream gives. -/
def changePoint (maxEvents : Nat) (rng : Rng) (i : Nat) : Nat :=
  rng i % 2 ^ 32 % maxEvents + 1

/-- The map of change points holds keys of change points only. -/
def ChangePointKeys (m : Table Nat Nat) : Prop := ∀ k, (m.lookup k).isSome → k ∈ slotKeys

/-- The depth, the group and the number of events of a cycle. -/
structure CycleInRange (cfg : Config) (eid maxEvents : Nat) : Prop where
  depth : cfg.DepthInRange
  group : eid < maxExecutorGroups
  events : 1 ≤ maxEvents
  u32 : maxEvents < 2 ^ 32

section Chosen
variable {cfg : Config} {eid maxEvents : Nat} {rng : Rng} {m : Table Nat Nat}

theorem changepointKey_mem {i : Nat} (heid : eid < maxExecutorGroups)
    (hi : i < maxCycleThreads) : getCombinedChangepointKey eid i ∈ slotKeys := by
  have hkey : getCombinedKey eid i = getCombinedChangepointKey eid i := by
    rw [getCombinedKey, getCombinedChangepointKey, mod_eq_of_lt hi]
  rw [← hkey]
  exact getCombinedKey_mem heid

theorem changePoint_pos (i : Nat) : 1 ≤ changePoint maxEvents rng i := Nat.le_add_left ..

theorem changePoint_le (hmax : 1 ≤ maxEvents) (i : Nat) :
    changePoint maxEvents rng i ≤ maxEvents :=
  mod_lt _ hmax

/-- One round stores one point: the map has room for it. -/
theorem chooseRound_eq (h : CycleInRange cfg eid maxEvents) (hkeys : ChangePointKeys m) {i : Nat}
    (hi : i < maxCycleThreads) :
    chooseRound eid maxEvents (m, fun k => rng (k + i)) i =
      (m.insert (getCombinedChangepointKey eid i) (changePoint maxEvents rng i),
        fun k => rng (k + (i + 1))) := by
  have hle : changePoint maxEvents rng i ≤ maxEvents := changePoint_le h.events i
  have hpoint : (rng (0 + i) % 2 ^ 32 % maxEvents + 1) % 2 ^ 32 = changePoint maxEvents rng i := by
    rw [zero_add]
    have hu32 := h.u32
    exact mod_eq_of_lt (by unfold changePoint at hle; omega)
  have hroom := updateElem_of_keys hkeys (changepointKey_mem h.group hi) card_slotKeys_le
    (changePoint maxEvents rng i)
  unfold chooseRound
  simp only [if_neg (Nat.ne_of_gt h.events), bpfGetPrandomU32, hpoint, hroom]
  congr 1
  funext k
  congr 1
  omega

/-- After `n` rounds the first `n` points are stored and nothing else is new. -/
theorem chooseRounds (h : CycleInRange cfg eid maxEvents) (rng : Rng) (hkeys : ChangePointKeys m)
    {n : Nat} (hn : n ≤ maxCycleThreads) :
    ∃ m', (List.range n).foldl (chooseRound eid maxEvents) (m, rng) =
        (m', fun k => rng (k + n)) ∧ ChangePointKeys m' ∧
      ∀ i, i < n → m'.lookup (getCombinedChangepointKey eid i) =
        some (changePoint maxEvents rng i) := by
  induction n with
  | zero => exact ⟨m, rfl, hkeys, fun i hi => absurd hi (not_lt_zero i)⟩
  | succ n ih =>
    obtain ⟨m', hfold, hkeys', hpoints⟩ := ih (by omega)
    refine ⟨m'.insert (getCombinedChangepointKey eid n) (changePoint maxEvents rng n),
      ?_, ?_, ?_⟩
    · rw [List.range_succ, List.foldl_append, hfold]
      exact chooseRound_eq h hkeys' (by omega)
    · intro k hk
      rw [lookup_insert] at hk
      split at hk
      · next heq => exact heq ▸ changepointKey_mem h.group (by omega)
      · exact hkeys' k hk
    · intro i hi
      by_cases hin : i = n
      · rw [hin, lookup_insert_self]
      have hne : getCombinedChangepointKey eid i ≠ getCombinedChangepointKey eid n := by
        rw [getCombinedChangepointKey_eq h.group (by omega),
          getCombinedChangepointKey_eq h.group (by omega)]
        omega
      rw [lookup_insert_of_ne hne]
      exact hpoints i (by omega)

/-- **What is chosen**: `depth - 1` points of the random stream. -/
theorem chooseChangePoints_lookup (h : CycleInRange cfg eid maxEvents) (hkeys : ChangePointKeys m)
    {i : Nat} (hi : i < cfg.depth - 1) :
    (chooseChangePoints cfg eid maxEvents rng m).1.lookup (getCombinedChangepointKey eid i) =
      some (changePoint maxEvents rng i) := by
  obtain ⟨hone, hdepth⟩ := h.depth
  obtain ⟨m', hfold, -, hpoints⟩ := chooseRounds h rng hkeys
    (show cfg.depth - 1 ≤ maxCycleThreads by omega)
  rw [chooseChangePoints, if_neg (by omega), hfold]
  exact hpoints i hi

end Chosen

/-! ## One event -/

/-- Task `pid` of the state has the priority of change point `i` in the stratum
of its cycle. -/
def AtChangePoint (eid pid i : Nat) (s : State) : Prop :=
  ∃ c t, s.cycle eid = some c ∧ s.ctx pid = some t ∧
    t.priority = toU32 (getStrataBase c.pctStrata + i + 1)

/-- The points of the stream are the ones that the map holds. -/
def HoldsPoints (cfg : Config) (eid maxEvents : Nat) (rng : Rng) (m : Table Nat Nat) : Prop :=
  ∀ i, i < cfg.depth - 1 →
    m.lookup (getCombinedChangepointKey eid i) = some (changePoint maxEvents rng i)

/-- `i` is the smallest index that holds the point `v`. -/
def FirstPoint (cfg : Config) (maxEvents : Nat) (rng : Rng) (v i : Nat) : Prop :=
  i < cfg.depth - 1 ∧ changePoint maxEvents rng i = v ∧
    ∀ j, j < i → changePoint maxEvents rng j ≠ v

section Event
variable {cfg : Config} {eid maxEvents pid : Nat} {rng : Rng} {s : State} {c : SchedCycle}
  {t : TaskCtx}

/-- A priority survives the `s32` that `update_priority` takes it in. -/
theorem toU32_asS32 (i : Int) : toU32 (asS32 (toU32 i)) = toU32 i := by
  unfold asS32 toU32
  rw [Int.bmod_def]
  split <;> omega

/-- The loop over the points looks for the first one that equals the event
number modulo the number of events. -/
theorem hitChangePoint_eq_some (hpoints : HoldsPoints cfg eid maxEvents rng s.pctChangePoints)
    {seen i : Nat} :
    hitChangePoint cfg eid seen maxEvents s = some i ↔
      FirstPoint cfg maxEvents rng (seen % maxEvents) i := by
  rw [hitChangePoint, List.find?_range_eq_some]
  constructor
  · rintro ⟨hit, hi, hfirst⟩
    have hi := List.mem_range.mp hi
    refine ⟨hi, by simpa [hpoints i hi] using hit, ?_⟩
    intro j hj
    simpa [hpoints j (lt_trans hj hi)] using hfirst j hj
  · rintro ⟨hi, hit, hfirst⟩
    refine ⟨by simp [hpoints i hi, hit], List.mem_range.mpr hi, ?_⟩
    intro j hj
    simp [hpoints j (lt_trans hj hi), hfirst j hj]

theorem hitChangePoint_eq_none (hpoints : HoldsPoints cfg eid maxEvents rng s.pctChangePoints)
    {seen : Nat} :
    hitChangePoint cfg eid seen maxEvents s = none ↔
      ∀ i, i < cfg.depth - 1 → changePoint maxEvents rng i ≠ seen % maxEvents := by
  rw [hitChangePoint, List.find?_eq_none]
  constructor
  · intro h i hi
    have hmiss := h i (List.mem_range.mpr hi)
    simpa [hpoints i hi] using hmiss
  · intro h i hi
    simp [hpoints i (List.mem_range.mp hi), h i (List.mem_range.mp hi)]

/-- The call does no more than the two parts in turn. -/
theorem updatePrioritiesPct_eq (hd : cfg.DepthInRange) (hc : s.cycle eid = some c)
    (hmax : 1 ≤ c.expectedEventsPerCycle) (ht : s.ctx pid = some t) :
    updatePrioritiesPct cfg eid pid s =
      demotePct cfg eid pid c (initialPriorityPct eid pid t s) := by
  simp only [updatePrioritiesPct, hc, ht]
  rw [if_neg (by rw [Config.DepthInRange] at hd; omega), if_neg (by omega)]

theorem cycle_initialPriorityPct (eid pid : Nat) (t : TaskCtx) (s : State) :
    (initialPriorityPct eid pid t s).cycle eid = s.cycle eid := by
  simp only [initialPriorityPct]
  split <;> rfl

theorem ctx_initialPriorityPct (eid : Nat) (ht : s.ctx pid = some t) :
    ((initialPriorityPct eid pid t s).ctx pid).isSome := by
  simp only [initialPriorityPct]
  split
  · rw [ctx_modifyCtx, ht]
    rfl
  · rw [ht]
    rfl

/-- **An event that hits a point demotes its task** to the priority of the first
index that holds the point. -/
theorem updatePrioritiesPct_hit (hd : cfg.DepthInRange) (hc : s.cycle eid = some c)
    (hmax : 1 ≤ c.expectedEventsPerCycle) (ht : s.ctx pid = some t)
    (hpoints : HoldsPoints cfg eid c.expectedEventsPerCycle rng s.pctChangePoints) {i : Nat}
    (hfirst : FirstPoint cfg c.expectedEventsPerCycle rng
      (c.numEventsSeen % c.expectedEventsPerCycle) i) :
    AtChangePoint eid pid i (updatePrioritiesPct cfg eid pid s) := by
  rw [← (pctCall_initialPriorityPct eid pid s t).points] at hpoints
  obtain ⟨t', ht'⟩ := Option.isSome_iff_exists.mp (ctx_initialPriorityPct eid ht)
  have hcycle := cycle_modifyCycle (initialPriorityPct eid pid t s) eid
    (fun c' => { c' with
      pctStrata := nextStrata c.numEventsSeen c.expectedEventsPerCycle c.pctStrata })
  have hctx := ctx_modifyCtx ((initialPriorityPct eid pid t s).modifyCycle eid
    (fun c' => { c' with
      pctStrata := nextStrata c.numEventsSeen c.expectedEventsPerCycle c.pctStrata })) pid
    (fun t => { t with priority := toU32 (asS32 (toU32 (getStrataBase
      (nextStrata c.numEventsSeen c.expectedEventsPerCycle c.pctStrata) + i + 1))) })
  rw [cycle_initialPriorityPct, hc] at hcycle
  rw [ctx_modifyCycle, ht'] at hctx
  rw [updatePrioritiesPct_eq hd hc hmax ht, demotePct,
    (hitChangePoint_eq_some hpoints).mpr hfirst]
  refine ⟨_, _, hcycle, hctx, ?_⟩
  simp only [toU32_asS32]

/-- **An event that hits no point demotes nobody**: the call only gives a task
the priority of its slot at its first event. -/
theorem updatePrioritiesPct_miss (hd : cfg.DepthInRange) (hc : s.cycle eid = some c)
    (hmax : 1 ≤ c.expectedEventsPerCycle) (ht : s.ctx pid = some t)
    (hpoints : HoldsPoints cfg eid c.expectedEventsPerCycle rng s.pctChangePoints)
    (hmiss : ∀ i, i < cfg.depth - 1 → changePoint c.expectedEventsPerCycle rng i ≠
      c.numEventsSeen % c.expectedEventsPerCycle) :
    updatePrioritiesPct cfg eid pid s = initialPriorityPct eid pid t s := by
  rw [← (pctCall_initialPriorityPct eid pid s t).points] at hpoints
  rw [updatePrioritiesPct_eq hd hc hmax ht, demotePct,
    (hitChangePoint_eq_none hpoints).mpr hmiss]

end Event

/-! ## One cycle -/

/-- What happens between two events of a cycle: the event is counted and the
change points and the expected number of events stay. -/
structure NextEvent (eid : Nat) (s u : State) : Prop where
  points : u.pctChangePoints = s.pctChangePoints
  counted : ∀ c, s.cycle eid = some c → ∃ c', u.cycle eid = some c' ∧
    c'.numEventsSeen = (c.numEventsSeen + 1) % 2 ^ 32 ∧
    c'.expectedEventsPerCycle = c.expectedEventsPerCycle

/-- A cycle of `maxEvents` events with the change points that the stream gives.
`state e` is the state in which `update_priorities_pct` is called for the task
`pid e` of event `e`. -/
structure PctCycle (cfg : Config) (eid maxEvents : Nat) (rng : Rng) where
  before : Table Nat Nat
  before_keys : ChangePointKeys before
  state : Nat → State
  pid : Nat → Nat
  chosen : (state 1).pctChangePoints = (chooseChangePoints cfg eid maxEvents rng before).1
  first : ∃ c, (state 1).cycle eid = some c ∧ c.numEventsSeen = 1 ∧
    c.expectedEventsPerCycle = maxEvents
  task : ∀ e, 1 ≤ e → e ≤ maxEvents → ((state e).ctx (pid e)).isSome
  next : ∀ e, 1 ≤ e → e < maxEvents →
    NextEvent eid (updatePrioritiesPct cfg eid (pid e) (state e)) (state (e + 1))

namespace PctCycle
variable {cfg : Config} {eid maxEvents : Nat} {rng : Rng}

/-- Every change point fires at its event, and no other event demotes. -/
structure Fires (r : PctCycle cfg eid maxEvents rng) : Prop where
  demotes : ∀ e i, 1 ≤ e → e ≤ maxEvents → FirstPoint cfg maxEvents rng e i →
    AtChangePoint eid (r.pid e) i (updatePrioritiesPct cfg eid (r.pid e) (r.state e))
  spares : ∀ e t, 1 ≤ e → e ≤ maxEvents → (r.state e).ctx (r.pid e) = some t →
    (∀ i, i < cfg.depth - 1 → changePoint maxEvents rng i ≠ e) →
    updatePrioritiesPct cfg eid (r.pid e) (r.state e) =
      initialPriorityPct eid (r.pid e) t (r.state e)

/-- The state of event `e` has counted `e` events and holds the points of the
stream. -/
structure Counts (cfg : Config) (eid maxEvents : Nat) (rng : Rng) (e : Nat) (s : State) : Prop where
  points : HoldsPoints cfg eid maxEvents rng s.pctChangePoints
  counted : ∃ c, s.cycle eid = some c ∧ c.numEventsSeen = e ∧
    c.expectedEventsPerCycle = maxEvents

/-- The call of an event leaves the count, the expected number and the points. -/
theorem Counts.update {e : Nat} {s : State} (h : Counts cfg eid maxEvents rng e s) (pid : Nat) :
    Counts cfg eid maxEvents rng e (updatePrioritiesPct cfg eid pid s) where
  points := by
    rw [(pctCall_updatePrioritiesPct ..).points]
    exact h.points
  counted := by
    obtain ⟨c, hc, hseen, hmax⟩ := h.counted
    have hstep := (pctCall_updatePrioritiesPct cfg eid pid s).cycles eid
    rw [hc] at hstep
    obtain ⟨c', hc', hsans⟩ := Option.map_eq_some_iff.mp hstep
    refine ⟨c', hc', ?_, ?_⟩
    · exact (congrArg SchedCycle.numEventsSeen hsans).trans hseen
    · exact (congrArg SchedCycle.expectedEventsPerCycle hsans).trans hmax

/-- The next event counts one more. -/
theorem Counts.next {e : Nat} {s u : State} (h : Counts cfg eid maxEvents rng e s)
    (hnext : NextEvent eid s u) (hlt : e + 1 < 2 ^ 32) :
    Counts cfg eid maxEvents rng (e + 1) u := by
  obtain ⟨c, hc, hseen, hmax⟩ := h.counted
  obtain ⟨c', hc', hseen', hmax'⟩ := hnext.counted c hc
  refine ⟨hnext.points ▸ h.points, c', hc', ?_, hmax'.trans hmax⟩
  rw [hseen', hseen, mod_eq_of_lt hlt]

/-- Along the whole cycle, event `e` is counted as `e`. -/
theorem counts (r : PctCycle cfg eid maxEvents rng) (h : CycleInRange cfg eid maxEvents) {e : Nat}
    (h1 : 1 ≤ e) (he : e ≤ maxEvents) : Counts cfg eid maxEvents rng e (r.state e) := by
  induction e, h1 using le_induction with
  | base =>
    refine ⟨fun i hi => ?_, r.first⟩
    rw [r.chosen]
    exact chooseChangePoints_lookup h r.before_keys hi
  | succ e h1 ih =>
    have hcounts := (ih (by omega)).update (r.pid e)
    exact hcounts.next (r.next e h1 (by omega)) (lt_of_le_of_lt he h.u32)

/-- The last event of the cycle hits nothing, since no point is zero. -/
theorem spares_last (r : PctCycle cfg eid maxEvents rng) (h : CycleInRange cfg eid maxEvents)
    {t : TaskCtx} (ht : (r.state maxEvents).ctx (r.pid maxEvents) = some t) :
    updatePrioritiesPct cfg eid (r.pid maxEvents) (r.state maxEvents) =
      initialPriorityPct eid (r.pid maxEvents) t (r.state maxEvents) := by
  obtain ⟨hpoints, c, hc, hseen, rfl⟩ := r.counts h h.events (le_refl _)
  refine updatePrioritiesPct_miss h.depth hc h.events ht hpoints ?_
  intro i _
  rw [hseen, mod_self]
  exact ne_of_gt (changePoint_pos i)

/-- A cycle whose points are all below the last event fires at each of them. -/
theorem fires_of_below (r : PctCycle cfg eid maxEvents rng) (h : CycleInRange cfg eid maxEvents)
    (hbelow : ∀ i, i < cfg.depth - 1 → changePoint maxEvents rng i ≠ maxEvents) : r.Fires where
  demotes e i h1 he hfirst := by
    obtain ⟨hpoints, c, hc, hseen, rfl⟩ := r.counts h h1 he
    obtain ⟨t, ht⟩ := Option.isSome_iff_exists.mp (r.task e h1 he)
    have hlt : e < c.expectedEventsPerCycle :=
      lt_of_le_of_ne he (fun heq => hbelow i hfirst.1 (hfirst.2.1.trans heq))
    refine updatePrioritiesPct_hit h.depth hc h.events ht hpoints ?_
    rw [hseen, mod_eq_of_lt hlt]
    exact hfirst
  spares e t h1 he ht hnone := by
    obtain ⟨hpoints, c, hc, hseen, rfl⟩ := r.counts h h1 he
    by_cases hlast : e = c.expectedEventsPerCycle
    · subst hlast
      exact r.spares_last h ht
    · refine updatePrioritiesPct_miss h.depth hc h.events ht hpoints ?_
      rw [hseen, mod_eq_of_lt (by omega)]
      exact hnone

end PctCycle

/-! ## A cycle that misses its last point -/

namespace Missed
variable (cfg : Config) (eid maxEvents : Nat) (rng : Rng)

/-- A cycle at its event `e`, in its first stratum. -/
def cycleAt (maxEvents e : Nat) : SchedCycle where
  numExpectedThreads := 2
  numQueued := 0
  numAsleep := 0
  numAlive := 2
  nextDetId := 2
  expectedEventsPerCycle := maxEvents
  numEventsSeen := e
  pctStrata := 0
  algoInitialized := true
  pendingDispatch := false
  state := .running

/-- A task that has its initial priority. -/
def task (eid : Nat) : TaskCtx where
  priority := 0
  eid := eid
  detId := 0
  isAsleep := false
  pctInitialized := true
  nextEventAddrs := 0
  isWrite := false
  state := .enqueued
  lastEnqueueTime := 0

/-- Task 2 is enqueued at the last event, task 1 at all others. -/
def pidAt (maxEvents e : Nat) : Nat := if e = maxEvents then 2 else 1

/-- Two tasks in a new cycle, just before the priorities of event 1 are updated. -/
def start : State :=
  { State.init with
    schedCycleMap := Table.empty.insert eid (cycleAt maxEvents 1)
    taskCtxMap := (Table.empty.insert 1 (task eid)).insert 2 (task eid)
    pctChangePoints := (chooseChangePoints cfg eid maxEvents rng .empty).1 }

/-- The state of event `n + 1`: events are counted and nothing else happens. -/
def stateAt : Nat → State
  | 0 => start cfg eid maxEvents rng
  | n + 1 =>
    (updatePrioritiesPct cfg eid (pidAt maxEvents (n + 1)) (stateAt n)).modifyCycle eid
      fun c => { c with numEventsSeen := (c.numEventsSeen + 1) % 2 ^ 32 }

end Missed

section Frame
variable {eid : Nat} {s : State}

/-- In the first lap the first stratum stays. -/
theorem strata_updatePrioritiesPct (cfg : Config) (pid : Nat) {c : SchedCycle}
    (hc : s.cycle eid = some c) (hstrata : c.pctStrata = 0)
    (hseen : c.numEventsSeen ≤ c.expectedEventsPerCycle)
    (hu32 : c.expectedEventsPerCycle < 2 ^ 32) :
    (updatePrioritiesPct cfg eid pid s).cycle eid = some c := by
  have hinitial : ∀ t, (initialPriorityPct eid pid t s).cycle eid = some c :=
    fun t => (cycle_initialPriorityPct eid pid t s).trans hc
  have hnext : nextStrata c.numEventsSeen c.expectedEventsPerCycle c.pctStrata = 0 := by
    have hlap : (c.expectedEventsPerCycle * ((0 + 1) % 2 ^ 32)) % 2 ^ 32 =
        c.expectedEventsPerCycle := by
      rw [show (0 + 1) % 2 ^ 32 = 1 from rfl, mul_one, mod_eq_of_lt hu32]
    rw [hstrata, nextStrata, hlap, if_neg (Nat.not_lt_of_le hseen)]
  unfold updatePrioritiesPct
  rw [hc]
  split
  · next c' t hc' ht =>
      cases hc'
      split
      · exact hc
      split
      · exact hc
      unfold demotePct
      split
      · exact hinitial t
      · show ((initialPriorityPct eid pid t s).modifyCycle eid _).cycle eid = _
        rw [cycle_modifyCycle, hinitial, hnext, ← hstrata]
        rfl
  · exact hc

end Frame

namespace Missed
variable (cfg : Config) (eid : Nat) (rng : Rng) {maxEvents : Nat}

/-- At event `n + 1` the cycle has counted it, and task 2 is as it was. -/
theorem stateAt_spec (hu32 : maxEvents < 2 ^ 32) {n : Nat} (hn : n + 1 ≤ maxEvents) :
    (stateAt cfg eid maxEvents rng n).cycle eid = some (cycleAt maxEvents (n + 1)) ∧
      (stateAt cfg eid maxEvents rng n).ctx 2 = some (task eid) ∧
      ((stateAt cfg eid maxEvents rng n).ctx 1).isSome := by
  induction n with
  | zero =>
    refine ⟨lookup_insert_self .., lookup_insert_self .., ?_⟩
    show (((Table.empty.insert 1 (task eid)).insert 2 (task eid)).lookup 1).isSome
    rfl
  | succ n ih =>
    obtain ⟨hcycle, htwo, hone⟩ := ih (by omega)
    have hpid : pidAt maxEvents (n + 1) = 1 := if_neg (by omega)
    have hkept := strata_updatePrioritiesPct cfg 1 hcycle rfl
      (show n + 1 ≤ maxEvents by omega) hu32
    have hcall := pctCall_updatePrioritiesPct cfg eid 1 (stateAt cfg eid maxEvents rng n)
    refine ⟨?_, ?_, ?_⟩
    · rw [stateAt, cycle_modifyCycle, hpid, hkept]
      show some (cycleAt maxEvents ((n + 1 + 1) % 2 ^ 32)) = _
      rw [mod_eq_of_lt (by omega)]
    · rw [stateAt, ctx_modifyCycle, hpid, hcall.others 2 (by decide)]
      exact htwo
    · have hsome := congrArg Option.isSome (hcall.ctxs 1)
      rw [Option.isSome_map, Option.isSome_map] at hsome
      rw [stateAt, ctx_modifyCycle, hpid, hsome]
      exact hone

/-- The cycle in which events are counted and nothing else happens. -/
def cycle (hu32 : maxEvents < 2 ^ 32) (hmax : 1 ≤ maxEvents) : PctCycle cfg eid maxEvents rng where
  before := .empty
  before_keys := fun k hk => by cases hk
  state := fun e => stateAt cfg eid maxEvents rng (e - 1)
  pid := pidAt maxEvents
  chosen := rfl
  first := ⟨_, (stateAt_spec cfg eid rng hu32 hmax).1, rfl, rfl⟩
  task := fun e h1 he => by
    obtain ⟨-, htwo, hone⟩ := stateAt_spec cfg eid rng hu32
      (show e - 1 + 1 ≤ maxEvents by omega)
    by_cases hlast : e = maxEvents
    · rw [pidAt, if_pos hlast, htwo]
      rfl
    · rw [pidAt, if_neg hlast]
      exact hone
  next := fun e h1 he => by
    obtain ⟨n, rfl⟩ : ∃ n, e = n + 1 := ⟨e - 1, by omega⟩
    refine ⟨rfl, ?_⟩
    intro c hc
    have hstate : stateAt cfg eid maxEvents rng (n + 1) =
        (updatePrioritiesPct cfg eid (pidAt maxEvents (n + 1))
          (stateAt cfg eid maxEvents rng n)).modifyCycle eid
            fun c => { c with numEventsSeen := (c.numEventsSeen + 1) % 2 ^ 32 } := rfl
    refine ⟨{ c with numEventsSeen := (c.numEventsSeen + 1) % 2 ^ 32 }, ?_, rfl, rfl⟩
    change (updatePrioritiesPct cfg eid (pidAt maxEvents (n + 1))
      (stateAt cfg eid maxEvents rng n)).cycle eid = some c at hc
    show (stateAt cfg eid maxEvents rng (n + 1)).cycle eid = _
    rw [hstate, cycle_modifyCycle, hc]
    rfl

/-- The priority of a change point of the first stratum is not zero. -/
theorem priority_pos {i : Nat} (hi : i < maxCycleThreads) :
    toU32 (getStrataBase 0 + i + 1) ≠ 0 := by
  have hbase : getStrataBase 0 = 2147483247 := by decide
  have hthreads : i < 200 := hi
  unfold toU32
  omega

end Missed

/-- **A point at the last event is missed.** -/
theorem exists_missed {cfg : Config} {eid maxEvents : Nat} {rng : Rng}
    (h : CycleInRange cfg eid maxEvents)
    (hlast : ∃ i, i < cfg.depth - 1 ∧ changePoint maxEvents rng i = maxEvents) :
    ∃ r : PctCycle cfg eid maxEvents rng, ¬ r.Fires := by
  have hmax := h.events
  refine ⟨Missed.cycle cfg eid rng h.u32 hmax, fun hfires => ?_⟩
  -- the smallest index that holds the last event
  have hfirst : FirstPoint cfg maxEvents rng maxEvents (Nat.find hlast) := by
    refine ⟨(Nat.find_spec hlast).1, (Nat.find_spec hlast).2, ?_⟩
    intro j hj heq
    have hlt := (Nat.find_spec hlast).1
    exact Nat.find_min hlast hj ⟨by omega, heq⟩
  obtain ⟨hcycle, htwo, -⟩ := Missed.stateAt_spec cfg eid rng h.u32
    (show maxEvents - 1 + 1 ≤ maxEvents by omega)
  have hpid : Missed.pidAt maxEvents maxEvents = 2 := if_pos rfl
  have hsame := (Missed.cycle cfg eid rng h.u32 hmax).spares_last h
    (show (Missed.stateAt cfg eid maxEvents rng (maxEvents - 1)).ctx
      (Missed.pidAt maxEvents maxEvents) = some (Missed.task eid) by rw [hpid]; exact htwo)
  obtain ⟨c, t, hc, ht, hprio⟩ := hfires.demotes maxEvents _ hmax (le_refl _) hfirst
  rw [hsame] at hc ht
  -- the task had its initial priority, so the call did nothing
  change (Missed.stateAt cfg eid maxEvents rng (maxEvents - 1)).cycle eid = some c at hc
  change (Missed.stateAt cfg eid maxEvents rng (maxEvents - 1)).ctx
    (Missed.pidAt maxEvents maxEvents) = some t at ht
  rw [hcycle] at hc
  rw [hpid, htwo] at ht
  cases hc
  cases ht
  have hindex := hfirst.1
  have hdepth := h.depth.2
  exact Missed.priority_pos (show Nat.find hlast < maxCycleThreads by omega) hprio.symm

/-- **The change points of a cycle fire, each at its event and nowhere else,
exactly if none of them is the last event.** -/
theorem changePoints_fire_iff (cfg : Config) (eid maxEvents : Nat) (rng : Rng)
    (hdepth : 1 ≤ cfg.depth ∧ cfg.depth ≤ maxCycleThreads + 1) (heid : eid < maxExecutorGroups)
    (hmax : 1 ≤ maxEvents) (hu32 : maxEvents < 2 ^ 32) :
    (∀ r : PctCycle cfg eid maxEvents rng, r.Fires) ↔
      ∀ i, i < cfg.depth - 1 → rng i % 2 ^ 32 % maxEvents ≠ maxEvents - 1 := by
  constructor
  · intro hall i hi hdraw
    have hpoint : changePoint maxEvents rng i = maxEvents := by
      rw [changePoint, hdraw]
      omega
    obtain ⟨r, hmissed⟩ := exists_missed ⟨hdepth, heid, hmax, hu32⟩ ⟨i, hi, hpoint⟩
    exact hmissed (hall r)
  · intro hdraws r
    refine r.fires_of_below ⟨hdepth, heid, hmax, hu32⟩ ?_
    intro i hi hpoint
    refine hdraws i hi ?_
    unfold changePoint at hpoint
    omega

/-- Three events, and the draw below the last one. -/
theorem changePoints_fire_three :
    (∀ i, i < 2 - 1 → i % 2 ^ 32 % 3 ≠ 3 - 1) ∧
      ∀ r : PctCycle ⟨2, 3, .pct⟩ 0 3 (fun i => i), r.Fires :=
  ⟨by decide, (changePoints_fire_iff ⟨2, 3, .pct⟩ 0 3 (fun i => i) (by decide) (by decide)
    (by decide) (by decide)).mpr (by decide)⟩

/-- Three events and a draw of 2: the only change point is event 3, and the task
of that event keeps its priority. -/
theorem changePoint_last_missed :
    ∃ r : PctCycle ⟨2, 2, .pct⟩ 0 3 (fun _ => 2), ¬ r.Fires :=
  exists_missed ⟨⟨by decide, by decide⟩, by decide, by decide, by decide⟩ ⟨0, by decide, rfl⟩

end Sect.Serialise
