import SectProof.ChangePoints
import SectProof.PriorityOrder

/-! # The strata of PCT

`shuffle_prios` hands out `MAX_CYCLE_THREADS` different initial priorities, and a
demotion at stratum `s` goes to one of the `depth - 1` priorities right above
`get_strata_base(s)`.  The ranges of two strata touch and do not overlap, the
initial priorities lie above all of them, and the stratum moves on once per lap
of the event counter: so no change point gives the same priority twice. -/

open Nat

namespace Sect.Serialise

/-! ## Priorities without wrap-around -/

/-- The base of a stratum as a natural number: what `get_strata_base` returns as
long as it is not negative. -/
def strataFloor (strata : Nat) : Nat := s32Max - (strata + 2) * maxCycleThreads

variable {strata a b j d d' : Nat} {m' : Table Nat Nat}

theorem strataFloor_add (h : StrataInRange strata) :
    strataFloor strata + (strata + 2) * maxCycleThreads = s32Max :=
  Nat.sub_add_cancel h

/-- A small offset above the base wraps neither the `s32` nor the `u32`. -/
theorem toU32_strata {off : Nat} (h : StrataInRange strata) (hoff : off ≤ 2 * maxCycleThreads) :
    toU32 (getStrataBase strata + off) = strataFloor strata + off := by
  have hle := h.cast
  have hfloor := strataFloor_add h
  have hoff' : off ≤ 400 := hoff
  have hmax : s32Max = 2147483647 := rfl
  have hthreads : maxCycleThreads = 200 := rfl
  rw [getStrataBase_eq h, toU32_of_range (by omega) (by omega)]
  rw [hmax, hthreads] at hfloor
  omega

variable {i eid e : Nat} {m : Table Nat Nat}

/-- The priorities of a further stratum lie below those of an earlier one. -/
theorem strata_lt (hab : a < b) (hb : StrataInRange b) (hi : i < maxCycleThreads) :
    strataFloor b + i + 1 < strataFloor a + j + 1 := by
  have hb' := strataFloor_add hb
  have ha' := strataFloor_add (hb.mono (le_of_lt hab))
  simp only [maxCycleThreads] at *
  omega

/-- A stratum and an offset are determined by the priority. -/
theorem strata_inj (ha : StrataInRange a) (hb : StrataInRange b) (hi : i < maxCycleThreads)
    (hj : j < maxCycleThreads) (h : strataFloor a + i + 1 = strataFloor b + j + 1) :
    a = b ∧ i = j := by
  rcases lt_trichotomy a b with hlt | rfl | hlt
  · exact absurd h (ne_of_gt (strata_lt hlt hb hj))
  · exact ⟨rfl, by omega⟩
  · exact absurd h (Nat.ne_of_lt (strata_lt hlt ha hi))

/-! ## The initial priorities -/

/-- The slots of group `eid` hold different priorities, of the `MAX_CYCLE_THREADS`
that follow `depth` above the base of the stratum. -/
structure SlotsShuffled (cfg : Config) (strata : Nat) (m : Table Nat Nat) (eid : Nat) : Prop where
  value : ∀ d, ∃ k, k < maxCycleThreads ∧
    m.lookup (getCombinedKey eid d) = some (strataFloor strata + cfg.depth + k)
  inj : ∀ d d', m.lookup (getCombinedKey eid d) = m.lookup (getCombinedKey eid d') →
    getCombinedKey eid d = getCombinedKey eid d'

section Shuffle
variable {cfg : Config} {eid strata : Nat} {m : Table Nat Nat}

theorem initialPrio_eq (hs : StrataInRange strata) (hd : cfg.DepthInRange) {k : Nat}
    (hk : k < maxCycleThreads) :
    initialPrio cfg strata k = strataFloor strata + cfg.depth + k := by
  have hdepth := hd.2
  rw [initialPrio, toU32_strata hs (by simp only [maxCycleThreads] at *; omega), add_assoc]

/-- **`shuffle_prios` gives every slot of the group a priority of its own.** -/
theorem slotsShuffled_shufflePrios (h : SlotTable m) (hs : StrataInRange strata)
    (heid : eid < maxExecutorGroups) (hd : cfg.DepthInRange) (rng : Rng) :
    SlotTable (shufflePrios cfg eid strata rng m).1 ∧
      OnlySlots eid m (shufflePrios cfg eid strata rng m).1 ∧
      SlotsShuffled cfg strata (shufflePrios cfg eid strata rng m).1 eid := by
  obtain ⟨hslot, honly⟩ := assigned_shufflePrios heid h.keys hd strata rng
  have hlt : ∀ d, slotPerm rng (d % maxCycleThreads) < maxCycleThreads :=
    fun d => slotPerm_lt rng (mod_lt d (by decide))
  refine ⟨(h.shufflePrios hd heid hs rng).1, honly, fun d => ⟨_, hlt d, ?_⟩, fun d d' heq => ?_⟩
  · rw [hslot, Function.comp_apply, initialPrio_eq hs hd (hlt d)]
  · rw [hslot, hslot, Option.some.injEq, Function.comp_apply, Function.comp_apply] at heq
    exact getCombinedKey_congr ((slotPerm rng).injective (initialPrio_inj (hlt d) (hlt d') heq))

/-- The initial priority of an id. -/
theorem SlotsShuffled.assign (h : SlotsShuffled cfg strata m eid) (d : Nat) :
    ∃ v, m.lookup (getCombinedKey eid d) = some v ∧ strataFloor strata + cfg.depth ≤ v ∧
      v < strataFloor strata + cfg.depth + maxCycleThreads := by
  obtain ⟨k, hk, hlook⟩ := h.value d
  exact ⟨_, hlook, by omega, by omega⟩

end Shuffle

/-! ## The change points of a group -/

/-- Choosing the points of one group leaves those of the others. -/
theorem lookup_chooseChangePoints_of_ne {cfg : Config} {maxEvents : Nat} (rng : Rng)
    (hd : cfg.DepthInRange) (heid : eid < maxExecutorGroups) (he : e < maxExecutorGroups)
    (hne : e ≠ eid) (hi : i < maxCycleThreads) :
    (chooseChangePoints cfg eid maxEvents rng m).1.lookup (getCombinedChangepointKey e i) =
      m.lookup (getCombinedChangepointKey e i) := by
  have hrounds : ∀ n, n ≤ maxCycleThreads →
      ((List.range n).foldl (chooseRound eid maxEvents) (m, rng)).1.lookup
        (getCombinedChangepointKey e i) = m.lookup (getCombinedChangepointKey e i) := by
    intro n
    induction n with
    | zero => exact fun _ => rfl
    | succ n ih =>
      intro hn
      rw [List.range_succ, List.foldl_append, List.foldl_cons, List.foldl_nil]
      rw [← ih (by omega)]
      generalize (List.range n).foldl (chooseRound eid maxEvents) (m, rng) = acc
      have hkey : getCombinedChangepointKey e i ≠ getCombinedChangepointKey eid n := by
        rw [getCombinedChangepointKey_eq he hi, getCombinedChangepointKey_eq heid (by omega)]
        simp only [maxCycleThreads] at *
        omega
      rw [chooseRound]
      split
      · next hok =>
          rw [Table.lookup_of_updateElem hok]
          exact if_neg hkey
      · rfl
  rw [chooseChangePoints]
  split
  · rfl
  · exact hrounds _ (by have hdepth := hd.2; omega)

/-! ## One event -/

/-- What PCT counts in a cycle. -/
structure PctCounters where
  seen : Nat
  expected : Nat
  strata : Nat
  initialised : Bool

def SchedCycle.counters (c : SchedCycle) : PctCounters :=
  ⟨c.numEventsSeen, c.expectedEventsPerCycle, c.pctStrata, c.algoInitialized⟩

/-- The counters of a group; a group without a cycle has those of a fresh one. -/
def State.counters (s : State) (e : Nat) : PctCounters :=
  ((s.cycle e).map SchedCycle.counters).getD ⟨0, 0, 0, false⟩

theorem State.counters_of_cycle {s : State} {c : SchedCycle} (h : s.cycle e = some c) :
    s.counters e = c.counters := by
  rw [State.counters, h]
  rfl

theorem State.counters_initialised (s : State) (e : Nat) :
    (s.counters e).initialised = s.initialised e := by
  rw [State.counters, State.initialised]
  cases s.cycle e <;> rfl

/-- A task as its first event leaves it: with the priority of its slot. -/
def TaskCtx.withSlot (t : TaskCtx) (v : Nat) : TaskCtx :=
  if t.pctInitialized then t else { t with priority := v, pctInitialized := true }

theorem TaskCtx.tag_withSlot {t t' : TaskCtx} (h : t'.tag = t.tag) (v : Nat) :
    (t'.withSlot v).tag = (t.withSlot v).tag := by
  have hinit : t'.pctInitialized = t.pctInitialized := congrArg TaskTag.pctInitialized h
  have heid : t'.eid = t.eid := congrArg TaskTag.eid h
  have hid : t'.detId = t.detId := congrArg TaskTag.detId h
  rw [withSlot, withSlot, hinit]
  split
  · exact h
  · rw [tag, tag, heid, hid]

section Event
variable {cfg : Config} {eid pid : Nat} {s : State} {c : SchedCycle} {t : TaskCtx}

variable {v strata : Nat}

/-- The first part of the call: the task has its initial priority. -/
theorem ctx_initialPriorityPct_eq (ht : s.ctx pid = some t)
    (hslot : s.pctPriorities.lookup (getCombinedKey eid t.detId) = some v) (hv : v ≤ s32Max) :
    (initialPriorityPct eid pid t s).ctx pid = some (t.withSlot v) := by
  have hprio : assignPctPriority eid t.detId s = v := by
    rw [assignPctPriority, hslot]
    exact asS32_of_range hv
  rw [initialPriorityPct, hprio]
  cases hinit : t.pctInitialized with
  | true => simp [TaskCtx.withSlot, hinit, ht]
  | false =>
    rw [if_pos (by simp), State.ctx_modifyCtx, ht, toU32_natCast hv]
    simp [TaskCtx.withSlot, hinit]

/-- The points that an event can hit are the same after the first part. -/
theorem hitChangePoint_initialPriorityPct (cfg : Config) (eid pid : Nat) (t : TaskCtx) (s : State)
    (seen maxEvents : Nat) :
    hitChangePoint cfg eid seen maxEvents (initialPriorityPct eid pid t s) =
      hitChangePoint cfg eid seen maxEvents s := by
  rw [hitChangePoint, hitChangePoint, (pctCall_initialPriorityPct eid pid s t).points]

/-- **An event that hits no change point** only gives the task its slot. -/
theorem updatePrioritiesPct_spared (hd : cfg.DepthInRange) (hc : s.cycle eid = some c)
    (hmax : 1 ≤ c.expectedEventsPerCycle) (ht : s.ctx pid = some t)
    (hslot : s.pctPriorities.lookup (getCombinedKey eid t.detId) = some v) (hv : v ≤ s32Max)
    (hhit : hitChangePoint cfg eid c.numEventsSeen c.expectedEventsPerCycle s = none) :
    (updatePrioritiesPct cfg eid pid s).ctx pid = some (t.withSlot v) ∧
      (updatePrioritiesPct cfg eid pid s).cycle eid = some c := by
  rw [updatePrioritiesPct_eq hd hc hmax ht, demotePct, hitChangePoint_initialPriorityPct, hhit]
  exact ⟨ctx_initialPriorityPct_eq ht hslot hv, (cycle_initialPriorityPct ..).trans hc⟩

/-- An event that hits a change point writes the stratum of the demotion back. -/
theorem cycle_updatePrioritiesPct_hit (hd : cfg.DepthInRange) (hc : s.cycle eid = some c)
    (hmax : 1 ≤ c.expectedEventsPerCycle) (ht : s.ctx pid = some t) {i : Nat}
    (hhit : hitChangePoint cfg eid c.numEventsSeen c.expectedEventsPerCycle s = some i) :
    (updatePrioritiesPct cfg eid pid s).cycle eid = some { c with
      pctStrata := nextStrata c.numEventsSeen c.expectedEventsPerCycle c.pctStrata } := by
  rw [updatePrioritiesPct_eq hd hc hmax ht, demotePct, hitChangePoint_initialPriorityPct, hhit]
  dsimp only
  rw [updatePriority, State.cycle_modifyCtx, State.cycle_modifyCycle, cycle_initialPriorityPct, hc]
  rfl

/-- **An event that hits change point `i`** demotes the task to the priority `i + 1`
above the base of that stratum. -/
theorem ctx_updatePrioritiesPct_hit (hd : cfg.DepthInRange) (hc : s.cycle eid = some c)
    (hmax : 1 ≤ c.expectedEventsPerCycle) (ht : s.ctx pid = some t)
    (hslot : s.pctPriorities.lookup (getCombinedKey eid t.detId) = some v) (hv : v ≤ s32Max)
    {i : Nat} (hhit : hitChangePoint cfg eid c.numEventsSeen c.expectedEventsPerCycle s = some i)
    (hnext : nextStrata c.numEventsSeen c.expectedEventsPerCycle c.pctStrata = strata)
    (hs : StrataInRange strata) :
    (updatePrioritiesPct cfg eid pid s).ctx pid =
      some { t.withSlot v with priority := strataFloor strata + i + 1 } := by
  have hi : i < cfg.depth - 1 := List.mem_range.mp (List.mem_of_find?_eq_some hhit)
  have hprio : toU32 (asS32 (toU32 (getStrataBase strata + i + 1))) =
      strataFloor strata + i + 1 := by
    have hdepth := hd.2
    rw [toU32_asS32, Int.add_assoc, ← cast_one, ← cast_add, toU32_strata hs (by
      simp only [maxCycleThreads] at *; omega), add_assoc]
  rw [updatePrioritiesPct_eq hd hc hmax ht, demotePct, hitChangePoint_initialPriorityPct, hhit]
  dsimp only
  rw [hnext, updatePriority, State.ctx_modifyCtx, State.ctx_modifyCycle,
    ctx_initialPriorityPct_eq ht hslot hv]
  exact congrArg some (congrArg (fun n => { t.withSlot v with priority := n }) hprio)

/-- The stratum moves on by at most one and only if a lap is over. -/
theorem nextStrata_spec {seen maxEvents : Nat} (hu32 : maxEvents * (strata + 1) < 2 ^ 32)
    (hmax : 1 ≤ maxEvents) :
    nextStrata seen maxEvents strata =
      if seen > maxEvents * (strata + 1) then strata + 1 else strata := by
  have hle : strata + 1 ≤ maxEvents * (strata + 1) := Nat.le_mul_of_pos_left _ hmax
  rw [nextStrata, mod_eq_of_lt (lt_of_le_of_lt hle hu32), mod_eq_of_lt hu32]

end Event

end Sect.Serialise
