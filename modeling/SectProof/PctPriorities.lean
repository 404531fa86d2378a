import SectProof.PctRuns

/-! # Distinct and stratified priorities

The events of a cycle in the order in which they happen, with any other callbacks
in between: `PctStep` says what one callback does to a group, `Stratified` is the
invariant of an initialised cycle and its demotions so far, and
`pct_priorities_stratified` is what follows at the end of every run. -/

open Bool Option

namespace Sect.Serialise

open State

/-! ## The state in which the algorithm is called -/

/-- The group has counted the event of task `p`, after `algo_init` if it was due. -/
structure AtEvent (cfg : Config) (p : TaskStruct) (eid : Nat) (rng : Rng) (t : TaskCtx)
    (c : SchedCycle) (s w : State) : Prop where
  self : ∃ t', w.ctx p.pid = some t' ∧ t'.tag = t.tag
  others : ∀ q, q ≠ p.pid → w.ctx q = s.ctx q
  cycle : ∃ c', w.cycle eid = some c' ∧ c'.counters = ⟨(c.numEventsSeen + 1) % 2 ^ 32,
    c.expectedEventsPerCycle, c.pctStrata, !c.warmingUp⟩
  counters : ∀ e, e ≠ eid → w.counters e = s.counters e
  kept : c.needInit = false →
    w.pctPriorities = s.pctPriorities ∧ w.pctChangePoints = s.pctChangePoints
  chosen : c.needInit = true →
    w.pctPriorities = (shufflePrios cfg eid c.pctStrata rng s.pctPriorities).1 ∧
    ∃ rng', w.pctChangePoints =
      (chooseChangePoints cfg eid c.expectedEventsPerCycle rng' s.pctChangePoints).1

/-- The contexts, the data and the slots of PCT agree. -/
structure SamePct (s u : State) : Prop where
  ctxs : u.taskCtxMap = s.taskCtxMap
  data : u.pctData = s.pctData
  prios : u.pctPriorities = s.pctPriorities

section Park
variable {cfg : Config} {s : State} {p : TaskStruct} {eid : Nat} {t : TaskCtx} {c : SchedCycle}

theorem counters_modifyCycle_of_ne (s : State) {e eid : Nat} (h : e ≠ eid)
    (f : SchedCycle → SchedCycle) : (s.modifyCycle eid f).counters e = s.counters e := by
  rw [State.counters, State.counters, cycle_modifyCycle_of_ne _ _ _ _ h]

theorem initAlgorithm_needed (hpct : cfg.schedAlgorithm = .pct) (hc : s.cycle eid = some c)
    (hneed : c.needInit = true) (rng : Rng) :
    ∃ rng', (initAlgorithm cfg eid rng s).1 =
      { s.modifyCycle eid fun c => { c with algoInitialized := true } with
        pctPriorities := (shufflePrios cfg eid c.pctStrata rng s.pctPriorities).1
        pctChangePoints :=
          (chooseChangePoints cfg eid c.expectedEventsPerCycle rng' s.pctChangePoints).1 } := by
  have hc' : (s.modifyCycle eid fun c => { c with algoInitialized := true }).cycle eid =
      some { c with algoInitialized := true } := by
    rw [cycle_modifyCycle, hc]
    rfl
  refine ⟨(shufflePrios cfg eid c.pctStrata rng s.pctPriorities).2, ?_⟩
  rw [initAlgorithm, hc, any_some, if_pos hneed, algoInit, hpct]
  rw [initPct, hc']
  rfl

theorem initAlgorithm_skipped (hc : s.cycle eid = some c) (hneed : c.needInit = false) (cfg : Config)
    (rng : Rng) : initAlgorithm cfg eid rng s = (s, rng) := by
  rw [initAlgorithm, hc, any_some, hneed]
  rfl

/-- The event is counted. -/
theorem atEvent (hpct : cfg.schedAlgorithm = .pct) (ht : s.ctx p.pid = some t)
    (hc : s.cycle eid = some c) (now : Nat) (rng : Rng) :
    AtEvent cfg p eid rng t c s
      (((initAlgorithm cfg eid rng s).1.modifyCtx p.pid (.markEnqueued p now)).modifyCycle eid
        .countEnqueue) := by
  have hctx := taskCtxMap_initAlgorithm cfg eid rng s
  have hsame : ∀ q, (initAlgorithm cfg eid rng s).1.ctx q = s.ctx q := fun q =>
    congrArg (Table.lookup q) hctx
  refine ⟨⟨t.markEnqueued p now, ?_, rfl⟩, fun q hq => ?_, ?_, fun e he => ?_, fun hneed => ?_,
    fun hneed => ?_⟩
  · rw [ctx_modifyCycle, ctx_modifyCtx, hsame, ht]
    rfl
  · rw [ctx_modifyCycle, ctx_modifyCtx_of_ne _ _ _ _ hq, hsame]
  · rw [cycle_modifyCycle, cycle_modifyCtx]
    cases hneed : c.needInit with
    | true =>
      obtain ⟨rng', heq⟩ := initAlgorithm_needed hpct hc hneed rng
      have hcycle : (initAlgorithm cfg eid rng s).1.cycle eid =
          some { c with algoInitialized := true } := by
        rw [heq]
        show (s.modifyCycle eid _).cycle eid = _
        rw [cycle_modifyCycle, hc]
        rfl
      rw [SchedCycle.needInit, and_eq_true, decide_eq_true_eq] at hneed
      rw [hcycle]
      refine ⟨_, rfl, ?_⟩
      rw [SchedCycle.warmingUp, decide_eq_false hneed.2, Bool.and_false]
      rfl
    | false =>
      rw [initAlgorithm_skipped hc hneed, hc]
      refine ⟨_, rfl, ?_⟩
      have hwarm : (!c.warmingUp) = c.algoInitialized := by
        rw [SchedCycle.needInit] at hneed
        rw [SchedCycle.warmingUp]
        cases hinit : c.algoInitialized <;> simp_all
      rw [hwarm]
      rfl
  · rw [counters_modifyCycle_of_ne _ he]
    show (initAlgorithm cfg eid rng s).1.counters e = _
    cases hneed : c.needInit with
    | true =>
      obtain ⟨rng', heq⟩ := initAlgorithm_needed hpct hc hneed rng
      rw [heq]
      exact counters_modifyCycle_of_ne s he _
    | false => rw [initAlgorithm_skipped hc hneed]
  · show (initAlgorithm cfg eid rng s).1.pctPriorities = _ ∧
      (initAlgorithm cfg eid rng s).1.pctChangePoints = _
    rw [initAlgorithm_skipped hc hneed]
    exact ⟨rfl, rfl⟩
  · obtain ⟨rng', heq⟩ := initAlgorithm_needed hpct hc hneed rng
    show (initAlgorithm cfg eid rng s).1.pctPriorities = _ ∧
      ∃ rng', (initAlgorithm cfg eid rng s).1.pctChangePoints = _
    rw [heq]
    exact ⟨rfl, rng', rfl⟩

/-- What follows the call of the algorithm concerns the queues only. -/
theorem samePct_parkParticipant (hpct : cfg.schedAlgorithm = .pct) (ht : s.ctx p.pid = some t)
    (hc : s.cycle eid = some c) (now : Nat) (rng : Rng) :
    ∃ rng' w, AtEvent cfg p eid rng t c s w ∧
      SamePct (if c.warmingUp then (updatePrioritiesRw eid rng' w).1
        else updatePrioritiesPct cfg eid p.pid w) (parkParticipant cfg p eid now rng s) := by
  have hevent := atEvent hpct ht hc now rng
  refine ⟨(initAlgorithm cfg eid rng s).2, _, hevent, ?_⟩
  obtain ⟨c', hc', hcounters⟩ := hevent.cycle
  have hrun : (((initAlgorithm cfg eid rng s).1.modifyCtx p.pid (.markEnqueued p now)).cycle
      eid).any (fun c => !c.algoInitialized) = c.warmingUp := by
    rw [cycle_modifyCycle] at hc'
    obtain ⟨c₀, hc₀, rfl⟩ := map_eq_some_iff.mp hc'
    have hinit : c₀.algoInitialized = !c.warmingUp := congrArg PctCounters.initialised hcounters
    rw [hc₀, any_some, hinit, Bool.not_not]
  rw [parkParticipant]
  rw [hrun, algoUpdatePriority, hpct]
  generalize hw : (State.modifyCycle _ eid SchedCycle.countEnqueue) = w
  have hsplit : (if c.warmingUp = true then updatePrioritiesRw eid (initAlgorithm cfg eid rng s).2 w
      else (updatePrioritiesPct cfg eid p.pid w, (initAlgorithm cfg eid rng s).2)).1 =
      if c.warmingUp then (updatePrioritiesRw eid (initAlgorithm cfg eid rng s).2 w).1
        else updatePrioritiesPct cfg eid p.pid w := by
    split <;> rfl
  rw [hsplit]
  generalize (if c.warmingUp = true then (updatePrioritiesRw eid _ w).1
    else updatePrioritiesPct cfg eid p.pid w) = u
  split
  · exact ⟨taskCtxMap_push .., pctData_passive.push .., (steady_push ..).prios⟩
  · exact ⟨rfl, rfl, rfl⟩

end Park

/-! ## What a callback does to a group -/

/-- What holds of every group in every reachable state. -/
structure GroupReady (cfg : Config) (e : Nat) (s : State) : Prop where
  fresh : s.initialised e = false → (s.counters e).strata = 0 ∧
    ((s.counters e).expected ≠ 0 → (s.counters e).seen = 0) ∧
    ∀ q t, s.ctx q = some t → t.eid = e → t.pctInitialized = false
  shuffled : s.initialised e = true → (s.counters e).expected ≠ 0 ∧
    SlotsShuffled cfg 0 s.pctPriorities e

/-- Nothing happens to the group. -/
structure Untouched (e : Nat) (s u : State) : Prop where
  tags : ∀ q t, u.ctx q = some t → t.eid = e → t.pctInitialized = true →
    ∃ t', s.ctx q = some t' ∧ t'.tag = t.tag
  slots : ∀ d, u.pctPriorities.lookup (getCombinedKey e d) =
    s.pctPriorities.lookup (getCombinedKey e d)
  points : ∀ i, i < maxCycleThreads →
    u.pctChangePoints.lookup (getCombinedChangepointKey e i) =
      s.pctChangePoints.lookup (getCombinedChangepointKey e i)
  counters : u.counters e = s.counters e

/-- An event of task `pid` in the initialised cycle of group `e`, with the change
point it hits, if any. -/
structure PctEvent (cfg : Config) (e pid : Nat) (s u : State) (hit : Option Nat) : Prop where
  group : e < maxExecutorGroups
  hits : hitChangePoint cfg e (u.counters e).seen (u.counters e).expected u = hit
  others : ∀ q, q ≠ pid → u.ctx q = s.ctx q
  task : ∃ t t' v, s.ctx pid = some t ∧ t.eid = e ∧ u.ctx pid = some t' ∧
    u.pctPriorities.lookup (getCombinedKey e t.detId) = some v ∧
    (hit = none → t'.tag = (t.withSlot v).tag) ∧
    ∀ i, hit = some i → StrataInRange (u.counters e).strata →
      t'.tag = { t.withSlot v with priority := strataFloor (u.counters e).strata + i + 1 }.tag
  shuffled : SlotsShuffled cfg 0 u.pctPriorities e
  slots : s.initialised e = true → u.pctPriorities = s.pctPriorities
  points : s.initialised e = true → u.pctChangePoints = s.pctChangePoints
  initialised : u.initialised e = true
  seen : (u.counters e).seen = ((s.counters e).seen + 1) % 2 ^ 32
  expected : (u.counters e).expected = (s.counters e).expected
  expected_ne : (u.counters e).expected ≠ 0
  spared : hit = none → (u.counters e).strata = (s.counters e).strata
  advanced : hit ≠ none → (u.counters e).strata =
    nextStrata (u.counters e).seen (u.counters e).expected (s.counters e).strata

/-- **What one callback does to a group**: nothing, leave it outside an
initialised cycle, or an event, which may demote its task. -/
inductive PctStep (cfg : Config) (e : Nat) (s u : State) : Option Demotion → Prop
  | untouched (h : Untouched e s u) : PctStep cfg e s u none
  | idle (hu : u.initialised e = false) (h : GroupReady cfg e u) : PctStep cfg e s u none
  | spared {pid : Nat} (h : PctEvent cfg e pid s u none) : PctStep cfg e s u none
  | demoted {pid i : Nat} {t : TaskCtx} (h : PctEvent cfg e pid s u (some i))
      (ht : u.ctx pid = some t) :
      PctStep cfg e s u
        (some ⟨pid, i, (u.counters e).seen, (u.counters e).strata, t.priority⟩)

/-- What holds in every reachable state of the system. -/
structure Sys.PctReady (cfg : Config) (x : Sys) : Prop where
  sound : x.Sound cfg
  slots : SlotTable x.bpf.pctPriorities
  inside : ∀ q t, x.bpf.ctx q = some t → t.pctInitialized = true → x.phase q ≠ .outside
  groups : ∀ e, e < maxExecutorGroups → GroupReady cfg e x.bpf

section GroupSteps
variable {cfg : Config} {x y : Sys} {cb : Callback} {e : Nat}

variable {s u : State} {q : Nat} {t : TaskCtx}

theorem initialised_congr (h : u.counters e = s.counters e) :
    u.initialised e = s.initialised e := by
  rw [← counters_initialised, ← counters_initialised, h]

/-- An untouched group stays ready. -/
theorem GroupReady.untouched (hs : GroupReady cfg e s) (h : Untouched e s u) :
    GroupReady cfg e u := by
  have hinit := initialised_congr h.counters
  refine ⟨fun hu => ?_, fun hu => ?_⟩
  · obtain ⟨hstrata, hseen, hnone⟩ := hs.fresh (hinit ▸ hu)
    rw [h.counters]
    refine ⟨hstrata, hseen, fun q t ht he => ?_⟩
    rw [eq_false_iff]
    intro hassigned
    obtain ⟨t', ht', htag⟩ := h.tags q t ht he hassigned
    have hold := hnone q t' ht' ((congrArg TaskTag.eid htag).trans he)
    have hsame : t'.pctInitialized = t.pctInitialized := congrArg TaskTag.pctInitialized htag
    rw [hsame, hassigned] at hold
    cases hold
  · obtain ⟨hexpected, hslots⟩ := hs.shuffled (hinit ▸ hu)
    rw [h.counters]
    refine ⟨hexpected, fun d => ?_, fun d d' heq => ?_⟩
    · rw [h.slots]
      exact hslots.value d
    · rw [h.slots, h.slots] at heq
      exact hslots.inj d d' heq

theorem PctStep.ready {o : Option Demotion} (hs : GroupReady cfg e s) (h : PctStep cfg e s u o) :
    GroupReady cfg e u := by
  cases h with
  | untouched h => exact hs.untouched h
  | idle hu h => exact h
  | spared h | demoted h _ =>
    refine ⟨fun hu => ?_, fun _ => ⟨h.expected_ne, h.shuffled⟩⟩
    rw [h.initialised] at hu
    cases hu

/-- A task with a priority stays in its cycle through a calm callback. -/
theorem Calm.inside_of (h : Calm cfg x y) (hx : x.PctReady cfg) (ht : y.bpf.ctx q = some t)
    (hassigned : t.pctInitialized = true) : y.phase q ≠ .outside := by
  obtain ⟨t', ht', htag⟩ := h.tags q t ht hassigned
  refine h.inside q t ht (hx.inside q t' ht' ?_)
  exact (congrArg TaskTag.pctInitialized htag).trans hassigned

/-- A calm callback leaves a group untouched, or resets its cycle when nobody of
it is left. -/
theorem Calm.pctStep (h : Calm cfg x y) (hx : x.PctReady cfg) (hy : y.Sound cfg) (e : Nat) :
    PctStep cfg e x.bpf y.bpf none := by
  rcases h.counters e with hkept | ⟨c, hc, hcounters⟩
  · refine .untouched ⟨fun q t ht _ hassigned => h.tags q t ht hassigned, fun d => ?_,
      fun i _ => ?_, hkept⟩
    · rw [h.prios]
    · rw [h.points]
  · have hinit : y.bpf.initialised e = false := by
      rw [State.initialised, hc]
      rfl
    refine .idle hinit ⟨fun _ => ?_, fun hinit' => ?_⟩
    · rw [counters_of_cycle hc]
      refine ⟨rfl, fun _ => rfl, fun q t ht he => ?_⟩
      rw [eq_false_iff]
      intro hassigned
      -- a task with a priority would still be counted as alive
      obtain ⟨t', ht', hj⟩ := hy.placed.joined (h.inside_of hx ht hassigned)
      rw [ht, some.injEq] at ht'
      have halive := hy.numAlive_eq hc
      have hpos : 0 < y.bpf.taskCtxMap.count fun _ t => t.eid = e && t.joined := by
        refine Table.count_pos.mpr ⟨q, Table.holdsAt_eq_true.mpr ⟨t, ht, ?_⟩⟩
        rw [ht', hj, ← ht', he]
        simp
      have hzero : (SchedCycle.reset cfg c).numAlive = 0 := rfl
      omega
    · rw [hinit] at hinit'
      cases hinit'

/-- The random walk of the warm-up changes the priorities of its group only. -/
theorem tag_updatePrioritiesRw (eid : Nat) (rng : Rng) (s : State)
    (ht : (updatePrioritiesRw eid rng s).1.ctx q = some t) :
    ∃ t', s.ctx q = some t' ∧ t'.eid = t.eid ∧ t'.pctInitialized = t.pctInitialized ∧
      (t.eid ≠ eid → t' = t) := by
  obtain ⟨rng', hlook⟩ := Table.lookup_forEach (updateAllPrios eid) rng s.taskCtxMap q
  obtain ⟨t', ht', rfl⟩ := map_eq_some_iff.mp (hlook.symm.trans ht)
  refine ⟨t', ht', ?_⟩
  rw [updateAllPrios]
  split
  · exact ⟨rfl, rfl, fun _ => rfl⟩
  · next heid => exact ⟨rfl, rfl, fun hne => absurd (not_not.mp heid) hne⟩

section Parks
variable {p : TaskStruct} {now : Nat} {rng : Rng} {t : TaskCtx} {c : SchedCycle}

theorem strataInRange_zero : StrataInRange 0 := by
  rw [StrataInRange]
  decide

namespace ParkStep
variable (h : ParkStep cfg x y p now rng t c) (hpct : cfg.schedAlgorithm = .pct)
  (hd : cfg.DepthInRange) (hx : x.PctReady cfg)
include h

variable {t' : TaskCtx}

/-- The parked task keeps its group. -/
theorem self (ht' : y.bpf.ctx p.pid = some t') : t'.eid = p.group := by
  have hself := (parks_parkParticipant cfg now rng h.task h.cycle).self
  rw [← h.state, view_of_ctx ht', some.injEq] at hself
  exact (congrArg TaskView.eid hself).trans h.group

/-- Outside the warm-up only an initialised cycle is not due to be initialised. -/
theorem skipped (hwarm : c.warmingUp = false) :
    c.needInit = false ↔ x.bpf.initialised p.group = true := by
  rw [← counters_initialised, counters_of_cycle h.cycle]
  show _ ↔ c.algoInitialized = true
  rw [SchedCycle.warmingUp] at hwarm
  rw [SchedCycle.needInit]
  cases hc : c.algoInitialized <;> simp_all

/-- The demotion that is read off the state after an event. -/
theorem demotion_eq {hit : Option Nat}
    (hevent : PctEvent cfg p.group p.pid x.bpf y.bpf hit)
    (ht' : y.bpf.ctx p.pid = some t') :
    (Callback.enqueue p now rng).demotion cfg p.group y = hit.map fun i =>
      ⟨p.pid, i, (y.bpf.counters p.group).seen,
        (y.bpf.counters p.group).strata, t'.priority⟩ := by
  rw [Callback.demotion, if_pos ⟨rfl, h.parked, hevent.initialised⟩, ht', hevent.hits]
  rfl

include hx

theorem eid_lt :
    identifyExecutorGroup p < maxExecutorGroups :=
  h.group ▸ (hx.sound.placed.known _ _ (view_of_ctx h.task)).1

/-- A cycle that is due to be initialised has counted nothing. -/
theorem due (hneed : c.needInit = true) : c.pctStrata = 0 ∧ c.numEventsSeen = 0 := by
  rw [SchedCycle.needInit, and_eq_true, not_eq_true', decide_eq_true_eq] at hneed
  have hready := (hx.groups _ (h.eid_lt hx)).fresh (by
    rw [← counters_initialised, counters_of_cycle h.cycle]
    exact hneed.1)
  rw [counters_of_cycle h.cycle] at hready
  exact ⟨hready.1, hready.2.1 hneed.2⟩

include hd in
/-- Outside the warm-up the initialisation is done, now or before: the slots are
shuffled and the number of events is known. -/
theorem shuffled (hwarm : c.warmingUp = false) {w : State}
    (hevent : AtEvent cfg p p.group rng t c x.bpf w) :
    c.expectedEventsPerCycle ≠ 0 ∧
      SlotsShuffled cfg 0 w.pctPriorities p.group := by
  cases hneed : c.needInit with
  | false =>
    obtain ⟨hexpected, hshuffled⟩ :=
      (hx.groups _ (h.eid_lt hx)).shuffled ((h.skipped hwarm).mp hneed)
    rw [counters_of_cycle h.cycle] at hexpected
    rw [(hevent.kept hneed).1]
    exact ⟨hexpected, hshuffled⟩
  | true =>
    rw [(hevent.chosen hneed).1, (h.due hx hneed).1]
    rw [SchedCycle.needInit, and_eq_true, decide_eq_true_eq] at hneed
    exact ⟨hneed.2,
      (slotsShuffled_shufflePrios hx.slots strataInRange_zero (h.eid_lt hx) hd rng).2.2⟩

include hpct

/-- An event of the warm-up leaves its group without priorities. -/
theorem warmup (hwarm : c.warmingUp = true) :
    y.bpf.initialised p.group = false ∧
      GroupReady cfg p.group y.bpf := by
  obtain ⟨rng', w, hevent, hsame⟩ := samePct_parkParticipant hpct h.task h.cycle now rng
  rw [← h.state, if_pos hwarm] at hsame
  obtain ⟨c', hc', hcounters⟩ := hevent.cycle
  have hdata : y.bpf.counters p.group = c'.counters :=
    (congrFun (congrArg PctData.counters hsame.data) _).trans (counters_of_cycle hc')
  have hinit : y.bpf.initialised p.group = false := by
    rw [← counters_initialised, hdata, hcounters, hwarm]
    rfl
  rw [SchedCycle.warmingUp, and_eq_true, not_eq_true', decide_eq_true_eq] at hwarm
  have hready := (hx.groups _ (h.eid_lt hx)).fresh (by
    rw [← counters_initialised, counters_of_cycle h.cycle]
    exact hwarm.1)
  rw [counters_of_cycle h.cycle] at hready
  refine ⟨hinit, fun _ => ?_, fun hinit' => ?_⟩
  · rw [hdata, hcounters]
    refine ⟨hready.1, fun hne => absurd hwarm.2 hne, fun q t' ht' heq => ?_⟩
    obtain ⟨t₁, ht₁, heid₁, hinit₁, -⟩ := tag_updatePrioritiesRw _ rng' w
      ((congrArg (Table.lookup q) hsame.ctxs).symm.trans ht')
    rw [← hinit₁]
    by_cases hq : q = p.pid
    · subst hq
      obtain ⟨t₂, ht₂, htag⟩ := hevent.self
      rw [ht₁, some.injEq] at ht₂
      rw [ht₂]
      exact (congrArg TaskTag.pctInitialized htag).trans (hready.2.2 _ t h.task h.group)
    · rw [hevent.others q hq] at ht₁
      exact hready.2.2 q t₁ ht₁ (heid₁.trans heq)
  · rw [hinit] at hinit'
    cases hinit'

/-- A task with a priority is a participant, and so is the one that is parked. -/
theorem inside_of {q : Nat} (ht' : y.bpf.ctx q = some t') (hassigned : t'.pctInitialized = true) :
    y.phase q ≠ .outside := by
  by_cases hq : q = p.pid
  · rw [hq, h.parked]
    simp
  rw [h.others q hq]
  obtain ⟨rng', w, hevent, hsame⟩ := samePct_parkParticipant hpct h.task h.cycle now rng
  rw [← h.state] at hsame
  have hctx := congrArg (Table.lookup q) hsame.ctxs
  have hold : ∃ t₁, w.ctx q = some t₁ ∧ t₁.pctInitialized = true := by
    cases hwarm : c.warmingUp with
    | true =>
      rw [if_pos hwarm] at hctx
      obtain ⟨t₁, ht₁, -, hinit₁, -⟩ := tag_updatePrioritiesRw _ rng' w (hctx.symm.trans ht')
      exact ⟨t₁, ht₁, hinit₁.trans hassigned⟩
    | false =>
      rw [if_neg (by rw [hwarm]; exact false_ne_true)] at hctx
      have hkept := (pctCall_updatePrioritiesPct cfg p.group p.pid w).others q hq
      exact ⟨t', hkept.symm.trans (hctx.symm.trans ht'), hassigned⟩
  obtain ⟨t₁, ht₁, hassigned₁⟩ := hold
  exact hx.inside q t₁ ((hevent.others q hq).symm.trans ht₁) hassigned₁

include hd

/-- An event of another group leaves a group untouched. -/
theorem untouched (he : e < maxExecutorGroups)
    (hne : e ≠ p.group) : Untouched e x.bpf y.bpf := by
  have heid := h.eid_lt hx
  obtain ⟨rng', w, hevent, hsame⟩ := samePct_parkParticipant hpct h.task h.cycle now rng
  rw [← h.state] at hsame
  -- the counted state differs from the one before in the group of the event only
  have hslots : ∀ d, w.pctPriorities.lookup (getCombinedKey e d) =
      x.bpf.pctPriorities.lookup (getCombinedKey e d) := by
    intro d
    cases hneed : c.needInit with
    | false => rw [(hevent.kept hneed).1]
    | true =>
      rw [(hevent.chosen hneed).1, (h.due hx hneed).1]
      exact (slotsShuffled_shufflePrios hx.slots strataInRange_zero heid hd rng).2.1.other heid
        he hne d
  have hpoints : ∀ i, i < maxCycleThreads →
      w.pctChangePoints.lookup (getCombinedChangepointKey e i) =
        x.bpf.pctChangePoints.lookup (getCombinedChangepointKey e i) := by
    intro i hi
    cases hneed : c.needInit with
    | false => rw [(hevent.kept hneed).2]
    | true =>
      obtain ⟨-, rng'', heq⟩ := hevent.chosen hneed
      rw [heq]
      exact lookup_chooseChangePoints_of_ne rng'' hd heid he hne hi
  -- and so does the state after the call of the algorithm
  have hcall : ∀ v, v = (if c.warmingUp then (updatePrioritiesRw p.group rng' w).1
      else updatePrioritiesPct cfg p.group p.pid w) →
      v.pctPriorities = w.pctPriorities ∧ v.pctChangePoints = w.pctChangePoints ∧
      v.counters e = w.counters e ∧
      ∀ q t', q ≠ p.pid → v.ctx q = some t' → t'.eid = e → w.ctx q = some t' := by
    rintro v rfl
    split
    · refine ⟨rfl, rfl, rfl, fun q t' _ ht' heq => ?_⟩
      obtain ⟨t₁, ht₁, -, -, hkept⟩ := tag_updatePrioritiesRw _ rng' w ht'
      rw [ht₁, hkept (heq ▸ hne)]
    · have hcall := pctCall_updatePrioritiesPct cfg p.group p.pid w
      refine ⟨hcall.prios, hcall.points, ?_, fun q t' hq ht' _ => ?_⟩
      · rw [State.counters, hcall.groups e hne, State.counters]
      · rw [← hcall.others q hq]
        exact ht'
  obtain ⟨hprios, hpts, hcounters, hctxs⟩ := hcall _ rfl
  refine ⟨fun q t' ht' heq hassigned => ?_, fun d => ?_, fun i hi => ?_, ?_⟩
  · have hq : q ≠ p.pid := by
      rintro rfl
      exact hne (heq.symm.trans (h.self ht'))
    have hold := hctxs q t' hq ((congrArg (Table.lookup q) hsame.ctxs).symm.trans ht') heq
    exact ⟨t', (hevent.others q hq).symm.trans hold, rfl⟩
  · rw [hsame.prios, hprios, hslots]
  · have hdata := congrArg PctData.points hsame.data
    change y.bpf.pctChangePoints = _ at hdata
    rw [hdata]
    exact (congrArg _ hpts).trans (hpoints i hi)
  · have hdata := congrFun (congrArg PctData.counters hsame.data) e
    exact hdata.trans (hcounters.trans (hevent.counters e hne))

/-- **An event of an initialised cycle.** -/
theorem event (hwarm : c.warmingUp = false) :
    ∃ hit, PctEvent cfg p.group p.pid x.bpf y.bpf hit := by
  have heid := h.eid_lt hx
  obtain ⟨rng', w, hevent, hsame⟩ := samePct_parkParticipant hpct h.task h.cycle now rng
  rw [← h.state, if_neg (by rw [hwarm]; exact false_ne_true)] at hsame
  obtain ⟨c', hc', hcounters⟩ := hevent.cycle
  obtain ⟨t₁, ht₁, htag₁⟩ := hevent.self
  have hold : x.bpf.counters p.group = c.counters :=
    counters_of_cycle h.cycle
  obtain ⟨hexpected, hshuffled⟩ := h.shuffled hd hx hwarm hevent
  obtain ⟨v, hslot, -, hv⟩ := hshuffled.assign t.detId
  have hv : v ≤ s32Max := by
    have hfloor := strataFloor_add strataInRange_zero
    have hdepth := hd.2
    omega
  have hid : t₁.detId = t.detId := congrArg TaskTag.detId htag₁
  have hslot₁ : w.pctPriorities.lookup (getCombinedKey p.group t₁.detId) =
      some v := by rw [hid, hslot]
  have hseen' : c'.numEventsSeen = (c.numEventsSeen + 1) % 2 ^ 32 :=
    congrArg PctCounters.seen hcounters
  have hexpected' : c'.expectedEventsPerCycle = c.expectedEventsPerCycle :=
    congrArg PctCounters.expected hcounters
  have hstrata' : c'.pctStrata = c.pctStrata := congrArg PctCounters.strata hcounters
  have hinit' : c'.algoInitialized = true := by
    rw [show c'.algoInitialized = !c.warmingUp from congrArg PctCounters.initialised hcounters,
      hwarm]
    rfl
  have hmax : 1 ≤ c'.expectedEventsPerCycle := by rw [hexpected']; omega
  -- the state after the call
  have hcall := pctCall_updatePrioritiesPct cfg p.group p.pid w
  have hprios : y.bpf.pctPriorities = w.pctPriorities := hsame.prios.trans hcall.prios
  have hpoints : y.bpf.pctChangePoints = w.pctChangePoints :=
    (congrArg PctData.points hsame.data).trans hcall.points
  have hctx : ∀ q, y.bpf.ctx q =
      (updatePrioritiesPct cfg p.group p.pid w).ctx q := fun q =>
    congrArg (Table.lookup q) hsame.ctxs
  have hafter : ∀ c₂, (updatePrioritiesPct cfg p.group p.pid w).cycle
      p.group = some c₂ →
      y.bpf.counters p.group = c₂.counters := fun c₂ hc₂ =>
    (congrFun (congrArg PctData.counters hsame.data) _).trans (counters_of_cycle hc₂)
  obtain ⟨t', ht'⟩ : ∃ t', y.bpf.ctx p.pid = some t' := by
    have hself := (parks_parkParticipant cfg now rng h.task h.cycle).self
    rw [← h.state] at hself
    obtain ⟨t', ht', -⟩ := view_eq_some.mp hself
    exact ⟨t', ht'⟩
  -- the stratum stays if no point is hit, and is the demotion's otherwise
  obtain ⟨strata, hcycle, hspared, hadvanced⟩ : ∃ strata,
      (updatePrioritiesPct cfg p.group p.pid w).cycle
        p.group = some { c' with pctStrata := strata } ∧
      (hitChangePoint cfg p.group c'.numEventsSeen c'.expectedEventsPerCycle w =
        none → strata = c'.pctStrata) ∧
      (hitChangePoint cfg p.group c'.numEventsSeen c'.expectedEventsPerCycle w ≠
        none → strata = nextStrata c'.numEventsSeen c'.expectedEventsPerCycle c'.pctStrata) := by
    cases hhit : hitChangePoint cfg p.group c'.numEventsSeen
        c'.expectedEventsPerCycle w with
    | none =>
      exact ⟨_, (updatePrioritiesPct_spared hd hc' hmax ht₁ hslot₁ hv hhit).2, fun _ => rfl,
        fun hne => absurd rfl hne⟩
    | some i =>
      exact ⟨_, cycle_updatePrioritiesPct_hit hd hc' hmax ht₁ hhit, fun hnone => (by cases hnone),
        fun _ => rfl⟩
  have hcount := hafter _ hcycle
  refine ⟨hitChangePoint cfg p.group c'.numEventsSeen c'.expectedEventsPerCycle w,
    heid, ?_, fun q hq => ?_, ⟨t, t', v, h.task, h.group, ht', ?_, fun hnone => ?_,
      fun i hi hrange => ?_⟩, hprios ▸ hshuffled, fun hx' => ?_, fun hx' => ?_, ?_, ?_, ?_, ?_,
    fun hnone => ?_, fun hne => ?_⟩
  · rw [hcount, hitChangePoint, hpoints]
    rfl
  · rw [hctx, hcall.others q hq, hevent.others q hq]
  · rw [hprios, hslot]
  · have hself := (updatePrioritiesPct_spared hd hc' hmax ht₁ hslot₁ hv hnone).1
    rw [← hctx, ht', some.injEq] at hself
    rw [hself]
    exact TaskCtx.tag_withSlot htag₁ v
  · rw [hcount] at hrange ⊢
    have hnext : nextStrata c'.numEventsSeen c'.expectedEventsPerCycle c'.pctStrata = strata :=
      (hadvanced (by rw [hi]; exact some_ne_none i)).symm
    have hself := ctx_updatePrioritiesPct_hit hd hc' hmax ht₁ hslot₁ hv hi hnext hrange
    rw [← hctx, ht', some.injEq] at hself
    rw [hself]
    exact congrArg (fun g : TaskTag => { g with priority := strataFloor strata + i + 1 })
      (TaskCtx.tag_withSlot htag₁ v)
  · exact hprios.trans (hevent.kept ((h.skipped hwarm).mpr hx')).1
  · exact hpoints.trans (hevent.kept ((h.skipped hwarm).mpr hx')).2
  · rw [← counters_initialised, hcount]
    exact hinit'
  · rw [hcount, hold]
    exact hseen'
  · rw [hcount, hold]
    exact hexpected'
  · rw [hcount]
    exact hexpected'.trans_ne hexpected
  · rw [hcount, hold]
    exact (hspared hnone).trans hstrata'
  · rw [hcount, hold]
    refine (hadvanced hne).trans ?_
    rw [hstrata']
    rfl

/-- What an enqueue that parks does to every group. -/
theorem pctStep (he : e < maxExecutorGroups) :
    PctStep cfg e x.bpf y.bpf ((Callback.enqueue p now rng).demotion cfg e y) := by
  by_cases hne : e = p.group
  · subst hne
    cases hwarm : c.warmingUp with
    | true =>
      obtain ⟨hinit, hready⟩ := h.warmup hpct hx hwarm
      have hnone : (Callback.enqueue p now rng).demotion cfg p.group y =
          none := by
        rw [Callback.demotion, if_neg]
        rintro ⟨-, -, hinit'⟩
        rw [hinit] at hinit'
        cases hinit'
      rw [hnone]
      exact .idle hinit hready
    | false =>
      obtain ⟨hit, hevent⟩ := h.event hpct hd hx hwarm
      obtain ⟨-, t', -, -, -, ht', -⟩ := hevent.task
      rw [h.demotion_eq hevent ht']
      cases hit with
      | none => exact .spared hevent
      | some i => exact .demoted hevent ht'
  · have hnone : (Callback.enqueue p now rng).demotion cfg e y = none := by
      rw [Callback.demotion, if_neg]
      exact fun hand => hne hand.1.symm
    rw [hnone]
    exact .untouched (h.untouched hpct hd hx he hne)

/-- The slots stay positive. -/
theorem slotTable : SlotTable y.bpf.pctPriorities := by
  obtain ⟨rng', w, hevent, hsame⟩ := samePct_parkParticipant hpct h.task h.cycle now rng
  have hprios : y.bpf.pctPriorities = w.pctPriorities := by
    rw [h.state, hsame.prios]
    split
    · rfl
    · exact (pctCall_updatePrioritiesPct ..).prios
  rw [hprios]
  cases hneed : c.needInit with
  | false =>
    rw [(hevent.kept hneed).1]
    exact hx.slots
  | true =>
    rw [(hevent.chosen hneed).1, (h.due hx hneed).1]
    exact (slotsShuffled_shufflePrios hx.slots strataInRange_zero (h.eid_lt hx) hd rng).1

end ParkStep
end Parks

/-- **One callback**: the system stays ready, and every group sees one of the four
steps. -/
theorem Sys.PctReady.step (hx : x.PctReady cfg) (hload : cfg.Loaded)
    (hpct : cfg.schedAlgorithm = .pct) (h : x.step cfg cb = some y) :
    y.PctReady cfg ∧ ∀ e, e < maxExecutorGroups →
      PctStep cfg e x.bpf y.bpf (cb.demotion cfg e y) := by
  have hd : cfg.DepthInRange := ⟨hload.one_le_depth, hload.depth_le⟩
  have hy := hx.sound.step hload.one_le_threads h
  rcases step_calm_or_parks hx.sound.placed h with ⟨hcalm, hnone⟩ | ⟨p, now, rng, t, c, rfl, hpark⟩
  · have hsteps : ∀ e, e < maxExecutorGroups →
        PctStep cfg e x.bpf y.bpf (cb.demotion cfg e y) := fun e _ => by
      rw [hnone e]
      exact hcalm.pctStep hx hy e
    refine ⟨⟨hy, ?_, fun q t ht hassigned => hcalm.inside_of hx ht hassigned,
      fun e he => (hsteps e he).ready (hx.groups e he)⟩, hsteps⟩
    rw [hcalm.prios]
    exact hx.slots
  · have hsteps : ∀ e, e < maxExecutorGroups →
        PctStep cfg e x.bpf y.bpf ((Callback.enqueue p now rng).demotion cfg e y) := fun e he =>
      hpark.pctStep hpct hd hx he
    exact ⟨⟨hy, hpark.slotTable hpct hd hx, fun q t ht hassigned =>
      hpark.inside_of hpct hx ht hassigned,
      fun e he => (hsteps e he).ready (hx.groups e he)⟩, hsteps⟩

theorem Sys.pctReady_init (hload : cfg.Loaded) : Sys.init.PctReady cfg where
  sound := Sys.sound_init hload.one_le_threads
  slots := ⟨fun _ h => (nomatch h), fun _ _ h => (nomatch h)⟩
  inside _ _ h := nomatch h
  groups _ _ := ⟨fun _ => ⟨rfl, fun _ => rfl, fun _ _ h => (nomatch h)⟩, fun h => (nomatch h)⟩

end GroupSteps

end Sect.Serialise
