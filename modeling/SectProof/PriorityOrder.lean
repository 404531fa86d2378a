import SectProof.CounterExactness
import SectProof.PctSlots

/-! # The queue order is the priority order

A group's queue is ordered by the vtimes its tasks were inserted with.  A task
that a dispatch moves has the highest current priority of the parked tasks as
long as no enqueue rewrites the priority of a task that is already parked: the
random walk (and PCT while it warms up) redraws every task of the group, and POS
redraws the tasks that race with the enqueued one, parked or not.

`Ordered` is the invariant: every parked task has a positive priority and its
vtime is the one of that priority. -/

open Option

namespace Sect.Serialise

open State

/-- The queue of every group is ordered by the current priorities of its tasks,
and the algorithm's data is fit to assign positive ones. -/
structure State.Ordered (cfg : Config) (s : State) : Prop where
  sorted : ∀ e, VtimeQueue.Sorted (s.groupDsq e)
  current : ∀ e d, d ∈ s.groupDsq e →
    ∃ t, s.ctx d.2 = some t ∧ 0 < t.priority ∧ d.1 = u32Max - t.priority
  range : ∀ q t, s.ctx q = some t →
    t.priority ≤ u32Max ∧ (t.pctInitialized = true → 0 < t.priority)
  slots : SlotTable s.pctPriorities
  ready : ∀ e, s.initialised e = true → s.learned e ≠ 0 ∧
    (cfg.schedAlgorithm = .pct → SlotsFilled s.pctPriorities e)

section Order
variable {cfg : Config} {s u : State}

theorem State.Ordered.steady (hs : s.Ordered cfg) (h : Steady s u) : u.Ordered cfg where
  sorted e := (hs.sorted e).sublist (h.dsq e)
  current e d hd := by
    obtain ⟨t, ht, hpos, hvtime⟩ := hs.current e d ((h.dsq e).subset hd)
    have htag := h.tags d.2
    rw [ht, map_some] at htag
    obtain ⟨t', ht', heq⟩ := map_eq_some_iff.mp htag
    have hprio : t'.priority = t.priority := congrArg TaskTag.priority heq
    exact ⟨t', ht', by rw [hprio]; exact hpos, by rw [hprio]; exact hvtime⟩
  range q t ht := by
    obtain ⟨t', ht', heq⟩ := h.ctx_some ht
    have hprio : t'.priority = t.priority := congrArg TaskTag.priority heq
    have hinit : t'.pctInitialized = t.pctInitialized := congrArg TaskTag.pctInitialized heq
    rw [← hprio, ← hinit]
    exact hs.range q t' ht'
  slots := h.prios ▸ hs.slots
  ready e he := by
    rw [h.learned, h.prios]
    exact hs.ready e (h.initialised e ▸ he)

/-- A registration adds a task of priority 0, which is not parked. -/
theorem State.Ordered.enrol (hs : s.Ordered cfg) {p eid : Nat} (h : Enrols p eid s u) :
    u.Ordered cfg := by
  have hrest : u.groupDsq = s.groupDsq ∧ u.pctPriorities = s.pctPriorities ∧
      (∀ e, u.learned e = s.learned e) ∧ ∀ e, u.initialised e = s.initialised e := by
    cases h with
    | same => exact ⟨rfl, rfl, fun _ => rfl, fun _ => rfl⟩
    | full _ _ hdraw _ | new _ _ hdraw _ =>
      exact ⟨hdraw.dsq, hdraw.prios, hdraw.learned, hdraw.initialised⟩
  obtain ⟨hdsq, hprios, hlearned, hinit⟩ := hrest
  have hkept : ∀ {q t}, s.ctx q = some t → u.ctx q = some t := by
    intro q t ht
    by_cases hq : q = p
    · subst hq
      cases h with
      | same => exact ht
      | full _ hnone _ _ | new _ hnone _ _ => rw [ht] at hnone; cases hnone
    · rw [h.ctx_of_ne hq, ht]
  refine ⟨fun e => by rw [hdsq]; exact hs.sorted e, fun e d hd => ?_, fun q t ht => ?_,
    hprios ▸ hs.slots, fun e he => ?_⟩
  · rw [hdsq] at hd
    obtain ⟨t, ht, hpos, hvtime⟩ := hs.current e d hd
    exact ⟨t, hkept ht, hpos, hvtime⟩
  · by_cases hq : q = p
    · subst hq
      rcases h.ctx_self ht with hold | ⟨_, d, rfl⟩
      · exact hs.range q t hold
      · exact ⟨Nat.zero_le _, fun h => (nomatch h)⟩
    · exact hs.range q t (h.ctx_of_ne hq ▸ ht)
  · rw [hlearned, hprios]
    exact hs.ready e (hinit e ▸ he)

/-- An exit forgets a task that is not parked. -/
theorem State.Ordered.exit (hs : s.Ordered cfg) {p : TaskStruct} (h : Exits cfg p s u)
    (hparked : ∀ e d, d ∈ s.groupDsq e → d.2 ≠ p.pid) : u.Ordered cfg := by
  have hctx : ∀ q, (forgetTask p.pid s).ctx q = if q = p.pid then none else s.ctx q := fun q =>
    Table.lookup_erase p.pid q s.taskCtxMap
  have hforget : (forgetTask p.pid s).Ordered cfg := by
    refine ⟨hs.sorted, fun e d hd => ?_, fun q t ht => ?_, hs.slots, hs.ready⟩
    · rw [hctx, if_neg (hparked e d hd)]
      exact hs.current e d hd
    · rw [hctx] at ht
      split at ht
      · cases ht
      · exact hs.range q t ht
  cases h with
  | same => exact hs
  | forgotten h _ => exact hforget.steady h
  | @finished t c u _ _ _ _ h _ =>
    -- the reset takes the initialisation back
    obtain ⟨hsorted, hcurrent, hrange, hslots, hready⟩ := hforget.steady h
    refine ⟨hsorted, hcurrent, hrange, hslots, fun e he => ?_⟩
    by_cases hee : e = p.group
    · subst hee
      unfold State.initialised resetCycleState at he
      rw [cycle_modifyCycle, map_map] at he
      cases hc : u.cycle p.group <;> rw [hc] at he <;> cases he
    · have hsame : (resetCycleState cfg p.group u).cycle e = u.cycle e :=
        cycle_modifyCycle_of_ne _ _ _ _ hee
      unfold State.initialised at he
      rw [hsame] at he
      unfold State.learned
      rw [hsame]
      exact hready e he

end Order

/-! ## What an algorithm does to the parked -/

/-- An algorithm run for task `p`: it has a positive priority, and the tasks that
are parked keep theirs. -/
structure Reranks (p : Nat) (s u : State) : Prop where
  self : ∃ t, u.ctx p = some t ∧ 0 < t.priority
  parked : ∀ e d, d ∈ s.groupDsq e → d.2 ≠ p → u.ctx d.2 = s.ctx d.2
  range : ∀ q t, u.ctx q = some t →
    t.priority ≤ u32Max ∧ (t.pctInitialized = true → 0 < t.priority)

/-- A drawn priority is small and positive. -/
theorem randPriority_range (rng : Rng) :
    0 < (randPriority rng).1 ∧ (randPriority rng).1 ≤ u32Max := by
  have hlt : (bpfGetPrandomU32 rng).1 % 50 < 50 := Nat.mod_lt _ (by decide)
  have hmax : u32Max = 4294967295 := rfl
  unfold randPriority
  omega

section Algorithms
variable {cfg : Config} {s : State} {p eid : Nat} {t : TaskCtx}

theorem reranks_updatePrioritiesRw (hs : s.Ordered cfg) (ht : s.ctx p = some t) (heid : t.eid = eid)
    (hgroups : ∀ e d, d ∈ s.groupDsq e → ∃ t, s.ctx d.2 = some t ∧ t.eid = e)
    (hempty : s.groupDsq eid = []) (rng : Rng) :
    Reranks p s (updatePrioritiesRw eid rng s).1 := by
  have hctx : ∀ q, ∃ r, (updatePrioritiesRw eid rng s).1.ctx q =
      (s.ctx q).map fun t => (updateAllPrios eid r q t).1 := fun q =>
    Table.lookup_forEach (updateAllPrios eid) rng s.taskCtxMap q
  refine ⟨?_, fun e d hd hne => ?_, fun q t' ht' => ?_⟩
  · obtain ⟨r, hr⟩ := hctx p
    refine ⟨_, hr.trans (by rw [ht]; rfl), ?_⟩
    show 0 < (updateAllPrios eid r p t).1.priority
    rw [updateAllPrios, if_neg (by simpa using heid)]
    exact (randPriority_range r).1
  · obtain ⟨r, hr⟩ := hctx d.2
    obtain ⟨t', ht', he⟩ := hgroups e d hd
    have hother : t'.eid ≠ eid := by
      intro h
      rw [← he, h, hempty] at hd
      cases hd
    rw [hr, ht', map_some, updateAllPrios, if_pos hother]
  · obtain ⟨r, hr⟩ := hctx q
    rw [hr] at ht'
    obtain ⟨t₀, ht₀, rfl⟩ := map_eq_some_iff.mp ht'
    unfold updateAllPrios
    split
    · exact hs.range q t₀ ht₀
    · exact ⟨(randPriority_range r).2, fun _ => (randPriority_range r).1⟩

theorem reranks_updatePrioritiesPos (hs : s.Ordered cfg) (ht : s.ctx p = some t)
    (hgroups : ∀ e d, d ∈ s.groupDsq e → ∃ t, s.ctx d.2 = some t ∧ t.eid = e)
    (hcalm : ∀ d ∈ s.groupDsq eid, ∀ t', s.ctx d.2 = some t' → racesWith t' t = false) (rng : Rng) :
    Reranks p s (updatePrioritiesPos eid p rng s).1 := by
  have hctx : ∀ q, ∃ r, (updatePrioritiesPos eid p rng s).1.ctx q =
      ((s.modifyCtx p fun t => { t with priority := (randPriority rng).1 }).ctx q).map
        fun t' => (updateAllPriosPos eid t r q t').1 := by
    intro q
    rw [updatePrioritiesPos, ht]
    exact Table.lookup_forEach (updateAllPriosPos eid t) (randPriority rng).2 _ q
  have hself : (s.modifyCtx p fun t => { t with priority := (randPriority rng).1 }).ctx p =
      some { t with priority := (randPriority rng).1 } := by
    rw [ctx_modifyCtx, ht]; rfl
  have hdraw : ∀ r q t', (0 < t'.priority ∧ t'.priority ≤ u32Max) →
      0 < (updateAllPriosPos eid t r q t').1.priority ∧
        (updateAllPriosPos eid t r q t').1.priority ≤ u32Max := by
    intro r q t' hpos
    unfold updateAllPriosPos
    split
    · exact hpos
    · split
      · exact randPriority_range r
      · exact hpos
  refine ⟨?_, fun e d hd hne => ?_, fun q t' ht' => ?_⟩
  · obtain ⟨r, hr⟩ := hctx p
    exact ⟨_, hr.trans (by rw [hself]; rfl), (hdraw r p _ (randPriority_range rng)).1⟩
  · obtain ⟨r, hr⟩ := hctx d.2
    obtain ⟨t', ht', he⟩ := hgroups e d hd
    rw [hr, ctx_modifyCtx_of_ne _ _ _ _ hne, ht', map_some, updateAllPriosPos]
    split
    · rfl
    · rename_i hgroup
      rw [not_not] at hgroup
      rw [← he, hgroup] at hd
      rw [hcalm d hd t' ht']
      rfl
  · obtain ⟨r, hr⟩ := hctx q
    rw [hr] at ht'
    obtain ⟨t₀, ht₀, rfl⟩ := map_eq_some_iff.mp ht'
    by_cases hq : q = p
    · subst hq
      rw [hself, some.injEq] at ht₀
      rw [← ht₀]
      obtain ⟨hpos, hle⟩ := hdraw r q { t with priority := (randPriority rng).1 }
        (randPriority_range rng)
      exact ⟨hle, fun _ => hpos⟩
    · rw [ctx_modifyCtx_of_ne _ _ _ _ hq] at ht₀
      have hold := hs.range q t₀ ht₀
      unfold updateAllPriosPos
      split
      · exact hold
      · split
        · exact ⟨(randPriority_range r).2, fun _ => (randPriority_range r).1⟩
        · exact hold

/-- An algorithm that rewrites the context of its own task only. -/
theorem reranks_of_self {u : State} (hs : s.Ordered cfg) (hothers : ∀ q, q ≠ p → u.ctx q = s.ctx q)
    {t' : TaskCtx} (hself : u.ctx p = some t') (hpos : 0 < t'.priority)
    (hle : t'.priority ≤ u32Max) : Reranks p s u := by
  refine ⟨⟨t', hself, hpos⟩, fun e d _ hne => hothers d.2 hne, fun q t'' ht'' => ?_⟩
  by_cases hq : q = p
  · subst hq
    rw [hself, some.injEq] at ht''
    rw [← ht'']
    exact ⟨hle, fun _ => hpos⟩
  · exact hs.range q t'' (hothers q hq ▸ ht'')

theorem reranks_updatePrioritiesRp (hs : s.Ordered cfg) (ht : s.ctx p = some t) (rng : Rng) :
    Reranks p s (updatePrioritiesRp p rng s).1 := by
  obtain ⟨hpos, hle⟩ := randPriority_range rng
  have hcast : toU32 ((randPriority rng).1 : Int) = (randPriority rng).1 := by
    have hmax : u32Max = 4294967295 := rfl
    unfold toU32
    omega
  have hself : (updatePrioritiesRp p rng s).1.ctx p =
      some { t with priority := (randPriority rng).1 } := by
    rw [updatePrioritiesRp, updatePriority, ctx_modifyCtx, ht, hcast]
    rfl
  exact reranks_of_self hs (fun q hq => ctx_modifyCtx_of_ne _ _ _ _ hq) hself hpos hle

/-- The first event of a task takes the priority of its slot. -/
theorem initialPriorityPct_ctx (hs : s.Ordered cfg) (ht : s.ctx p = some t)
    (hfilled : SlotsFilled s.pctPriorities eid) :
    ∃ t', (initialPriorityPct eid p t s).ctx p = some t' ∧ 0 < t'.priority ∧
      t'.priority ≤ u32Max ∧ ∀ q, q ≠ p → (initialPriorityPct eid p t s).ctx q = s.ctx q := by
  obtain ⟨v, hv⟩ := isSome_iff_exists.mp (hfilled t.detId)
  obtain ⟨hpos, hle⟩ := hs.slots.values _ v hv
  have hprio : assignPctPriority eid t.detId s = v := by
    rw [assignPctPriority, hv]
    exact asS32_of_range hle
  unfold initialPriorityPct
  rw [hprio]
  cases hinit : t.pctInitialized with
  | true =>
    obtain ⟨hle', hpos'⟩ := hs.range p t ht
    exact ⟨t, ht, hpos' hinit, hle', fun _ _ => rfl⟩
  | false =>
    rw [if_pos (by simp)]
    have hcast := toU32_natCast hle
    refine ⟨{ t with priority := toU32 v, pctInitialized := true }, ?_, ?_, ?_, fun q hq => ?_⟩
    · rw [ctx_modifyCtx, ht]; rfl
    · rw [hcast]; exact hpos
    · rw [hcast]
      exact Nat.le_trans hle s32Max_le_u32Max
    · exact ctx_modifyCtx_of_ne _ _ _ _ hq

/-- A change point demotes a task to a positive priority of its stratum. -/
theorem demoted_priority {c : SchedCycle} {i : Nat} (hd : cfg.DepthInRange)
    (hstrata : StrataInRange (c.pctStrata + 1)) (hi : i < cfg.depth - 1) :
    0 < toU32 (getStrataBase
        (nextStrata c.numEventsSeen c.expectedEventsPerCycle c.pctStrata) + i + 1) ∧
      toU32 (getStrataBase
        (nextStrata c.numEventsSeen c.expectedEventsPerCycle c.pctStrata) + i + 1) ≤ s32Max := by
  have hnext : nextStrata c.numEventsSeen c.expectedEventsPerCycle c.pctStrata ≤
      c.pctStrata + 1 := by
    rw [nextStrata]
    split
    · exact Nat.mod_le _ _
    · exact Nat.le_succ _
  have hdepth := hd.2
  have hcast : ∀ b : Int, b + i + 1 = b + ((i + 1 : Nat) : Int) := fun b => by
    rw [Nat.cast_add, Nat.cast_one, add_assoc]
  rw [hcast]
  refine strata_priority (hstrata.mono hnext) (Nat.le_add_left 1 i) ?_
  omega

theorem demotePct_ctx {c : SchedCycle} (eid : Nat) (hd : cfg.DepthInRange)
    (hstrata : StrataInRange (c.pctStrata + 1)) (ht : s.ctx p = some t) (hpos : 0 < t.priority)
    (hle : t.priority ≤ u32Max) :
    ∃ t', (demotePct cfg eid p c s).ctx p = some t' ∧ 0 < t'.priority ∧ t'.priority ≤ u32Max ∧
      ∀ q, q ≠ p → (demotePct cfg eid p c s).ctx q = s.ctx q := by
  unfold demotePct
  split
  · exact ⟨t, ht, hpos, hle, fun _ _ => rfl⟩
  rename_i i hi
  obtain ⟨hv, hvle⟩ := demoted_priority hd hstrata
    (List.mem_range.mp (List.mem_of_find?_eq_some hi))
  dsimp only
  generalize toU32 (getStrataBase _ + (i : Int) + 1) = v at *
  rw [asS32_of_range hvle]
  refine ⟨{ t with priority := toU32 v }, ?_, ?_, ?_, fun q hq => ?_⟩
  · rw [updatePriority, ctx_modifyCtx, ctx_modifyCycle, ht]; rfl
  · rw [toU32_natCast hvle]; exact hv
  · rw [toU32_natCast hvle]
    exact Nat.le_trans hvle s32Max_le_u32Max
  · exact ctx_modifyCtx_of_ne _ _ _ _ hq

theorem reranks_updatePrioritiesPct {c : SchedCycle} (hs : s.Ordered cfg) (hd : cfg.DepthInRange)
    (ht : s.ctx p = some t) (hc : s.cycle eid = some c) (hlearned : c.expectedEventsPerCycle ≠ 0)
    (hfilled : SlotsFilled s.pctPriorities eid) (hstrata : StrataInRange (c.pctStrata + 1)) :
    Reranks p s (updatePrioritiesPct cfg eid p s) := by
  obtain ⟨t₁, ht₁, hpos₁, hle₁, hothers₁⟩ := initialPriorityPct_ctx hs ht hfilled
  obtain ⟨t₂, ht₂, hpos₂, hle₂, hothers₂⟩ := demotePct_ctx eid hd hstrata ht₁ hpos₁ hle₁
  unfold updatePrioritiesPct
  rw [hc, ht]
  dsimp only
  rw [if_neg (by unfold Config.DepthInRange at hd; omega), if_neg hlearned]
  exact reranks_of_self hs (fun q hq => (hothers₂ q hq).trans (hothers₁ q hq)) ht₂ hpos₂ hle₂

end Algorithms

/-! ## Enqueues -/

section Enqueue
variable {cfg : Config} {s : State} {eid : Nat} {c : SchedCycle}

theorem taskCtxMap_initAlgorithm (cfg : Config) (eid : Nat) (rng : Rng) (s : State) :
    (initAlgorithm cfg eid rng s).1.taskCtxMap = s.taskCtxMap := by
  unfold initAlgorithm algoInit
  split
  · split
    · unfold initPct
      split <;> rfl
    all_goals rfl
  · rfl

/-- An initialised group: the parked tasks and the contexts are as before, and so
are the other groups. -/
theorem State.Ordered.initialised (hs : s.Ordered cfg) {u : State}
    (hdsq : u.groupDsq = s.groupDsq) (hctx : u.taskCtxMap = s.taskCtxMap)
    (htable : SlotTable u.pctPriorities) (hkept : SlotsKept s.pctPriorities u.pctPriorities)
    (hothers : ∀ e, e ≠ eid → u.cycle e = s.cycle e) (hlearned : u.learned eid ≠ 0)
    (hfilled : cfg.schedAlgorithm = .pct → SlotsFilled u.pctPriorities eid) : u.Ordered cfg := by
  have hsame : ∀ q, u.ctx q = s.ctx q := fun q => congrArg (Table.lookup q) hctx
  refine ⟨fun e => ?_, fun e d hd => ?_, fun q t ht => ?_, htable, fun e he => ?_⟩
  · rw [hdsq]
    exact hs.sorted e
  · rw [hdsq] at hd
    rw [hsame]
    exact hs.current e d hd
  · exact hs.range q t (hsame q ▸ ht)
  · by_cases hee : e = eid
    · subst hee
      exact ⟨hlearned, hfilled⟩
    · unfold State.initialised at he
      unfold State.learned
      rw [hothers e hee] at *
      obtain ⟨hold, hfull⟩ := hs.ready e he
      exact ⟨hold, fun h => hkept.filled (hfull h)⟩

/-- The initialisation of the algorithm makes its data fit. -/
theorem State.Ordered.afterInit (hs : s.Ordered cfg) (heid : eid < maxExecutorGroups)
    (hc : s.cycle eid = some c) (hpct : cfg.schedAlgorithm = .pct →
      cfg.DepthInRange ∧ StrataInRange c.pctStrata) (rng : Rng) :
    (initAlgorithm cfg eid rng s).1.Ordered cfg := by
  by_cases hneed : c.needInit = true
  · have hdef : initAlgorithm cfg eid rng s = algoInit cfg eid rng
        (s.modifyCycle eid fun c => { c with algoInitialized := true }) := by
      rw [initAlgorithm, hc, any_some, if_pos hneed]
    rw [SchedCycle.needInit, Bool.and_eq_true, decide_eq_true_eq] at hneed
    rw [hdef]
    generalize hs₁ : s.modifyCycle eid (fun c => { c with algoInitialized := true }) = s₁
    have hc₁ : s₁.cycle eid = some { c with algoInitialized := true } := by
      rw [← hs₁, cycle_modifyCycle, hc]; rfl
    have hothers : ∀ e, e ≠ eid → s₁.cycle e = s.cycle e := fun e he => by
      rw [← hs₁, cycle_modifyCycle_of_ne _ _ _ _ he]
    have hlearned : s₁.learned eid ≠ 0 := by
      unfold State.learned
      rw [hc₁]
      exact hneed.2
    have hprios : s₁.pctPriorities = s.pctPriorities := by rw [← hs₁]; rfl
    have hdsq : s₁.groupDsq = s.groupDsq := by rw [← hs₁]; rfl
    have hctx : s₁.taskCtxMap = s.taskCtxMap := by rw [← hs₁]; rfl
    -- the other three algorithms keep no data
    have hplain : cfg.schedAlgorithm ≠ .pct → s₁.Ordered cfg := fun h =>
      hs.initialised hdsq hctx (hprios ▸ hs.slots) (hprios ▸ fun _ h => h) hothers hlearned
        fun h' => absurd h' h
    cases halgo : cfg.schedAlgorithm with
    | pct =>
      obtain ⟨hdepth, hstrata⟩ := hpct halgo
      obtain ⟨htable, hkept, hfilled⟩ := hs.slots.shufflePrios hdepth heid hstrata rng
      rw [algoInit, halgo]
      rw [initPct, hc₁]
      rw [hprios]
      exact hs.initialised hdsq hctx htable hkept hothers hlearned fun _ => hfilled
    | pos | rw | rp =>
      rw [algoInit, halgo]
      exact hplain (by rw [halgo]; exact SchedAlgo.noConfusion)
  · rw [initAlgorithm, hc, any_some, if_neg hneed]
    exact hs

/-- The cycle is in its warm-up: no event count is known. -/
def SchedCycle.warmingUp (c : SchedCycle) : Bool :=
  !c.algoInitialized && decide (c.expectedEventsPerCycle = 0)

/-- After the initialisation, only a cycle in its warm-up is not initialised. -/
theorem cycle_initAlgorithm (cfg : Config) (rng : Rng) (hc : s.cycle eid = some c) :
    ∃ c', (initAlgorithm cfg eid rng s).1.cycle eid = some c' ∧ c'.pctStrata = c.pctStrata ∧
      c'.algoInitialized = !c.warmingUp := by
  have hkeep : ∀ u : State, (algoInit cfg eid rng u).1.cycle eid = u.cycle eid := by
    intro u
    unfold algoInit
    split
    · unfold initPct
      split <;> rfl
    all_goals rfl
  rw [initAlgorithm, hc, any_some]
  split
  · rename_i hneed
    rw [SchedCycle.needInit, Bool.and_eq_true, decide_eq_true_eq] at hneed
    rw [hkeep, cycle_modifyCycle, hc]
    refine ⟨_, rfl, rfl, ?_⟩
    rw [SchedCycle.warmingUp, decide_eq_false hneed.2, Bool.and_false]
    rfl
  · rename_i hneed
    refine ⟨c, hc, rfl, ?_⟩
    cases hinit : c.algoInitialized <;>
      simp_all [SchedCycle.needInit, SchedCycle.warmingUp]

theorem pctPriorities_algoUpdatePriority (cfg : Config) (pid eid : Nat) (initialRun : Bool)
    (rng : Rng) (s : State) :
    (algoUpdatePriority cfg pid eid initialRun rng s).1.pctPriorities = s.pctPriorities := by
  unfold algoUpdatePriority
  split
  · split
    · rfl
    · exact (pctCall_updatePrioritiesPct cfg eid pid s).prios
  · unfold updatePrioritiesPos
    split <;> rfl
  · rfl
  · split <;> rfl

/-- The enqueued task is inserted under its new priority. -/
theorem State.Ordered.insert (hs : s.Ordered cfg) (eid : Nat) {u : State} {p : Nat} (halgo : AlgoStep s u)
    (hprios : u.pctPriorities = s.pctPriorities) (hrank : Reranks p s u)
    (hparked : ∀ e d, d ∈ s.groupDsq e → d.2 ≠ p) :
    (insertIntoCycleDsq p eid (insertPriority p u) u).Ordered cfg := by
  obtain ⟨t, ht, hpos⟩ := hrank.self
  have hprio : insertPriority p u = t.priority := by
    rw [insertPriority, ht]
    exact if_pos hpos
  rw [hprio]
  -- whatever was parked kept its priority
  have hold : ∀ e d, d ∈ u.groupDsq e →
      ∃ t, u.ctx d.2 = some t ∧ 0 < t.priority ∧ d.1 = u32Max - t.priority := by
    intro e d hd
    rw [halgo.dsq] at hd
    rw [hrank.parked e d hd (hparked e d hd)]
    exact hs.current e d hd
  have hsorted : ∀ e, VtimeQueue.Sorted (u.groupDsq e) := by
    rw [halgo.dsq]
    exact hs.sorted
  have hcycles : ∀ {α : Type} (g : SchedCycle → α), (∀ c, g c.sansStrata = g c) → ∀ e,
      (u.cycle e).map g = (s.cycle e).map g := by
    intro α g hg e
    have h := congrArg (Option.map g) (halgo.cycles e)
    rw [map_map, map_map] at h
    rwa [show g ∘ SchedCycle.sansStrata = g from funext hg] at h
  refine ⟨fun e => ?_, fun e d hd => ?_, hrank.range, hprios ▸ hs.slots, fun e he => ?_⟩
  · by_cases he : e = eid
    · subst he
      rw [insertIntoCycleDsq, groupDsq_setDsq]
      exact (hsorted e).insert _ _
    · rw [insertIntoCycleDsq, groupDsq_setDsq_of_ne _ _ _ _ he]
      exact hsorted e
  · by_cases he : e = eid
    · subst he
      rw [insertIntoCycleDsq, groupDsq_setDsq] at hd
      rcases VtimeQueue.mem_insert.mp hd with rfl | hd
      · exact ⟨t, ht, hpos, rfl⟩
      · exact hold e d hd
    · rw [insertIntoCycleDsq, groupDsq_setDsq_of_ne _ _ _ _ he] at hd
      exact hold e d hd
  · have hlearned : u.learned e = s.learned e :=
      congrArg (Option.getD · 0) (hcycles SchedCycle.expectedEventsPerCycle (fun _ => rfl) e)
    have hinit : u.initialised e = s.initialised e :=
      congrArg (Option.getD · false) (hcycles SchedCycle.algoInitialized (fun _ => rfl) e)
    obtain ⟨hl, hfilled⟩ := hs.ready e (hinit ▸ he)
    exact ⟨hlearned ▸ hl, hprios ▸ hfilled⟩

/-- An enqueue of `p` finds nobody parked whose priority it would rewrite, and
assigns `p` a positive one. -/
def State.SparesParked (cfg : Config) (s : State) (p : TaskStruct) (now : Nat) : Prop :=
  match cfg.schedAlgorithm with
  | .rw => s.groupDsq (identifyExecutorGroup p) = []
  | .rp => 0 < p.pid
  | .pos => ∀ q ∈ s.parkedIn (identifyExecutorGroup p), ∀ t t', s.ctx p.pid = some t →
      s.ctx q = some t' → racesWith t' (t.markEnqueued p now) = false
  | .pct => ∀ c, s.cycle (identifyExecutorGroup p) = some c → StrataInRange (c.pctStrata + 1) ∧
      (c.warmingUp = true → s.groupDsq (identifyExecutorGroup p) = [])

section Park
variable {p : TaskStruct} {t : TaskCtx}

/-- The algorithm, run for an enqueue that spares the parked tasks; `u` is the
state before it, in which the event is already counted. -/
theorem State.SparesParked.reranks {u : State} {now : Nat} (hspare : s.SparesParked cfg p now)
    (hu : u.Ordered cfg) (hload : cfg.DepthInRange) (ht : s.ctx p.pid = some t)
    (hte : t.eid = p.group) (hc : s.cycle p.group = some c)
    (hgroups : ∀ e d, d ∈ u.groupDsq e → ∃ t, u.ctx d.2 = some t ∧ t.eid = e)
    (hparked : ∀ e d, d ∈ u.groupDsq e → d.2 ≠ p.pid) (hdsq : u.groupDsq = s.groupDsq)
    (hself : u.ctx p.pid = some (t.markEnqueued p now))
    (hothers : ∀ q, q ≠ p.pid → u.ctx q = s.ctx q) {c' : SchedCycle}
    (hc' : u.cycle p.group = some c') (hstrata : c'.pctStrata = c.pctStrata)
    (hwarm : c'.algoInitialized = !c.warmingUp) (rng : Rng) :
    Reranks p.pid u (algoUpdatePriority cfg p.pid p.group
      (!c'.algoInitialized) rng u).1 := by
  unfold State.SparesParked at hspare
  unfold algoUpdatePriority
  cases halgo : cfg.schedAlgorithm with
  | rw =>
    rw [halgo, ← hdsq] at hspare
    exact reranks_updatePrioritiesRw hu hself hte hgroups hspare rng
  | rp =>
    rw [halgo] at hspare
    rw [if_pos hspare]
    exact reranks_updatePrioritiesRp hu hself rng
  | pos =>
    rw [halgo] at hspare
    refine reranks_updatePrioritiesPos hu hself hgroups (fun d hd t' ht' => ?_) rng
    rw [hothers d.2 (hparked _ d hd)] at ht'
    rw [hdsq] at hd
    exact hspare d.2 (List.mem_map_of_mem hd) t t' ht ht'
  | pct =>
    rw [halgo] at hspare
    obtain ⟨hrange, hempty⟩ := hspare c hc
    cases hinit : c'.algoInitialized with
    | false =>
      rw [hinit, eq_comm, Bool.not_eq_false'] at hwarm
      exact reranks_updatePrioritiesRw hu hself hte hgroups (hdsq ▸ hempty hwarm) rng
    | true =>
      have hready : u.initialised p.group = true := by
        rw [State.initialised, hc']
        exact hinit
      obtain ⟨hlearned, hfilled⟩ := hu.ready _ hready
      rw [State.learned, hc'] at hlearned
      exact reranks_updatePrioritiesPct hu hload hself hc' hlearned (hfilled halgo)
        (hstrata ▸ hrange)

/-- **An enqueue that spares the parked tasks keeps the queue in order.** -/
theorem State.Ordered.park (hs : s.Ordered cfg) (hload : cfg.DepthInRange)
    (heid : p.group < maxExecutorGroups) (ht : s.ctx p.pid = some t)
    (hj : t.joined = true) (hte : t.eid = p.group)
    (hc : s.cycle p.group = some c)
    (hgroups : ∀ e d, d ∈ s.groupDsq e → ∃ t, s.ctx d.2 = some t ∧ t.eid = e)
    (hparked : ∀ e d, d ∈ s.groupDsq e → d.2 ≠ p.pid) (now : Nat) (rng : Rng)
    (hspare : s.SparesParked cfg p now) :
    (parkParticipant cfg p p.group now rng s).Ordered cfg := by
  have hinit : (initAlgorithm cfg p.group rng s).1.Ordered cfg := by
    refine hs.afterInit heid hc (fun halgo => ⟨hload, ?_⟩) rng
    rw [State.SparesParked, halgo] at hspare
    exact (hspare c hc).1.mono (Nat.le_succ _)
  have hctx := taskCtxMap_initAlgorithm cfg p.group rng s
  obtain ⟨c', hcycle, hstrata, hwarm⟩ := cycle_initAlgorithm cfg rng hc
  have hdsq := (unseen_initAlgorithm cfg p.group rng s).dsq
  unfold parkParticipant
  dsimp only
  generalize initAlgorithm cfg p.group rng s = r at *
  have hsame : ∀ q, r.1.ctx q = s.ctx q := fun q => congrArg (Table.lookup q) hctx
  -- the event is counted
  have hcounted : ((r.1.modifyCtx p.pid (.markEnqueued p now)).modifyCycle
      p.group .countEnqueue).Ordered cfg := by
    refine (hinit.steady (steady_modifyCtx r.1 p.pid (.markEnqueued p now) fun t' ht' =>
      ⟨rfl, fun hi => ?_⟩)).steady (steady_modifyCycle _ _ .countEnqueue (fun _ => rfl)
        (fun _ => rfl) fun _ => rfl)
    rw [hsame, ht, some.injEq] at ht'
    rw [← ht'] at hi
    simp [TaskCtx.joined, hi] at hj
  have hself : (r.1.modifyCtx p.pid (.markEnqueued p now)).ctx p.pid =
      some (t.markEnqueued p now) := by
    rw [ctx_modifyCtx, hsame, ht]; rfl
  have hothers : ∀ q, q ≠ p.pid →
      (r.1.modifyCtx p.pid (.markEnqueued p now)).ctx q = s.ctx q := fun q hq => by
    rw [ctx_modifyCtx_of_ne _ _ _ _ hq, hsame]
  have hnext : ((r.1.modifyCtx p.pid (.markEnqueued p now)).modifyCycle
      p.group .countEnqueue).cycle p.group =
        some c'.countEnqueue := by
    rw [cycle_modifyCycle, cycle_modifyCtx, hcycle]; rfl
  have hparked' : ∀ e d, d ∈ r.1.groupDsq e → d.2 ≠ p.pid := fun e d hd =>
    hparked e d (hdsq ▸ hd)
  have hrank := hspare.reranks hcounted hload ht hte hc
    (fun e d hd => by
      obtain ⟨t', ht', he⟩ := hgroups e d (hdsq ▸ hd)
      exact ⟨t', (hothers d.2 (hparked' e d hd)).trans ht', he⟩)
    hparked' hdsq hself hothers hnext hstrata hwarm r.2
  have hrun : (((r.1.modifyCtx p.pid (.markEnqueued p now)).cycle p.group).any
      fun c => !c.algoInitialized) = !c'.countEnqueue.algoInitialized := by
    rw [cycle_modifyCtx, hcycle]; rfl
  rw [hrun]
  have hinsert := hcounted.insert p.group
    (algoStep_algoUpdatePriority ..) (pctPriorities_algoUpdatePriority ..) hrank hparked'
  split
  · exact hinsert.steady (steady_push ..)
  · exact hinsert

end Park

end Enqueue

/-! ## Whole runs -/

/-- An enqueue of a participant spares the tasks that are parked. -/
def Sys.SparesParked (cfg : Config) (x : Sys) (cb : Callback) : Prop :=
  ∀ p now rng, cb = .enqueue p now rng → x.phase p.pid ≠ .outside →
    x.bpf.SparesParked cfg p now

section Runs
variable {cfg : Config} {x y : Sys} {cb : Callback}

/-- A parked task has a context, of the group it is parked in. -/
theorem Sys.Placed.group_of_parked (hx : x.Placed) {e : Nat} {d : Nat × Nat}
    (hd : d ∈ x.bpf.groupDsq e) : ∃ t, x.bpf.ctx d.2 = some t ∧ t.eid = e := by
  obtain ⟨_, v, hv, he⟩ := (hx.queued e d.2).mp (List.mem_map_of_mem hd)
  obtain ⟨t, ht, rfl⟩ := view_eq_some.mp hv
  exact ⟨t, ht, he⟩

theorem Sys.Placed.ne_of_parked (hx : x.Placed) {p : TaskStruct} (hph : x.phase p.pid ≠ .parked)
    (e : Nat) (d : Nat × Nat) (hd : d ∈ x.bpf.groupDsq e) : d.2 ≠ p.pid := by
  rintro heq
  exact hx.not_parked hph e (heq ▸ List.mem_map_of_mem hd)

/-- **The queues stay in priority order** through every callback that spares the
parked tasks. -/
theorem State.Ordered.step (hload : cfg.DepthInRange) (hs : x.bpf.Ordered cfg) (hx : x.Placed)
    (hspare : x.SparesParked cfg cb) (h : x.step cfg cb = some y) : y.bpf.Ordered cfg := by
  have hstep := h
  obtain ⟨hallow, rfl⟩ := Sys.step_eq_some.mp h
  cases cb with
  | initTask p => exact hs.enrol (ensures_serialiseInitTask cfg p x.bpf).enrols
  | yield p =>
    obtain ⟨s₁, hreg, hsteady⟩ := enrols_serialiseYield cfg p x.bpf
    exact (hs.enrol hreg).steady hsteady
  | enqueue p now rng =>
    show (serialiseEnqueue cfg p now rng x.bpf).Ordered cfg
    by_cases hph : x.phase p.pid = .outside
    · exact hs.enrol (ensures_serialiseEnqueue cfg now rng (hx.outsider hph)).enrols
    obtain ⟨hkeep, hmem⟩ := Sys.allows_task hallow rfl
    obtain ⟨t, c, ht, hj, heid, hc, heq⟩ := hx.enqueue_participant cfg hallow hph
    have hnp : x.phase p.pid ≠ .parked := by
      intro hparked
      rw [hparked] at hmem
      simp [Callback.phases] at hmem
    rw [heq]
    split
    · exact hs
    · exact hs.park hload (heid ▸ (hx.known _ _ (view_of_ctx ht)).1) ht hj heid hc
        (fun _ _ hd => hx.group_of_parked hd) (hx.ne_of_parked hnp) now rng
        (hspare p now rng rfl hph)
  | exitTask p =>
    obtain ⟨_, hmem⟩ := Sys.allows_task hallow rfl
    have hnp : x.phase p.pid ≠ .parked := by
      intro hparked
      rw [hparked] at hmem
      simp [Callback.phases] at hmem
    exact hs.exit (exits_serialiseExitTask cfg p x.bpf) (hx.ne_of_parked hnp)
  | dequeue p | dispatch | runnable p | running p | quiescent p deqFlags | timer now =>
    exact hs.steady (steady_step rfl hstep)

theorem State.ordered_init (cfg : Config) : State.init.Ordered cfg where
  sorted _ := .nil
  current _ _ h := nomatch h
  range _ _ h := nomatch h
  slots := ⟨fun _ h => (nomatch h), fun _ _ h => (nomatch h)⟩
  ready _ h := nomatch h

/-- In an ordered queue the first task has the highest priority. -/
theorem State.Ordered.first_highest {s : State} (hs : s.Ordered cfg) {e q r : Nat} {tq tr : TaskCtx}
    (hmove : dispatchedTask s = some (e, q)) (hr : r ∈ s.parkedIn e) (htq : s.ctx q = some tq)
    (htr : s.ctx r = some tr) : tr.priority ≤ tq.priority := by
  -- the moved task is the head of the queue
  obtain ⟨v, rest, hdsq⟩ : ∃ v rest, s.groupDsq e = (v, q) :: rest := by
    unfold dispatchedTask at hmove
    split at hmove
    · cases hmove
    · split at hmove
      · rename_i d rest _ hdsq
        cases hmove
        exact ⟨d.1, rest, hdsq⟩
      · cases hmove
  obtain ⟨d, hd, rfl⟩ := List.mem_map.mp hr
  obtain ⟨t, ht, _, hvq⟩ := hs.current e (v, q) (hdsq ▸ List.mem_cons_self)
  obtain ⟨t', ht', _, hvr⟩ := hs.current e d hd
  rw [htq, some.injEq] at ht
  rw [htr, some.injEq] at ht'
  subst ht ht'
  have hle : v ≤ d.1 := by
    rw [hdsq] at hd
    rcases List.mem_cons.mp hd with rfl | hd
    · exact Nat.le_refl _
    · exact (hdsq ▸ hs.sorted e).head_le d hd
  obtain ⟨hmax, _⟩ := hs.range q tq htq
  obtain ⟨hmax', _⟩ := hs.range d.2 tr htr
  omega

/-- **The highest current priority runs next**: in every state reached by
callbacks of which no enqueue rewrites the priority of a parked task, the task
that a dispatch moves has the highest priority of all that are parked. -/
theorem highest_priority_next (hload : cfg.Loaded) {cbs : List Callback}
    (hspare : StepRuns.Along (Sys.step cfg) (Sys.SparesParked cfg) Sys.init cbs)
    (hrun : Sys.init.run cfg cbs = some x) {e q r : Nat} {tq tr : TaskCtx}
    (hmove : dispatchedTask x.bpf = some (e, q)) (hr : r ∈ x.bpf.parkedIn e)
    (htq : x.bpf.ctx q = some tq) (htr : x.bpf.ctx r = some tr) : tr.priority ≤ tq.priority := by
  have hx : x.Placed ∧ x.bpf.Ordered cfg :=
    StepRuns.invariant_along (I := fun x => x.Placed ∧ x.bpf.Ordered cfg)
      (fun _ _ _ hx hc h => ⟨placed_step hx.1 h,
        hx.2.step ⟨hload.one_le_depth, hload.depth_le⟩ hx.1 hc h⟩)
      ⟨Sys.placed_init, ordered_init cfg⟩ hspare hrun
  exact hx.2.first_highest hmove hr htq htr

end Runs

/-- Under random priorities two threads are parked with priorities 1 and 8, and
the dispatch moves the second. -/
theorem highest_priority_next_twoThreads :
    ∃ x tq tr, Sys.init.run ⟨2, 3, .rp⟩ [.yield (executorThread 5), .yield (executorThread 6),
        .enqueue (executorThread 5) 10 id, .enqueue (executorThread 6) 20 fun _ => 7] = some x ∧
      dispatchedTask x.bpf = some (0, 6) ∧ x.bpf.ctx 6 = some tq ∧ x.bpf.ctx 5 = some tr ∧
      tr.priority ≤ tq.priority := by
  obtain ⟨x, tq, tr, hrun, hmove, htq, htr, hr⟩ : ∃ x tq tr,
      Sys.init.run ⟨2, 3, .rp⟩ [.yield (executorThread 5), .yield (executorThread 6),
        .enqueue (executorThread 5) 10 id, .enqueue (executorThread 6) 20 fun _ => 7] = some x ∧
      dispatchedTask x.bpf = some (0, 6) ∧ x.bpf.ctx 6 = some tq ∧ x.bpf.ctx 5 = some tr ∧
      5 ∈ x.bpf.parkedIn 0 :=
    ⟨_, _, _, rfl, rfl, rfl, rfl, by decide⟩
  refine ⟨x, tq, tr, hrun, hmove, htq, htr,
    highest_priority_next ⟨by decide, by decide, by decide, by decide⟩ ?_ hrun hmove hr htq htr⟩
  refine ⟨fun _ _ _ h => (nomatch h), fun _ _ => ⟨fun _ _ _ h => (nomatch h), fun _ _ =>
    ⟨?_, fun _ _ => ⟨?_, fun _ _ => trivial⟩⟩⟩⟩
  · rintro p now rng h _
    cases h
    show 0 < 5
    decide
  · rintro p now rng h _
    cases h
    show 0 < 6
    decide

/-- A thread of an executor whose next access writes address 16. -/
def writerThread (pid : Nat) : TaskStruct :=
  { executorThread pid with rt := some ⟨rtMagic, 16, 1⟩ }

/-- The random walk redraws the priority of a task that is already parked, and
POS that of a task that races with the enqueued one; the dispatch then moves the
task that was the highest when it was inserted. -/
theorem highest_priority_next_fails :
    (∃ x tq tr, Sys.init.run ⟨2, 3, .rw⟩ [.yield (executorThread 5), .yield (executorThread 6),
        .enqueue (executorThread 5) 10 fun _ => 49, .enqueue (executorThread 6) 20 id] = some x ∧
      dispatchedTask x.bpf = some (0, 5) ∧ 6 ∈ x.bpf.parkedIn 0 ∧ x.bpf.ctx 5 = some tq ∧
      x.bpf.ctx 6 = some tr ∧ tq.priority < tr.priority) ∧
    ∃ x tq tr, Sys.init.run ⟨2, 3, .pos⟩ [.yield (writerThread 5), .yield (writerThread 6),
        .enqueue (writerThread 5) 10 fun _ => 49, .enqueue (writerThread 6) 20 id] = some x ∧
      dispatchedTask x.bpf = some (0, 5) ∧ 6 ∈ x.bpf.parkedIn 0 ∧ x.bpf.ctx 5 = some tq ∧
      x.bpf.ctx 6 = some tr ∧ tq.priority < tr.priority :=
  ⟨⟨_, _, _, rfl, rfl, by decide, rfl, rfl, by decide⟩,
    ⟨_, _, _, rfl, rfl, by decide, rfl, rfl, by decide⟩⟩

end Sect.Serialise
