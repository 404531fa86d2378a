import SectProof.PctPriorities

/-! # The priorities of a cycle are distinct and stratified

A stratum is entered when more events were seen than its laps have, so a change
point that is hit again, a lap later, finds the stratum moved on.  Together with
the ranges of the strata this makes all demotions of a cycle different, and
below the initial priorities. -/

open List Nat Option

namespace Sect.Serialise

/-! ## The invariant of an initialised cycle -/

/-- A demotion made in the cycle that group `e` is in. -/
structure Demotion.Made (cfg : Config) (e : Nat) (s : State) (d : Demotion) : Prop where
  point_lt : d.point < cfg.depth - 1
  priority_eq : d.priority = strataFloor d.strata + d.point + 1
  strata_le : d.strata ≤ (s.counters e).strata
  event_le : d.event ≤ (s.counters e).seen
  lap : (s.counters e).expected * d.strata < d.event
  hit : s.pctChangePoints.lookup (getCombinedChangepointKey e d.point) =
    some (d.event % (s.counters e).expected)

/-- An initialised cycle and its demotions so far. -/
structure Stratified (cfg : Config) (e : Nat) (s : State) (log : List Demotion) : Prop where
  range : StrataInRange (s.counters e).strata
  room : (s.counters e).seen + (s.counters e).expected < 2 ^ 32
  lap : (s.counters e).expected * (s.counters e).strata < (s.counters e).seen
  made : ∀ d ∈ log, d.Made cfg e s
  sorted : log.Pairwise fun d d' => d.strata ≤ d'.strata ∧ d.priority ≠ d'.priority
  tasks : ∀ q t, s.ctx q = some t → t.eid = e → t.pctInitialized = true →
    s.pctPriorities.lookup (getCombinedKey e t.detId) = some t.priority ∨
      ∃ d ∈ log, d.pid = q ∧ d.priority = t.priority

/-- The demotions so far belong to the cycle the group is in; before its
initialisation there are none. -/
structure Tracked (cfg : Config) (e : Nat) (s : State) (log : List Demotion) : Prop where
  fresh : s.initialised e = false → log = []
  stratified : s.initialised e = true → Stratified cfg e s log

/-- The bounds under which nothing wraps. -/
structure InBounds (e : Nat) (s : State) : Prop where
  range : StrataInRange (s.counters e).strata
  room : (s.counters e).seen + (s.counters e).expected < 2 ^ 32

section Invariant
variable {cfg : Config} {e pid : Nat} {s u : State} {log : List Demotion} {hit : Option Nat}

variable {d : Demotion} {i : Nat} {t : TaskCtx}

/-- A demotion stays one of the cycle while the counters grow and the points stay. -/
theorem Demotion.Made.keep (h : d.Made cfg e s) (hd : cfg.DepthInRange)
    (hstrata : (s.counters e).strata ≤ (u.counters e).strata)
    (hseen : (s.counters e).seen ≤ (u.counters e).seen)
    (hexpected : (u.counters e).expected = (s.counters e).expected)
    (hpoints : ∀ i, i < maxCycleThreads →
      u.pctChangePoints.lookup (getCombinedChangepointKey e i) =
        s.pctChangePoints.lookup (getCombinedChangepointKey e i)) :
    d.Made cfg e u where
  point_lt := h.point_lt
  priority_eq := h.priority_eq
  strata_le := h.strata_le.trans hstrata
  event_le := h.event_le.trans hseen
  lap := hexpected ▸ h.lap
  hit := by
    have hlt := h.point_lt
    have hdepth := hd.2
    rw [hpoints d.point (by omega), hexpected]
    exact h.hit

theorem Stratified.untouched (hs : Stratified cfg e s log) (hd : cfg.DepthInRange)
    (h : Untouched e s u) : Stratified cfg e u log where
  range := h.counters ▸ hs.range
  room := h.counters ▸ hs.room
  lap := h.counters ▸ hs.lap
  made d hmem := (hs.made d hmem).keep hd (by rw [h.counters]) (by rw [h.counters])
    (by rw [h.counters]) h.points
  sorted := hs.sorted
  tasks q t ht he hassigned := by
    obtain ⟨t', ht', htag⟩ := h.tags q t ht he hassigned
    have hid : t'.detId = t.detId := congrArg TaskTag.detId htag
    have hprio : t'.priority = t.priority := congrArg TaskTag.priority htag
    have hold := hs.tasks q t' ht' ((congrArg TaskTag.eid htag).trans he)
      ((congrArg TaskTag.pctInitialized htag).trans hassigned)
    rw [hid, hprio] at hold
    rw [h.slots]
    exact hold

/-- What an event finds: an initialised cycle, or a fresh one. -/
structure EventCounts (e : Nat) (s u : State) : Prop where
  seen : (u.counters e).seen = (s.counters e).seen + 1
  lap : (s.counters e).expected * (s.counters e).strata ≤ (s.counters e).seen
  room : (s.counters e).expected * ((s.counters e).strata + 1) < 2 ^ 32

theorem PctEvent.counts (h : PctEvent cfg e pid s u hit) (hs : GroupReady cfg e s)
    (ht : Tracked cfg e s log) (hu : InBounds e u) : EventCounts e s u := by
  have hexpected := h.expected_ne
  have hroom := hu.room
  rw [h.expected] at hexpected hroom
  obtain ⟨hlap, hwrap⟩ : (s.counters e).expected * (s.counters e).strata ≤ (s.counters e).seen ∧
      (s.counters e).seen + 1 < 2 ^ 32 := by
    cases hinit : s.initialised e with
    | true =>
      have hstrat := ht.stratified hinit
      have hroom' := hstrat.room
      exact ⟨le_of_lt hstrat.lap, by omega⟩
    | false =>
      obtain ⟨hstrata, hseen, -⟩ := hs.fresh hinit
      rw [hstrata, hseen hexpected]
      exact ⟨le_refl _, by decide⟩
  have hseen : (u.counters e).seen = (s.counters e).seen + 1 := by
    rw [h.seen, mod_eq_of_lt hwrap]
  refine ⟨hseen, hlap, ?_⟩
  rw [mul_succ]
  omega

/-- The stratum does not decrease, and is entered only after its laps. -/
theorem PctEvent.strata (h : PctEvent cfg e pid s u hit) (hc : EventCounts e s u) :
    (s.counters e).strata ≤ (u.counters e).strata ∧
      (u.counters e).expected * (u.counters e).strata < (u.counters e).seen ∧
      ((u.counters e).strata = (s.counters e).strata → hit ≠ none →
        (u.counters e).seen ≤ (u.counters e).expected * ((u.counters e).strata + 1)) := by
  have hlap := hc.lap
  have hseen := hc.seen
  rw [h.expected]
  by_cases hhit : hit = none
  · rw [h.spared hhit]
    exact ⟨le_refl _, by omega, fun _ hne => absurd hhit hne⟩
  have hnext := h.advanced hhit
  rw [h.expected, nextStrata_spec hc.room (one_le_iff_ne_zero.mpr
    (h.expected ▸ h.expected_ne))] at hnext
  split at hnext
  · next hlate =>
      rw [hnext]
      exact ⟨le_succ _, hlate, fun heq => absurd heq (succ_ne_self _)⟩
  · next hlate =>
      rw [hnext]
      exact ⟨Nat.le_refl _, by omega, fun _ _ => Nat.le_of_not_lt hlate⟩

/-- The point that is hit. -/
theorem PctEvent.point (h : PctEvent cfg e pid s u (some i)) :
    i < cfg.depth - 1 ∧ u.pctChangePoints.lookup (getCombinedChangepointKey e i) =
      some ((u.counters e).seen % (u.counters e).expected) := by
  have hfind := h.hits
  exact ⟨mem_range.mp (mem_of_find?_eq_some hfind), by
    simpa using find?_some hfind⟩

/-- The earlier demotions stay demotions of the cycle. -/
theorem PctEvent.made_keep (h : PctEvent cfg e pid s u hit) (hd : cfg.DepthInRange)
    (hc : EventCounts e s u) (ht : Tracked cfg e s log) (hmem : d ∈ log) :
    d.Made cfg e u ∧ d.Made cfg e s := by
  cases hinit : s.initialised e with
  | false =>
    rw [ht.fresh hinit] at hmem
    cases hmem
  | true =>
    have hmade := (ht.stratified hinit).made d hmem
    refine ⟨hmade.keep hd (h.strata hc).1 (by rw [hc.seen]; omega) h.expected ?_, hmade⟩
    intro i _
    rw [h.points hinit]

/-- **A change point does not give the same priority twice**: when it is hit again
a lap has passed, and the stratum moves on. -/
theorem PctEvent.priority_ne (h : PctEvent cfg e pid s u (some i)) (hd : cfg.DepthInRange)
    (hc : EventCounts e s u) (ht : Tracked cfg e s log) (hu : InBounds e u) (hmem : d ∈ log) :
    d.priority ≠ strataFloor (u.counters e).strata + i + 1 := by
  intro heq
  obtain ⟨hmade, hmade'⟩ := h.made_keep hd hc ht hmem
  obtain ⟨hmono, hlap, hstay⟩ := h.strata hc
  obtain ⟨hi, hpoint⟩ := h.point
  have hdepth := hd.2
  have hdi := hmade.point_lt
  rw [hmade.priority_eq] at heq
  obtain ⟨hstrata, hindex⟩ := strata_inj (hu.range.mono hmade.strata_le) hu.range
    (show d.point < maxCycleThreads by omega) (show i < maxCycleThreads by omega) heq
  -- the same stratum: so the event came before the end of its laps
  have hle := hmade'.strata_le
  have hlate := hstay (by omega) (some_ne_none i)
  -- the same point: so a whole lap lies between the two events
  have hhit := hmade.hit
  rw [hindex, hpoint, some.injEq] at hhit
  have hbefore : d.event < (u.counters e).seen := by
    have hevent := hmade'.event_le
    have hseen := hc.seen
    omega
  have hgap : d.event + (u.counters e).expected ≤ (u.counters e).seen :=
    Nat.ModEq.add_le_of_lt (Eq.symm hhit) hbefore
  have hstart := hmade.lap
  rw [hstrata] at hstart
  rw [mul_succ] at hlate
  omega

/-- The tasks other than the one of the event keep their priorities. -/
theorem PctEvent.tasks_of_ne (h : PctEvent cfg e pid s u hit) (hs : GroupReady cfg e s)
    (ht : Tracked cfg e s log) {q : Nat} (hq : q ≠ pid) (htq : u.ctx q = some t) (he : t.eid = e)
    (hassigned : t.pctInitialized = true) :
    u.pctPriorities.lookup (getCombinedKey e t.detId) = some t.priority ∨
      ∃ d ∈ log, d.pid = q ∧ d.priority = t.priority := by
  rw [h.others q hq] at htq
  cases hinit : s.initialised e with
  | true =>
    rw [h.slots hinit]
    exact (ht.stratified hinit).tasks q t htq he hassigned
  | false =>
    rw [(hs.fresh hinit).2.2 q t htq he] at hassigned
    cases hassigned

/-- The task of an event that hits no point has the priority it had, or its slot's. -/
theorem PctEvent.tasks_self (h : PctEvent cfg e pid s u none) (hs : GroupReady cfg e s)
    (ht : Tracked cfg e s log) (htq : u.ctx pid = some t) :
    u.pctPriorities.lookup (getCombinedKey e t.detId) = some t.priority ∨
      ∃ d ∈ log, d.pid = pid ∧ d.priority = t.priority := by
  obtain ⟨t₀, t', v, ht₀, he, ht', hslot, hspared, -⟩ := h.task
  rw [htq, some.injEq] at ht'
  subst ht'
  have htag := hspared rfl
  have hid : t.detId = t₀.detId := by
    have hd := congrArg TaskTag.detId htag
    rw [TaskCtx.withSlot] at hd
    split at hd <;> exact hd
  have hprio : t.priority = (t₀.withSlot v).priority := congrArg TaskTag.priority htag
  cases hassigned : t₀.pctInitialized with
  | false =>
    rw [TaskCtx.withSlot, hassigned] at hprio
    rw [hid, hslot, hprio]
    exact .inl rfl
  | true =>
    rw [TaskCtx.withSlot, hassigned] at hprio
    rw [hid, hprio]
    cases hinit : s.initialised e with
    | true =>
      rw [h.slots hinit]
      exact (ht.stratified hinit).tasks pid t₀ ht₀ he hassigned
    | false =>
      rw [(hs.fresh hinit).2.2 pid t₀ ht₀ he] at hassigned
      cases hassigned

/-- The demotions so far are in order. -/
theorem Tracked.sorted (ht : Tracked cfg e s log) :
    log.Pairwise fun d d' => d.strata ≤ d'.strata ∧ d.priority ≠ d'.priority := by
  cases hinit : s.initialised e with
  | true => exact (ht.stratified hinit).sorted
  | false =>
    rw [ht.fresh hinit]
    exact .nil

/-- An event that hits no point. -/
theorem Tracked.spared (ht : Tracked cfg e s log) (h : PctEvent cfg e pid s u none)
    (hs : GroupReady cfg e s) (hd : cfg.DepthInRange) (hu : InBounds e u) :
    Stratified cfg e u log := by
  have hc := h.counts hs ht hu
  refine ⟨hu.range, hu.room, (h.strata hc).2.1, fun d hmem => (h.made_keep hd hc ht hmem).1,
    ht.sorted, fun q t htq he hassigned => ?_⟩
  by_cases hq : q = pid
  · subst hq
    exact h.tasks_self hs ht htq
  · exact h.tasks_of_ne hs ht hq htq he hassigned

/-- The priority of a demoted task. -/
theorem PctEvent.demoted_priority (h : PctEvent cfg e pid s u (some i)) (hu : InBounds e u)
    (ht : u.ctx pid = some t) : t.priority = strataFloor (u.counters e).strata + i + 1 := by
  obtain ⟨t₀, t', v, -, -, ht', -, -, hdemoted⟩ := h.task
  rw [ht, some.injEq] at ht'
  rw [ht']
  exact congrArg TaskTag.priority (hdemoted i rfl hu.range)

/-- **An event that demotes its task.** -/
theorem Tracked.demoted (ht : Tracked cfg e s log) (h : PctEvent cfg e pid s u (some i))
    (htu : u.ctx pid = some t) (hs : GroupReady cfg e s) (hd : cfg.DepthInRange)
    (hu : InBounds e u) :
    Stratified cfg e u
      (log ++ [⟨pid, i, (u.counters e).seen, (u.counters e).strata, t.priority⟩]) := by
  have hc := h.counts hs ht hu
  have hprio := h.demoted_priority hu htu
  obtain ⟨hmono, hlap, -⟩ := h.strata hc
  obtain ⟨hi, hpoint⟩ := h.point
  refine ⟨hu.range, hu.room, hlap, fun d hmem => ?_, ?_, fun q t' htq he hassigned => ?_⟩
  · rcases mem_append.mp hmem with hold | hnew
    · exact (h.made_keep hd hc ht hold).1
    · obtain rfl := mem_singleton.mp hnew
      exact ⟨hi, hprio, le_refl _, le_refl _, hlap, hpoint⟩
  · refine pairwise_append.mpr ⟨ht.sorted, pairwise_singleton _ _, ?_⟩
    intro d hold d' hnew
    obtain rfl := mem_singleton.mp hnew
    refine ⟨(h.made_keep hd hc ht hold).1.strata_le, ?_⟩
    rw [hprio]
    exact h.priority_ne hd hc ht hu hold
  · by_cases hq : q = pid
    · subst hq
      rw [htu, some.injEq] at htq
      exact .inr ⟨_, mem_append_right _ (mem_singleton_self _), rfl, htq ▸ rfl⟩
    · rcases h.tasks_of_ne hs ht hq htq he hassigned with hslot | ⟨d, hold, hpid, hp⟩
      · exact .inl hslot
      · exact .inr ⟨d, mem_append_left _ hold, hpid, hp⟩

/-- **One step of a group**, inside its cycle and within the bounds. -/
theorem Tracked.step (ht : Tracked cfg e s log) {o : Option Demotion} (h : PctStep cfg e s u o)
    (hs : GroupReady cfg e s) (hd : cfg.DepthInRange)
    (hstay : s.initialised e = true → u.initialised e = true)
    (hu : u.initialised e = true → InBounds e u) :
    Tracked cfg e u (log ++ o.toList) ∧ (s.counters e).strata ≤ (u.counters e).strata := by
  cases h with
  | untouched h =>
    have hinit := initialised_congr h.counters
    rw [toList_none, append_nil]
    refine ⟨⟨fun hu' => ht.fresh (hinit ▸ hu'), fun hu' => ?_⟩, by rw [h.counters]⟩
    exact (ht.stratified (hinit ▸ hu')).untouched hd h
  | idle hu' _ =>
    have hfresh : s.initialised e = false := by
      rw [Bool.eq_false_iff]
      intro hinit
      rw [hstay hinit] at hu'
      cases hu'
    rw [toList_none, append_nil, ht.fresh hfresh, (hs.fresh hfresh).1]
    refine ⟨⟨fun _ => rfl, fun hinit => ?_⟩, zero_le _⟩
    rw [hu'] at hinit
    cases hinit
  | spared h =>
    have hb := hu h.initialised
    rw [toList_none, append_nil]
    refine ⟨⟨fun hu' => ?_, fun _ => ht.spared h hs hd hb⟩, (h.strata (h.counts hs ht hb)).1⟩
    rw [h.initialised] at hu'
    cases hu'
  | demoted h htu =>
    have hb := hu h.initialised
    refine ⟨⟨fun hu' => ?_, fun _ => ht.demoted h htu hs hd hb⟩,
      (h.strata (h.counts hs ht hb)).1⟩
    rw [h.initialised] at hu'
    cases hu'

end Invariant

/-! ## Whole cycles -/

/-- The participants of group `e` have ids that are distinct modulo the number of
slots. -/
def State.DistinctIds (s : State) (e : Nat) : Prop :=
  ∀ q r t t', s.ctx q = some t → s.ctx r = some t' → t.eid = e → t'.eid = e →
    t.joined = true → t'.joined = true →
    t.detId % maxCycleThreads = t'.detId % maxCycleThreads → q = r

/-- The callback stays in the cycle of group `e` that has been initialised, if it
has; the participants have distinct ids and the counters are in their bounds. -/
def Sys.WithinCycle (cfg : Config) (e : Nat) (x : Sys) (cb : Callback) : Prop :=
  ∀ y, x.step cfg cb = some y →
    (x.bpf.initialised e = true → y.bpf.initialised e = true) ∧
    (y.bpf.initialised e = true → InBounds e y.bpf ∧ y.bpf.DistinctIds e)

/-- The priorities of group `e` are distinct and stratified. -/
structure PctStratified (cfg : Config) (e : Nat) (s : State) (log : List Demotion) : Prop where
  distinct : ∀ q r t t', s.ctx q = some t → s.ctx r = some t' → t.eid = e → t'.eid = e →
    t.pctInitialized = true → t'.pctInitialized = true → q ≠ r → t.priority ≠ t'.priority
  range : ∀ q t, s.ctx q = some t → t.eid = e → t.pctInitialized = true →
    1 ≤ t.priority ∧ t.priority ≤ s32Max
  unwrapped : ∀ q t, s.ctx q = some t → t.eid = e → t.pctInitialized = true →
    (∃ k, k < maxCycleThreads ∧
      (t.priority : Int) = (s32Max : Int) - 2 * maxCycleThreads + cfg.depth + k) ∨
    ∃ d ∈ log, d.pid = q ∧ d.priority = t.priority
  demotion_unwrapped : ∀ d ∈ log, d.point < cfg.depth - 1 ∧
    (d.priority : Int) = (s32Max : Int) - (d.strata + 2) * maxCycleThreads + d.point + 1
  below_initial : ∀ d ∈ log, ∀ k v, s.pctPriorities.lookup (getCombinedKey e k) = some v →
    d.priority < v
  below_earlier : ∀ d ∈ log, ∀ d' ∈ log, d.strata < d'.strata → d'.priority < d.priority
  strata_sorted : log.Pairwise fun d d' => d.strata ≤ d'.strata
  values_nodup : (log.map Demotion.priority).Nodup

section Cycles
variable {cfg : Config} {e : Nat} {x y : Sys}

variable {s : State} {log : List Demotion}

/-- A demotion lies in the range of its stratum. -/
theorem Demotion.Made.unwrapped {d : Demotion} (h : d.Made cfg e s) (hb : InBounds e s) :
    (d.priority : Int) = (s32Max : Int) - (d.strata + 2) * maxCycleThreads + d.point + 1 := by
  have hfloor := strataFloor_add (hb.range.mono h.strata_le)
  rw [h.priority_eq, ← hfloor]
  push_cast
  omega

/-- What the invariant says at the end of a run. -/
theorem Stratified.result (h : Stratified cfg e s log) (hd : cfg.DepthInRange)
    (heid : e < maxExecutorGroups) (hslots : SlotsShuffled cfg 0 s.pctPriorities e)
    (hjoined : ∀ q t, s.ctx q = some t → t.pctInitialized = true → t.joined = true)
    (hids : s.DistinctIds e) : PctStratified cfg e s log := by
  have hb : InBounds e s := ⟨h.range, h.room⟩
  have hzero := strataFloor_add strataInRange_zero
  have hdepth := hd.2
  have hlow := hd.1
  have hfloors : ∀ d ∈ log, strataFloor d.strata ≤ strataFloor 0 := by
    intro d hmem
    have hfloor := strataFloor_add (h.range.mono (h.made d hmem).strata_le)
    simp only [maxCycleThreads] at *
    omega
  have hbelow : ∀ d ∈ log, ∀ k v, s.pctPriorities.lookup (getCombinedKey e k) = some v →
      d.priority < v := by
    intro d hmem k v hv
    obtain ⟨v', hv', hle, -⟩ := hslots.assign k
    rw [hv, some.injEq] at hv'
    have hprio := (h.made d hmem).priority_eq
    have hpoint := (h.made d hmem).point_lt
    have hfloor := hfloors d hmem
    omega
  have hnodup : (log.map Demotion.priority).Nodup :=
    pairwise_map.mpr (h.sorted.imp fun hp => hp.2)
  refine ⟨fun q r t t' hq hr he he' ha ha' hne heq => ?_, fun q t hq he ha => ?_,
    fun q t hq he ha => ?_, fun d hmem => ⟨(h.made d hmem).point_lt, (h.made d hmem).unwrapped hb⟩,
    hbelow, fun d hmem d' hmem' hlt => ?_, h.sorted.imp fun hp => hp.1,
    hnodup⟩
  · -- two slots, a slot and a demotion, or two demotions
    rcases h.tasks q t hq he ha with hslot | ⟨d, hmem, hpid, hp⟩ <;>
      rcases h.tasks r t' hr he' ha' with hslot' | ⟨d', hmem', hpid', hp'⟩
    · have hkey := hslots.inj t.detId t'.detId (by rw [hslot, hslot', heq])
      exact hne (hids q r t t' hq hr he he' (hjoined q t hq ha) (hjoined r t' hr ha')
        (getCombinedKey_inj heid heid hkey).2)
    · have hlt := hbelow d' hmem' _ _ hslot
      omega
    · have hlt := hbelow d hmem _ _ hslot'
      omega
    · refine hne ?_
      rw [← hpid, ← hpid', inj_on_of_nodup_map hnodup hmem hmem' (by omega)]
  · rcases h.tasks q t hq he ha with hslot | ⟨d, hmem, -, hp⟩
    · obtain ⟨v, hv, hle, hlt⟩ := hslots.assign t.detId
      rw [hslot, some.injEq] at hv
      omega
    · have hprio := (h.made d hmem).priority_eq
      have hpoint := (h.made d hmem).point_lt
      have hfloor := hfloors d hmem
      omega
  · rcases h.tasks q t hq he ha with hslot | hlog
    · obtain ⟨k, hk, hv⟩ := hslots.value t.detId
      rw [hslot, some.injEq] at hv
      refine .inl ⟨k, hk, ?_⟩
      omega
    · exact .inr hlog
  · have hi := (h.made d' hmem').point_lt
    rw [(h.made d hmem).priority_eq, (h.made d' hmem').priority_eq]
    exact strata_lt hlt (h.range.mono (h.made d' hmem').strata_le)
      (show d'.point < maxCycleThreads by omega)

/-- A group that is not initialised has no demotions and no priorities. -/
theorem Tracked.result_fresh (h : Tracked cfg e s log) (hs : GroupReady cfg e s)
    (hfresh : s.initialised e = false) : PctStratified cfg e s log := by
  have hnone := (hs.fresh hfresh).2.2
  have hno : ∀ {q t}, s.ctx q = some t → t.eid = e → t.pctInitialized = true → False := by
    intro q t hq he ha
    rw [hnone q t hq he] at ha
    cases ha
  rw [h.fresh hfresh]
  exact ⟨fun _ _ _ _ hq _ he _ ha _ _ => (hno hq he ha).elim, fun _ _ hq he ha =>
    (hno hq he ha).elim, fun _ _ hq he ha => (hno hq he ha).elim, fun _ h => (nomatch h),
    fun _ h => (nomatch h), fun _ h => (nomatch h), .nil, .nil⟩

/-- The invariant along a run from a state with the demotions `log`. -/
theorem Tracked.run (hload : cfg.Loaded) (hpct : cfg.schedAlgorithm = .pct)
    (heid : e < maxExecutorGroups) {cbs : List Callback} (hx : x.PctReady cfg)
    (ht : Tracked cfg e x.bpf log)
    (hcycle : StepRuns.Along (Sys.step cfg) (Sys.WithinCycle cfg e) x cbs)
    (hrun : x.run cfg cbs = some y) :
    y.PctReady cfg ∧ Tracked cfg e y.bpf (log ++ x.demotions cfg e cbs) ∧
      (x.bpf.counters e).strata ≤ (y.bpf.counters e).strata := by
  have hd : cfg.DepthInRange := ⟨hload.one_le_depth, hload.depth_le⟩
  induction cbs generalizing x log with
  | nil =>
    cases hrun
    rw [Sys.demotions, append_nil]
    exact ⟨hx, ht, le_refl _⟩
  | cons cb cbs ih =>
    obtain ⟨z, hz, hrest⟩ := StepRuns.run_cons_some hrun
    obtain ⟨hzready, hsteps⟩ := hx.step hload hpct hz
    obtain ⟨hstay, hbounds⟩ := hcycle.1 z hz
    obtain ⟨hzt, hle⟩ := ht.step (hsteps e heid) (hx.groups e heid) hd hstay
      fun hinit => (hbounds hinit).1
    obtain ⟨hy, hyt, hle'⟩ := ih hzready hzt (hcycle.2 z hz) hrest
    rw [append_assoc] at hyt
    rw [Sys.demotions, hz]
    exact ⟨hy, hyt, hle.trans hle'⟩

/-- The participants have distinct ids at the end of a run whose steps all say so. -/
theorem distinctIds_of_run {cbs : List Callback}
    (hcycle : StepRuns.Along (Sys.step cfg) (Sys.WithinCycle cfg e) x cbs)
    (hrun : x.run cfg cbs = some y) (hfresh : x.bpf.initialised e = false)
    (hinit : y.bpf.initialised e = true) : y.bpf.DistinctIds e := by
  have hlast : y.bpf.initialised e = true → y.bpf.DistinctIds e :=
    StepRuns.invariant_along (I := fun z => z.bpf.initialised e = true → z.bpf.DistinctIds e)
      (fun _ _ z _ hwithin hz hz' => ((hwithin z hz).2 hz').2)
      (fun hx => by rw [hfresh] at hx; cases hx) hcycle hrun
  exact hlast hinit

/-- **PCT priorities are distinct and stratified.**  From any reachable state in
which the algorithm of group `e` is not yet initialised, along every run of
callbacks that stays in the cycle and its bounds: the initialised tasks have
distinct priorities in `[1, S32_MAX]`, the demotions lie below the initial
priorities and below those of an earlier stratum, no two demotions agree, and the
stratum never decreases. -/
theorem pct_priorities_stratified (hload : cfg.Loaded) (hpct : cfg.schedAlgorithm = .pct)
    (heid : e < maxExecutorGroups) {before cbs : List Callback}
    (hbefore : Sys.init.run cfg before = some x) (hfresh : x.bpf.initialised e = false)
    (hcycle : StepRuns.Along (Sys.step cfg) (Sys.WithinCycle cfg e) x cbs)
    (hrun : x.run cfg cbs = some y) :
    PctStratified cfg e y.bpf (x.demotions cfg e cbs) ∧
      ∀ first rest z, cbs = first ++ rest → x.run cfg first = some z →
        (z.bpf.counters e).strata ≤ (y.bpf.counters e).strata := by
  have hd : cfg.DepthInRange := ⟨hload.one_le_depth, hload.depth_le⟩
  have hx : x.PctReady cfg :=
    StepRuns.invariant (I := Sys.PctReady cfg) (fun _ _ _ hx h => (hx.step hload hpct h).1)
      (Sys.pctReady_init hload) hbefore
  have hstart : Tracked cfg e x.bpf [] := by
    refine ⟨fun _ => rfl, fun hinit => ?_⟩
    rw [hfresh] at hinit
    cases hinit
  constructor
  · obtain ⟨hy, hyt, -⟩ := hstart.run hload hpct heid hx hcycle hrun
    cases hinit : y.bpf.initialised e with
    | false => exact hyt.result_fresh (hy.groups e heid) hinit
    | true =>
      refine (hyt.stratified hinit).result hd heid ((hy.groups e heid).shuffled hinit).2 ?_
        (distinctIds_of_run hcycle hrun hfresh hinit)
      intro q t hq ha
      obtain ⟨t', ht', hj⟩ := hy.sound.placed.joined (hy.inside q t hq ha)
      rw [hq, some.injEq] at ht'
      rw [ht', hj]
  · rintro first rest z rfl hfirst
    -- the run is the one to `z` and one from there
    obtain ⟨hcycle', hcycle''⟩ := StepRuns.Along.append hcycle
    obtain ⟨hz, hzt, -⟩ := hstart.run hload hpct heid hx hcycle' hfirst
    rw [Sys.run] at hrun hfirst
    rw [StepRuns.run_append, hfirst, bind_some] at hrun
    exact (hzt.run hload hpct heid hz (hcycle'' z hfirst) hrun).2.2

end Cycles

/-! ## A cycle of three events -/

/-- The condition on the steps of a cycle can be computed. -/
def Sys.withinCycle (cfg : Config) (e : Nat) (x : Sys) (cb : Callback) : Bool :=
  (x.step cfg cb).all fun y =>
    (!x.bpf.initialised e || y.bpf.initialised e) &&
    (!y.bpf.initialised e ||
      (decide (((y.bpf.counters e).strata + 2) * maxCycleThreads ≤ s32Max) &&
        decide ((y.bpf.counters e).seen + (y.bpf.counters e).expected < 2 ^ 32) &&
        y.bpf.taskCtxMap.entries.all fun a => y.bpf.taskCtxMap.entries.all fun b =>
          decide (a.2.detId % maxCycleThreads = b.2.detId % maxCycleThreads → a.1 = b.1)))

theorem Sys.withinCycle_sound {cfg : Config} {e : Nat} {x : Sys} {cb : Callback}
    (h : x.withinCycle cfg e cb = true) : x.WithinCycle cfg e cb := by
  intro y hy
  rw [Sys.withinCycle, hy, all_some, Bool.and_eq_true] at h
  refine ⟨fun hx => ?_, fun hinit => ?_⟩
  · simpa [hx] using h.1
  have hrest := h.2
  rw [hinit, Bool.not_true, Bool.false_or, Bool.and_eq_true, Bool.and_eq_true, decide_eq_true_eq,
    decide_eq_true_eq, List.all_eq_true] at hrest
  refine ⟨⟨hrest.1.1, hrest.1.2⟩, fun q r t t' hq hr _ _ _ _ hid => ?_⟩
  have hall := all_eq_true.mp (hrest.2 _ (Table.mem_entries_iff.mpr hq)) _
    (Table.mem_entries_iff.mpr hr)
  exact of_decide_eq_true hall hid

/-- A warm-up of two threads with two events. -/
def warmUp : List Callback :=
  [.yield (executorThread 5), .yield (executorThread 6), .enqueue (executorThread 5) 10 (fun _ => 49),
    .enqueue (executorThread 6) 10 id, .dispatch, .running (executorThread 5),
    .quiescent (executorThread 5) scxDeqSleep, .exitTask (executorThread 5), .dispatch,
    .running (executorThread 6), .quiescent (executorThread 6) scxDeqSleep,
    .exitTask (executorThread 6)]

/-- A cycle in which thread 5 is demoted at the first event and thread 6 at the
third, one lap later. -/
def threeEvents : List Callback :=
  [.yield (executorThread 7), .yield (executorThread 8),
    .enqueue (executorThread 7) 20 (fun _ => 0), .enqueue (executorThread 8) 30 id, .dispatch,
    .running (executorThread 8), .enqueue (executorThread 8) 40 id]

/-- The two demotions hit the same change point, in the strata 0 and 1. -/
theorem pct_priorities_stratified_threeEvents :
    ∃ x y, Sys.init.run ⟨2, 3, .pct⟩ warmUp = some x ∧ x.run ⟨2, 3, .pct⟩ threeEvents = some y ∧
      x.demotions ⟨2, 3, .pct⟩ 0 threeEvents =
        [⟨7, 0, 1, 0, 2147483248⟩, ⟨8, 0, 3, 1, 2147483048⟩] ∧
      PctStratified ⟨2, 3, .pct⟩ 0 y.bpf (x.demotions ⟨2, 3, .pct⟩ 0 threeEvents) := by
  have hrun : ((Sys.init.run ⟨2, 3, .pct⟩ warmUp).bind fun x =>
      (x.run ⟨2, 3, .pct⟩ threeEvents).map fun _ => (x.demotions ⟨2, 3, .pct⟩ 0 threeEvents,
        x.bpf.initialised 0, StepRuns.check (Sys.step ⟨2, 3, .pct⟩)
          (Sys.withinCycle ⟨2, 3, .pct⟩ 0) x threeEvents)) =
      some ([⟨7, 0, 1, 0, 2147483248⟩, ⟨8, 0, 3, 1, 2147483048⟩], false, true) := by
    decide +kernel
  obtain ⟨x, hx, hrest⟩ := bind_eq_some_iff.mp hrun
  obtain ⟨y, hy, hdata⟩ := map_eq_some_iff.mp hrest
  rw [Prod.mk.injEq, Prod.mk.injEq] at hdata
  obtain ⟨hdemotions, hfresh, hcheck⟩ := hdata
  have hcycle : StepRuns.Along (Sys.step ⟨2, 3, .pct⟩) (Sys.WithinCycle ⟨2, 3, .pct⟩ 0) x
      threeEvents := StepRuns.Along.of_check (fun _ _ => Sys.withinCycle_sound) hcheck
  exact ⟨x, y, hx, hy, hdemotions, (pct_priorities_stratified
    ⟨by decide, by decide, by decide, by decide⟩ rfl (by decide) hx hfresh hcycle hy).1⟩

end Sect.Serialise
