import SectProof.PctStrata

/-! # PCT over a whole cycle

The demotions of a cycle are read off the states: an enqueue that parks a task of
the group in an initialised cycle demotes it if its event hits a change point.
Between two events the other callbacks run in any order; they leave the counters,
the points and the priorities alone, register tasks without a priority, or forget
a task.  `Stratified` is what all of this keeps: every initialised task has the
priority of its slot or of a demotion of its own, and no two demotions agree. -/

namespace Sect.Serialise

open Sys

/-! ## What the other callbacks keep -/

/-- What PCT reads besides the contexts and the slots. -/
structure PctData where
  counters : Nat → PctCounters
  points : Table Nat Nat

def State.pctData (s : State) : PctData := ⟨s.counters, s.pctChangePoints⟩

section Kept
variable (s : State)

theorem pctData_modifyCycle (eid : Nat) (f : SchedCycle → SchedCycle)
    (h : ∀ c, (f c).counters = c.counters) : (s.modifyCycle eid f).pctData = s.pctData := by
  have hcounters : (s.modifyCycle eid f).counters = s.counters := funext fun e =>
    congrArg (Option.getD · _) (s.cycle_map_modifyCycle eid h e)
  exact congrArg (PctData.mk · s.pctChangePoints) hcounters

theorem pctData_passive : PassiveRule fun s u => u.pctData = s.pctData where
  refl _ := rfl
  trans h h' := h'.trans h
  ctx _ _ _ _ := rfl
  cycle s eid f h := pctData_modifyCycle s eid f fun c =>
    congrArg (fun r => PctCounters.mk r.2.1 r.2.2.1 r.2.2.2.1 r.2.2.2.2) (h c)
  dsq _ _ _ _ := rfl
  queue _ _ := rfl

theorem pctData_ensureTaskCtx (cfg : Config) (p : TaskStruct) (eid : Nat) :
    (ensureTaskCtx cfg p eid s).1.pctData = s.pctData := by
  have hcreate : (getOrCreateSchedCycle cfg eid s).pctData = s.pctData := by
    rcases getOrCreateSchedCycle_cycle cfg eid s with heq | ⟨hnone, m, heq, hm⟩
    · rw [heq]
    -- a new cycle counts as the one that was not there
    have hcounters : (getOrCreateSchedCycle cfg eid s).counters = s.counters := by
      funext e
      have hcycle : (getOrCreateSchedCycle cfg eid s).cycle e =
          if e = eid then some (.fresh cfg) else s.cycle e := by
        rw [heq]
        exact hm e
      rw [State.counters, hcycle, State.counters]
      by_cases he : e = eid
      · rw [if_pos he, he, hnone]
        rfl
      · rw [if_neg he]
    rw [State.pctData, hcounters, heq]
    rfl
  have hassign : ∀ u : State, (assignDetId p eid u).2.pctData = u.pctData := by
    intro u
    rw [assignDetId]
    split
    · rfl
    · dsimp only
      split <;> exact pctData_modifyCycle u eid .drawDetId fun _ => rfl
  rw [ensureTaskCtx]
  split
  · rfl
  · dsimp only
    split
    · exact hcreate
    · split <;> exact (hassign _).trans hcreate

theorem Ensures.pctData {cfg : Config} {p : TaskStruct} {u : State} (h : Ensures cfg p s u) :
    u.pctData = s.pctData := by
  rcases h with rfl | ⟨-, rfl⟩
  · rfl
  · exact pctData_ensureTaskCtx s cfg p _

theorem pctData_serialiseYield (cfg : Config) (p : TaskStruct) :
    (serialiseYield cfg p s).pctData = s.pctData := by
  obtain ⟨s₁, hens, heq | ⟨t, c, -, -, -, -, ⟨-, heq⟩ | ⟨-, heq⟩⟩⟩ := serialiseYield_cases cfg p s
  · rw [heq]
    exact hens.pctData
  · rw [heq]
    exact hens.pctData
  · rw [heq]
    exact (pctData_modifyCycle _ _ .join fun _ => rfl).trans hens.pctData

/-- An exit keeps PCT's data or resets the counters of its group. -/
theorem pctData_serialiseExitTask (cfg : Config) (p : TaskStruct) :
    (serialiseExitTask cfg p s).pctData = s.pctData ∨
      ∃ u, u.pctData = s.pctData ∧
        serialiseExitTask cfg p s = resetCycleState cfg p.group u := by
  rw [serialiseExitTask, handleExecutorExit]
  dsimp only
  split
  · exact .inl rfl
  split
  · next c t hc ht =>
    split
    · exact .inl rfl
    have hkept := pctData_passive.gate (forgetTask p.pid s) p.group
      (.exit t.state t.isAsleep) (c.state = .timeout)
      (c.exit t.state t.isAsleep).dispatchableOnExit fun _ => rfl
    split
    · exact .inr ⟨_, hkept, rfl⟩
    · exact .inl hkept
  · exact .inl rfl

end Kept

/-! ## The demotions of a run -/

/-- A demotion: the task, the index of the change point, the event that hit it,
the stratum and the priority given. -/
structure Demotion where
  pid : Nat
  point : Nat
  event : Nat
  strata : Nat
  priority : Nat
  deriving DecidableEq, Repr

/-- The demotion in group `e` that a callback made, read off the state after it:
an enqueue parked the task in an initialised cycle and its event hits a point. -/
def Callback.demotion (cfg : Config) (e : Nat) (cb : Callback) (y : Sys) : Option Demotion :=
  match cb with
  | .enqueue p _ _ =>
    if identifyExecutorGroup p = e ∧ y.phase p.pid = .parked ∧ y.bpf.initialised e = true then
      (y.bpf.ctx p.pid).bind fun t =>
        (hitChangePoint cfg e (y.bpf.counters e).seen (y.bpf.counters e).expected y.bpf).map
          fun i => ⟨p.pid, i, (y.bpf.counters e).seen, (y.bpf.counters e).strata, t.priority⟩
    else none
  | _ => none

/-- The demotions in group `e` along a run, in order. -/
def Sys.demotions (cfg : Config) (e : Nat) : Sys → List Callback → List Demotion
  | _, [] => []
  | x, cb :: cbs =>
    match x.step cfg cb with
    | none => []
    | some y => (cb.demotion cfg e y).toList ++ Sys.demotions cfg e y cbs

/-! ## Callbacks that park nobody -/

/-- Every initialised task was there before, under the same identity and priority. -/
def TagsFrom (s u : State) : Prop :=
  ∀ q t, u.ctx q = some t → t.pctInitialized = true → ∃ t', s.ctx q = some t' ∧ t'.tag = t.tag

theorem TagsFrom.refl (s : State) : TagsFrom s s := fun _ t ht _ => ⟨t, ht, rfl⟩

variable {s u : State} {p : TaskStruct} {cfg : Config}

theorem TagsFrom.trans {w : State} (h : TagsFrom s u) (h' : TagsFrom u w) : TagsFrom s w := by
  intro q t ht hinit
  obtain ⟨t₁, ht₁, htag₁⟩ := h' q t ht hinit
  have hinit₁ : t₁.pctInitialized = true := (congrArg TaskTag.pctInitialized htag₁).trans hinit
  obtain ⟨t₂, ht₂, htag₂⟩ := h q t₁ ht₁ hinit₁
  exact ⟨t₂, ht₂, htag₂.trans htag₁⟩

theorem Steady.tagsFrom (h : Steady s u) : TagsFrom s u := fun _ _ ht _ =>
  h.ctx_some ht

theorem Enrols.tagsFrom {p eid : Nat} (h : Enrols p eid s u) : TagsFrom s u := by
  intro q t ht hinit
  by_cases hq : q = p
  · subst hq
    rcases h.ctx_self ht with hold | ⟨_, d, rfl⟩
    · exact ⟨t, hold, rfl⟩
    · cases hinit
  · exact ⟨t, h.ctx_of_ne hq ▸ ht, rfl⟩

/-- An exit adds nobody. -/
theorem Exits.tagsFrom (h : Exits cfg p s u) : TagsFrom s u := by
  have hforget : TagsFrom s (forgetTask p.pid s) := by
    intro q t ht _
    have hlook : (forgetTask p.pid s).ctx q = if q = p.pid then none else s.ctx q :=
      Table.lookup_erase p.pid q s.taskCtxMap
    rw [hlook] at ht
    split at ht
    · cases ht
    · exact ⟨t, ht, rfl⟩
  cases h with
  | same => exact .refl _
  | forgotten h _ | finished _ _ _ _ h _ => exact hforget.trans h.tagsFrom

theorem Exits.prios_eq (h : Exits cfg p s u) : u.pctPriorities = s.pctPriorities := by
  cases h with
  | same => rfl
  | forgotten h _ | finished _ _ _ _ h _ => exact h.prios

/-- If the task of an exit is still on record, the exit did nothing. -/
theorem Exits.ctx_self (h : Exits cfg p s u) {t : TaskCtx} (ht : u.ctx p.pid = some t) :
    s.ctx p.pid = some t := by
  have hnone : (forgetTask p.pid s).ctx p.pid = none := Table.lookup_erase_self ..
  cases h with
  | same => exact ht
  | forgotten _ hctx | finished _ _ _ _ _ hctx =>
    have hsame := congrArg (Table.lookup p.pid) hctx
    cases hnone.symm.trans (hsame.symm.trans ht)

/-- The counters of a group stay, or an exit resets its cycle. -/
def KeptOrReset (cfg : Config) (e : Nat) (s u : State) : Prop :=
  u.counters e = s.counters e ∨
    ∃ c, u.cycle e = some (SchedCycle.reset cfg c) ∧ c.counters = s.counters e

/-- A callback that parks nobody. -/
structure Calm (cfg : Config) (x y : Sys) : Prop where
  tags : TagsFrom x.bpf y.bpf
  prios : y.bpf.pctPriorities = x.bpf.pctPriorities
  points : y.bpf.pctChangePoints = x.bpf.pctChangePoints
  counters : ∀ e, KeptOrReset cfg e x.bpf y.bpf
  inside : ∀ q t, y.bpf.ctx q = some t → x.phase q ≠ .outside → y.phase q ≠ .outside

/-- An enqueue that parks a participant. -/
structure ParkStep (cfg : Config) (x y : Sys) (p : TaskStruct) (now : Nat) (rng : Rng)
    (t : TaskCtx) (c : SchedCycle) : Prop where
  task : x.bpf.ctx p.pid = some t
  group : t.eid = identifyExecutorGroup p
  joined : t.joined = true
  cycle : x.bpf.cycle (identifyExecutorGroup p) = some c
  state : y.bpf = parkParticipant cfg p (identifyExecutorGroup p) now rng x.bpf
  parked : y.phase p.pid = .parked
  others : ∀ q, q ≠ p.pid → y.phase q = x.phase q

section Steps
variable {cfg : Config} {x y : Sys} {cb : Callback}

variable {s u : State}

theorem keptOrReset_of_data (h : u.pctData = s.pctData) (e : Nat) : KeptOrReset cfg e s u :=
  .inl (congrFun (congrArg PctData.counters h) e)

variable {eid pid q : Nat} {ph : Phase}

theorem Enrols.prios_eq {p : Nat} (h : Enrols p eid s u) : u.pctPriorities = s.pctPriorities := by
  cases h with
  | same => rfl
  | full _ _ hdraw _ | new _ _ hdraw _ => exact hdraw.prios

theorem Enrols.dsq_eq {p : Nat} (h : Enrols p eid s u) : u.groupDsq = s.groupDsq := by
  cases h with
  | same => rfl
  | full _ _ hdraw _ | new _ _ hdraw _ => exact hdraw.dsq

/-- A participant stays in the cycle until it exits. -/
theorem Sys.moveTo_inside (hph : ph ≠ .outside) (hq : x.phase q ≠ .outside) :
    (x.moveTo s pid ph).phase q ≠ .outside := by
  by_cases hpq : q = pid
  · rw [hpq, moveTo_phase]
    exact hph
  · rw [x.moveTo_phase_of_ne s ph hpq]
    exact hq

theorem Sys.advance_inside_of (hph : ph ≠ .outside) (hq : x.phase q ≠ .outside) :
    (x.advance s pid ph).phase q ≠ .outside := by
  by_cases hout : x.phase pid = .outside
  · rw [x.advance_outside ph hout]
    exact hq
  · rw [x.advance_inside ph hout]
    exact moveTo_inside hph hq

theorem calm_passive (hcb : cb.passive = true) (h : x.step cfg cb = some y) : Calm cfg x y := by
  have hsteady := steady_step hcb h
  have hdata := pctData_passive.step hcb h
  refine ⟨hsteady.tagsFrom, hsteady.prios, congrArg PctData.points hdata,
    keptOrReset_of_data hdata, fun q _ _ hq => ?_⟩
  obtain ⟨-, rfl⟩ := step_eq_some.mp h
  cases cb with
  | initTask p | yield p | enqueue p now rng | exitTask p => cases hcb
  | dequeue p => exact advance_inside_of (by simp) hq
  | dispatch =>
    rw [Sys.deliver]
    split
    · exact hq
    · exact moveTo_inside (by simp) hq
  | runnable p =>
    rw [Sys.deliver]
    split
    · exact moveTo_inside (by simp) hq
    · exact hq
  | running p => exact advance_inside_of (by simp) hq
  | quiescent p deqFlags => exact advance_inside_of (by split <;> simp) hq
  | timer now => exact hq

theorem calm_exitTask {p : TaskStruct} (hy : y.Placed) (hx : x.Placed)
    (h : x.step cfg (.exitTask p) = some y) : Calm cfg x y := by
  obtain ⟨-, rfl⟩ := step_eq_some.mp h
  have hexit := exits_serialiseExitTask cfg p x.bpf
  refine ⟨hexit.tagsFrom, hexit.prios_eq, ?_, fun e => ?_, fun q t ht hq => ?_⟩
  · rcases pctData_serialiseExitTask x.bpf cfg p with hkept | ⟨u, hkept, heq⟩
    · exact congrArg PctData.points hkept
    · show (serialiseExitTask cfg p x.bpf).pctChangePoints = _
      rw [heq]
      exact congrArg PctData.points hkept
  · rcases pctData_serialiseExitTask x.bpf cfg p with hkept | ⟨u, hkept, heq⟩
    · exact keptOrReset_of_data hkept e
    have hcounters : u.counters e = x.bpf.counters e :=
      congrFun (congrArg PctData.counters hkept) e
    show (serialiseExitTask cfg p x.bpf).counters e = _ ∨
      ∃ c, (serialiseExitTask cfg p x.bpf).cycle e = _ ∧ _
    rw [heq, State.counters, resetCycleState]
    by_cases he : e = p.group
    · subst he
      rw [State.cycle_modifyCycle]
      cases hc : u.cycle p.group with
      | none =>
        refine .inl ?_
        rw [← hcounters, State.counters, hc]
        rfl
      | some c => exact .inr ⟨c, rfl, (State.counters_of_cycle hc).symm.trans hcounters⟩
    · rw [State.cycle_modifyCycle_of_ne _ _ _ _ he]
      exact .inl hcounters
  · by_cases hqp : q = p.pid
    · -- a participant that exits is forgotten
      subst hqp
      obtain ⟨t', ht', hj⟩ := hx.joined hq
      have hout := hy.outsider (x.moveTo_phase ..) t ht
      rw [hexit.ctx_self ht, Option.some.injEq] at ht'
      rw [ht', hj] at hout
      cases hout
    · show (x.moveTo (serialiseExitTask cfg p x.bpf) p.pid .outside).phase q ≠ .outside
      rw [x.moveTo_phase_of_ne _ _ hqp]
      exact hq

/-- **What a callback can do** to the data of PCT: nothing, or park a participant. -/
theorem step_calm_or_parks (hx : x.Placed) (h : x.step cfg cb = some y) :
    (Calm cfg x y ∧ ∀ e, cb.demotion cfg e y = none) ∨
      ∃ p now rng t c, cb = .enqueue p now rng ∧ ParkStep cfg x y p now rng t c := by
  have hy := placed_step hx h
  have hstep := h
  obtain ⟨hallow, rfl⟩ := step_eq_some.mp h
  cases cb with
  | initTask p =>
    have hens := ensures_serialiseInitTask cfg p x.bpf
    have hreg := hens.enrols
    have hdata := hens.pctData
    exact .inl ⟨⟨hreg.tagsFrom, hreg.prios_eq, congrArg PctData.points hdata,
      keptOrReset_of_data hdata, fun _ _ _ hq => hq⟩, fun _ => rfl⟩
  | yield p =>
    obtain ⟨s₁, hreg, hsteady⟩ := enrols_serialiseYield cfg p x.bpf
    have hdata := pctData_serialiseYield x.bpf cfg p
    refine .inl ⟨⟨hreg.tagsFrom.trans hsteady.tagsFrom, hsteady.prios.trans hreg.prios_eq,
      congrArg PctData.points hdata, keptOrReset_of_data hdata, fun q _ _ hq => ?_⟩,
      fun _ => rfl⟩
    by_cases hqp : q = p.pid
    · subst hqp
      show (x.moveTo _ p.pid (x.yieldedPhase p _)).phase p.pid ≠ _
      rw [moveTo_phase, Sys.yieldedPhase, if_neg (fun hand => hq hand.1)]
      exact hq
    · show (x.moveTo _ p.pid (x.yieldedPhase p _)).phase q ≠ _
      rw [x.moveTo_phase_of_ne _ _ hqp]
      exact hq
  | enqueue p now rng =>
    obtain ⟨-, hmem⟩ := allows_task hallow rfl
    have hnp : x.phase p.pid ≠ .parked := by
      intro hparked
      rw [hparked] at hmem
      simp [Callback.phases] at hmem
    -- a task that is not in the group's queue has made no demotion
    have hnone : ∀ ph : Phase, ph ≠ .parked → ∀ (s : State) (e : Nat),
        (Callback.enqueue p now rng).demotion cfg e (x.moveTo s p.pid ph) = none := by
      intro ph hph s e
      rw [Callback.demotion, if_neg]
      rintro ⟨-, hparked, -⟩
      rw [moveTo_phase] at hparked
      exact hph hparked
    rw [Sys.deliver]
    by_cases hph : x.phase p.pid = .outside
    · have hens := ensures_serialiseEnqueue cfg now rng (hx.outsider hph)
      have hreg := hens.enrols
      have hdata := hens.pctData
      have hphase : x.enqueuedPhase p (serialiseEnqueue cfg p now rng x.bpf) = .outside := by
        rw [Sys.enqueuedPhase, if_neg, if_pos hph]
        rw [any_parked, parkedIn_congr hreg.dsq_eq]
        exact hx.not_parked hnp _
      rw [hphase]
      refine .inl ⟨⟨hreg.tagsFrom, hreg.prios_eq, congrArg PctData.points hdata,
        keptOrReset_of_data hdata, fun q _ _ hq => ?_⟩, hnone _ (by simp) _⟩
      rw [x.moveTo_same _ hph]
      exact hq
    · obtain ⟨t, c, ht, hj, heid, hc, heq⟩ := hx.enqueue_participant cfg hallow hph
      rw [heq]
      by_cases hst : c.state = .timeout
      · -- the cycle has timed out: into the global queue
        rw [if_pos hst, Sys.enqueuedPhase, if_neg (by rw [any_parked]; exact hx.not_parked hnp _),
          if_neg hph]
        exact .inl ⟨⟨.refl _, rfl, rfl, fun _ => .inl rfl,
          fun q _ _ hq => moveTo_inside (by simp) hq⟩, hnone _ (by simp) _⟩
      · have hpark := parks_parkParticipant cfg now rng ht hc
        have hin := (hpark.mem_parkedIn _ _).mpr (.inl ⟨rfl, rfl⟩)
        rw [if_neg hst, Sys.enqueuedPhase, if_pos (any_parked.mpr hin)]
        exact .inr ⟨p, now, rng, t, c, rfl, ht, heid, hj, hc, rfl, x.moveTo_phase ..,
          fun q hq => x.moveTo_phase_of_ne _ _ hq⟩
  | exitTask p => exact .inl ⟨calm_exitTask hy hx hstep, fun _ => rfl⟩
  | dequeue p | dispatch | runnable p | running p | quiescent p deqFlags | timer now =>
    exact .inl ⟨calm_passive rfl hstep, fun _ => rfl⟩

end Steps

end Sect.Serialise
