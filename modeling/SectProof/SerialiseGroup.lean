import SectProof.SerialisePlacement

/-! # One group, counted

The accounting of a group is about numbers of tasks.  A `Group` is the gate of
its cycle together with the number of participants in each phase; an `Event`
moves one participant and lets the cycle account it.  `group_step` is the
simulation: every step of the system is one event of each group, and is idle for
all groups but the one of the task it is about. -/

open Table

namespace Sect.Serialise

open State Sys

/-! ## Placement is kept -/

section Placed
variable {cfg : Config} {x y : Sys} {cb : Callback} {p eid : Nat} {ev : Event}
  {v : Option TaskView} {ph : Phase}

/-- A participant that is awake may go to any phase that says nothing of its
standing. -/
theorem Fits.move {w : TaskView} {a b : Phase} (h : Fits (some w) a) (hj : w.joined = true)
    (ha : a ≠ .asleep) (hb : b = .detached ∨ b = .global) : Fits (some w) b := by
  obtain ⟨e, st, asleep⟩ := w
  cases st with
  | registered | ignored => cases hj
  | enqueued | running =>
    refine ⟨by rcases hb with rfl | rfl <;> simp, ?_⟩
    have hs := h.2
    rcases hb with rfl | rfl <;> simp_all

theorem Interprets.fits (hx : x.Placed) (h : Interprets cfg x cb p eid ev v ph) : Fits v ph := by
  cases h with
  | outside hout hv =>
    rcases hv with rfl | rfl | ⟨st, q, rfl | rfl, _, rfl⟩
    · have := hx.fits p
      rwa [hout] at this
    · rfl
    · exact ⟨rfl, rfl⟩
    · exact ⟨rfl, rfl⟩
  | still => exact hx.fits p
  | join hout _ _ | park hv hj hph _ => exact ⟨by simp, by simp⟩
  | pass hv hj hph _ =>
    refine .move (hv ▸ hx.fits _) hj ?_ (.inr rfl)
    intro h; rw [h] at hph; simp at hph
  | detach hcb hv hj hph =>
    refine .move (hv ▸ hx.fits _) hj ?_ (.inl rfl)
    intro h; rw [h] at hph; simp at hph
  | @move _ _ _ w hq hv heid hph =>
    have hfit := hx.fits p
    obtain ⟨e, st, asleep⟩ := w
    cases st <;> simp_all [Fits]
  | empty hq hd | drop hq hc => exact hx.fits p
  | @wake q w hv hj hph =>
    have hfit := hx.fits q.pid
    obtain ⟨e, st, asleep⟩ := w
    cases st <;> simp_all [Fits]
  | run hv hj hph => exact ⟨by simp, by simp⟩
  | @sleep q fl t hfl ht hj hph =>
    unfold TaskCtx.joined at hj
    cases hst : t.state <;> simp_all [Fits, ThreadState.standing]
  | exit ht hj hph => rfl

theorem Moved.placed (hx : x.Placed) (hm : Moved cfg x y p eid ev v ph) (hfit : Fits v ph) :
    y.Placed where
  fits q := by
    by_cases hq : q = p
    · subst hq
      rw [hm.view, hm.phase]
      exact hfit
    · rw [hm.views q hq, hm.phases q hq]
      exact hx.fits q
  known q w hw := by
    by_cases hq : q = p
    · subst hq
      exact hm.known w (hm.view ▸ hw)
    · rw [hm.views q hq] at hw
      obtain ⟨hvalid, hsome⟩ := hx.known q w hw
      exact ⟨hvalid, hm.cycles _ hsome⟩
  queued e q := by
    by_cases hq : q = p
    · subst hq
      rw [hm.view, hm.phase]
      exact hm.self e
    · rw [hm.parked e q hq, hm.views q hq, hm.phases q hq]
      exact hx.queued e q
  nodup := hm.nodup

theorem Sys.Placed.timer (hx : x.Placed) (now : Nat) :
    Sys.Placed ⟨dispatchTimerFn now x.bpf, x.phase⟩ := by
  obtain ⟨hview, hdsq, hcycle⟩ := dispatchTimerFn_effect now x.bpf
  refine ⟨fun q => ?_, fun q w hw => ?_, fun e q => ?_, fun e => ?_⟩
  · rw [hview]; exact hx.fits q
  · rw [hview] at hw
    obtain ⟨hvalid, hsome⟩ := hx.known q w hw
    refine ⟨hvalid, ?_⟩
    rcases hcycle w.eid with h | h
    · rw [h]; exact hsome
    · rw [h, Option.isSome_map]; exact hsome
  · rw [parkedIn_congr hdsq, hview]; exact hx.queued e q
  · rw [parkedIn_congr hdsq]; exact hx.nodup e

/-- **Placement is an invariant** of every delivered callback. -/
theorem placed_step (hx : x.Placed) (h : x.step cfg cb = some y) : y.Placed := by
  rcases step_interprets hx h with ⟨now, rfl, rfl⟩ | ⟨p, eid, ev, v, ph, hi, hm⟩
  · exact hx.timer now
  · exact hm.placed hx (hi.fits hx)

end Placed

/-! ## Populations -/

instance : Fintype Phase where
  elems := {.outside, .yielded, .parked, .dispatched, .onCpu, .asleep, .waking, .detached, .global}
  complete ph := by cases ph <;> decide

theorem Phase.sum_univ (f : Phase → Nat) :
    ∑ ph, f ph = f .outside + f .yielded + f .parked + f .dispatched + f .onCpu + f .asleep +
      f .waking + f .detached + f .global := by
  show ∑ ph ∈ ({.outside, .yielded, .parked, .dispatched, .onCpu, .asleep, .waking, .detached,
    .global} : Finset Phase), f ph = _
  simp only [Finset.sum_insert, Finset.mem_insert, Finset.mem_singleton, Finset.sum_singleton,
    reduceCtorEq, or_self, not_false_eq_true]
  omega

/-- One member moves from `a` to `b`; `none` is outside the population. -/
def Population.shift (a b : Option Phase) (pop : Phase → Nat) (ph : Phase) : Nat :=
  pop ph - (if a = some ph then 1 else 0) + (if b = some ph then 1 else 0)

/-- The phase of a participant of group `e`. -/
def Sys.member (x : Sys) (e q : Nat) : Option Phase :=
  (x.bpf.view q).bind fun v => if v.eid = e ∧ v.joined = true then some (x.phase q) else none

/-- The number of participants of group `e` in a phase. -/
def Sys.pop (x : Sys) (e : Nat) (ph : Phase) : Nat :=
  x.bpf.taskCtxMap.count fun q t => t.eid = e && t.joined && x.phase q = ph

section Populations
variable {x y : Sys} {e p q : Nat}

theorem Sys.member_of_ctx {t : TaskCtx} (ht : x.bpf.ctx q = some t) :
    x.member e q = if t.eid = e ∧ t.joined = true then some (x.phase q) else none := by
  rw [Sys.member, view_of_ctx ht, Option.bind_some, t.joined_view]
  rfl

theorem Sys.member_of_none (ht : x.bpf.ctx q = none) : x.member e q = none := by
  rw [Sys.member, view_eq_none.mpr ht, Option.bind_none]

theorem Sys.holdsAt_pop (ph : Phase) :
    x.bpf.taskCtxMap.holdsAt (fun q t => t.eid = e && t.joined && x.phase q = ph) q =
      decide (x.member e q = some ph) := by
  unfold Table.holdsAt
  cases ht : x.bpf.ctx q with
  | none =>
    rw [show x.bpf.taskCtxMap.lookup q = none from ht, member_of_none ht]
    rfl
  | some t =>
    rw [show x.bpf.taskCtxMap.lookup q = some t from ht, member_of_ctx ht, Option.any_some]
    by_cases he : t.eid = e <;> cases hj : t.joined <;> simp [he, hj]

theorem Sys.pop_pos {ph : Phase} (h : x.member e q = some ph) : 0 < x.pop e ph := by
  refine count_pos.mpr ⟨q, ?_⟩
  rw [holdsAt_pop, decide_eq_true h]

theorem Sys.pop_pos_iff {ph : Phase} : 0 < x.pop e ph ↔ ∃ q, x.member e q = some ph := by
  refine ⟨fun h => ?_, fun ⟨q, h⟩ => pop_pos h⟩
  obtain ⟨q, hq⟩ := count_pos.mp h
  rw [holdsAt_pop] at hq
  exact ⟨q, of_decide_eq_true hq⟩

/-- When only `p` changes, the population shifts by what `p` does. -/
theorem Sys.pop_shift (h : ∀ q, q ≠ p → y.member e q = x.member e q) :
    y.pop e = Population.shift (x.member e p) (y.member e p) (x.pop e) := by
  funext ph
  have hmove := count_move (t := x.bpf.taskCtxMap) (u := y.bpf.taskCtxMap)
    (P := fun q t => t.eid = e && t.joined && x.phase q = ph)
    (Q := fun q t => t.eid = e && t.joined && y.phase q = ph) p fun q hq => by
      rw [holdsAt_pop, holdsAt_pop, h q hq]
  rw [holdsAt_pop, holdsAt_pop] at hmove
  have hpos : x.member e p = some ph → 0 < x.pop e ph := pop_pos
  unfold Population.shift
  change y.pop e ph + _ = x.pop e ph + _ at hmove
  by_cases hb : x.member e p = some ph
  · have := hpos hb
    rw [decide_eq_true hb] at hmove
    rw [if_pos hb]
    by_cases ha : y.member e p = some ph <;> simp [ha] at hmove ⊢ <;> omega
  · rw [decide_eq_false hb] at hmove
    rw [if_neg hb]
    by_cases ha : y.member e p = some ph <;> simp [ha] at hmove ⊢ <;> omega

theorem Sys.pop_congr (h : ∀ q, y.member e q = x.member e q) : y.pop e = x.pop e := by
  funext ph
  exact count_congr fun q => by rw [holdsAt_pop, holdsAt_pop, h q]

theorem Sys.member_congr (hview : y.bpf.view q = x.bpf.view q) (hphase : y.phase q = x.phase q) :
    y.member e q = x.member e q := by
  rw [Sys.member, Sys.member, hview, hphase]

/-- Nobody outside a cycle is counted. -/
theorem Sys.Placed.pop_outside (hx : x.Placed) (e : Nat) : x.pop e .outside = 0 := by
  refine Nat.eq_zero_of_not_pos fun h => ?_
  obtain ⟨q, hq⟩ := pop_pos_iff.mp h
  cases ht : x.bpf.ctx q with
  | none => rw [member_of_none ht] at hq; cases hq
  | some t =>
    rw [member_of_ctx ht] at hq
    split at hq
    · rename_i hj
      exact absurd hj.2 (by rw [hx.outsider (Option.some.inj hq) t ht]; simp)
    · cases hq

/-- The participants of a group, counted by phase. -/
theorem Sys.Placed.count_joined (hx : x.Placed) (e : Nat) :
    (x.bpf.taskCtxMap.count fun _ t => t.eid = e && t.joined) =
      x.pop e .yielded + x.pop e .parked + x.pop e .dispatched + x.pop e .onCpu +
        x.pop e .asleep + x.pop e .waking + x.pop e .detached + x.pop e .global := by
  rw [count_eq_sum fun q _ => x.phase q, Phase.sum_univ]
  have h0 := hx.pop_outside e
  unfold Sys.pop at *
  omega

/-- The sleepers of a group are its participants asleep. -/
theorem Sys.Placed.count_asleep (hx : x.Placed) (e : Nat) :
    (x.bpf.taskCtxMap.count fun _ t => t.eid = e && t.isAsleep) = x.pop e .asleep := by
  refine count_congr fun q => ?_
  rw [holdsAt_pop]
  unfold Table.holdsAt
  cases ht : x.bpf.ctx q with
  | none =>
    rw [show x.bpf.taskCtxMap.lookup q = none from ht, member_of_none ht]
    rfl
  | some t =>
    rw [show x.bpf.taskCtxMap.lookup q = some t from ht, member_of_ctx ht, Option.any_some]
    have hiff := hx.asleep_iff ht
    by_cases hph : x.phase q = .asleep
    · obtain ⟨t', ht', hj⟩ := hx.joined (q := q) (by rw [hph]; simp)
      rw [ht, Option.some.injEq] at ht'
      subst ht'
      simp [hiff.mpr hph, hj, hph]
    · have hfalse : t.isAsleep = false := by
        rw [Bool.eq_false_iff]; exact fun h => hph (hiff.mp h)
      simp [hfalse, hph]

/-- The queue of a group holds its parked participants. -/
theorem Sys.Placed.length_dsq (hx : x.Placed) (e : Nat) :
    (x.bpf.groupDsq e).length = x.pop e .parked := by
  have hcard : (x.bpf.parkedIn e).length = (x.bpf.parkedIn e).toFinset.card :=
    (List.toFinset_card_of_nodup (hx.nodup e)).symm
  rw [← List.length_map (f := Prod.snd)]
  change (x.bpf.parkedIn e).length = _
  rw [hcard, Sys.pop, ← card_keysWhere]
  congr 1
  ext q
  rw [List.mem_toFinset, hx.queued e q, mem_keysWhere, holdsAt_pop, decide_eq_true_eq]
  constructor
  · rintro ⟨hph, w, hw, hwe⟩
    obtain ⟨t, ht, hj⟩ := hx.joined (q := q) (by rw [hph]; simp)
    rw [view_of_ctx ht, Option.some.injEq] at hw
    rw [member_of_ctx ht, if_pos ⟨by rw [← hwe, ← hw]; rfl, hj⟩, hph]
  · intro hm
    cases ht : x.bpf.ctx q with
    | none => rw [member_of_none ht] at hm; cases hm
    | some t =>
      rw [member_of_ctx ht] at hm
      split at hm
      · rename_i hj
        exact ⟨Option.some.inj hm, t.view, view_of_ctx ht, hj.1⟩
      · cases hm

end Populations

/-! ## The simulation -/

/-- A group: the gate of its cycle, and how many participants are where. -/
structure Group where
  cycle : SchedCycle
  pop : Phase → Nat

namespace Group

/-- The group after an event. -/
def apply (cfg : Config) (g : Group) (ev : Event) : Group :=
  ⟨(ev.account cfg g.cycle).gate, Population.shift ev.source ev.target g.pop⟩

/-- What an event presupposes of the phases and the cycle's state. -/
def Enabled (g : Group) : Event → Prop
  | .join => g.cycle.state = .unavailable
  | .park ph => ph ∈ [Phase.yielded, .onCpu, .waking, .detached] ∧ g.cycle.state ≠ .timeout
  | .pass ph => ph ∈ [Phase.yielded, .onCpu, .waking, .detached] ∧ g.cycle.state = .timeout
  | .detach ph => ph ∈ [Phase.parked, .dispatched, .global, .onCpu, .detached]
  | .empty => g.pop .parked = 0
  | .run ph => ph ∈ [Phase.dispatched, .global]
  | .sleep ph st => ph ∈ [Phase.onCpu, .parked, .dispatched, .global] ∧
      (ph = .parked → st.standing = .enqueued) ∧ (ph = .onCpu → st.standing = .running)
  | .exit ph _ asleep => ph ∈ [Phase.asleep, .detached] ∧ (asleep = true ↔ ph = .asleep)
  | .idle | .move | .drop | .wake | .expire => True

/-- The event can happen in the group: somebody is in the phase it leaves. -/
structure Allows (g : Group) (ev : Event) : Prop where
  populated : ∀ ph, ev.source = some ph → 0 < g.pop ph
  enabled : g.Enabled ev

end Group

/-- Group `e` of the system. -/
def Sys.group (cfg : Config) (x : Sys) (e : Nat) : Group := ⟨x.bpf.gate cfg e, x.pop e⟩

/-- What happened to group `e`: the event is that of the callback if the callback
is about the group, and idle otherwise. -/
inductive SeenBy (cfg : Config) (x : Sys) (cb : Callback) (e : Nat) : Event → Prop
  | idle : SeenBy cfg x cb e .idle
  | event {p ev v ph} (h : Interprets cfg x cb p e ev v ph) : SeenBy cfg x cb e ev
  | expire {now} (h : cb = .timer now) : SeenBy cfg x cb e .expire

section Simulation
variable {cfg : Config} {x y : Sys} {cb : Callback} {p eid : Nat} {ev : Event}
  {v : Option TaskView} {ph : Phase}

theorem Population.shift_none (pop : Phase → Nat) : Population.shift none none pop = pop := by
  funext ph
  simp [Population.shift]

theorem Group.apply_idle (g : Group) (h : g.cycle.gate = g.cycle) : g.apply cfg .idle = g := by
  obtain ⟨c, pop⟩ := g
  show Group.mk c.gate (Population.shift none none pop) = _
  exact congrArg (Group.mk · pop) h

variable {q : Nat} {w : TaskView}

theorem Sys.member_of_view {e : Nat} (hv : x.bpf.view q = some w) (hj : w.joined = true) :
    x.member e q = if e = w.eid then some (x.phase q) else none := by
  rw [Sys.member, hv, Option.bind_some]
  by_cases he : e = w.eid
  · rw [if_pos he, if_pos ⟨he.symm, hj⟩]
  · rw [if_neg he, if_neg fun h => he h.1.symm]

theorem Sys.Placed.member_outside (hx : x.Placed) (hout : x.phase q = .outside) (e : Nat) :
    x.member e q = none := by
  cases ht : x.bpf.ctx q with
  | none => exact member_of_none ht
  | some t => rw [member_of_ctx ht, if_neg (by rw [hx.outsider hout t ht]; simp)]

/-- Members before and after the step of a task of group `eid`: both `none` for
the other groups. -/
def OfGroup (eid : Nat) (m : Nat → Option Phase) (a : Option Phase) : Prop :=
  ∀ e, m e = if e = eid then a else none

theorem Moved.ofGroup (hm : Moved cfg x y p eid ev (some w) ph) (hj : w.joined = true)
    (heid : w.eid = eid) : OfGroup eid (fun e => y.member e p) (some ph) := fun e => by
  show y.member e p = _
  rw [member_of_view hm.view hj, heid, hm.phase]

theorem Sys.ofGroup (hv : x.bpf.view q = some w) (hj : w.joined = true) :
    OfGroup w.eid (fun e => x.member e q) (some (x.phase q)) := fun _ => member_of_view hv hj

/-- Who is where, for the task a step is about. -/
theorem Interprets.member (hx : x.Placed) (hi : Interprets cfg x cb p eid ev v ph)
    (hm : Moved cfg x y p eid ev v ph) :
    (ev.source = none ∧ ev.target = none ∧ ∀ e, y.member e p = x.member e p) ∨
    (OfGroup eid (fun e => x.member e p) ev.source ∧
      OfGroup eid (fun e => y.member e p) ev.target) := by
  have hsame : v = x.bpf.view p → ph = x.phase p → ∀ e, y.member e p = x.member e p :=
    fun h1 h2 e => member_congr (hm.view.trans h1) (hm.phase.trans h2)
  cases hi with
  | outside hout hv =>
    refine .inl ⟨rfl, rfl, fun e => ?_⟩
    have hi : Interprets cfg x cb p eid .idle v .outside := .outside hout hv
    have hy := hm.placed hx (hi.fits hx)
    rw [hx.member_outside hout, hy.member_outside hm.phase]
  | still | empty hq hd | drop hq hc => exact .inl ⟨rfl, rfl, hsame rfl rfl⟩
  | join hout hvalid hopen =>
    refine .inr ⟨fun e => ?_, hm.ofGroup rfl rfl⟩
    show x.member e _ = _
    rw [hx.member_outside hout]
    exact (ite_self _).symm
  | park hv hj hph hopen => exact .inr ⟨Sys.ofGroup hv hj, hm.ofGroup rfl rfl⟩
  | pass hv hj hph hover | detach hcb hv hj hph => exact .inr ⟨Sys.ofGroup hv hj, hm.ofGroup hj rfl⟩
  | @move _ _ _ w hq hv heid hph =>
    have hj : w.joined = true := by
      obtain ⟨t, ht, hj⟩ := hx.joined (q := p) (by rw [hph]; simp)
      rw [view_of_ctx ht, Option.some.injEq] at hv
      rw [← hv, t.joined_view, hj]
    have hb := Sys.ofGroup hv hj
    rw [hph, heid] at hb
    exact .inr ⟨hb, hm.ofGroup hj heid⟩
  | @wake q w hv hj hph =>
    have hb := Sys.ofGroup hv hj
    rw [hph] at hb
    exact .inr ⟨hb, hm.ofGroup hj rfl⟩
  | run hv hj hph => exact .inr ⟨Sys.ofGroup hv hj, hm.ofGroup rfl rfl⟩
  | @sleep q fl t hfl ht hj hph =>
    have hjv : t.view.joined = true := by rw [t.joined_view, hj]
    exact .inr ⟨Sys.ofGroup (view_of_ctx ht) hjv, hm.ofGroup hjv rfl⟩
  | @exit q t ht hj hph =>
    have hjv : t.view.joined = true := by rw [t.joined_view, hj]
    refine .inr ⟨Sys.ofGroup (view_of_ctx ht) hjv, fun e => ?_⟩
    show y.member e _ = _
    rw [member_of_none (view_eq_none.mp hm.view)]
    exact (ite_self _).symm

/-- The event of a step can happen in its group. -/
theorem Interprets.allows (hx : x.Placed) (hi : Interprets cfg x cb p eid ev v ph)
    (hm : Moved cfg x y p eid ev v ph) : (x.group cfg eid).Allows ev := by
  refine ⟨fun a ha => ?_, ?_⟩
  · rcases hi.member hx hm with ⟨hs, _, _⟩ | ⟨hs, _⟩
    · rw [hs] at ha; cases ha
    · refine pop_pos (q := p) ?_
      have := hs eid
      rwa [if_pos rfl, ha] at this
  · cases hi with
    | outside hout hv | still => trivial
    | join hout hvalid hopen => exact hopen
    | park hv hj hph hopen => exact ⟨hph, hopen⟩
    | pass hv hj hph hover => exact ⟨hph, hover⟩
    | detach hcb hv hj hph => exact hph
    | move hq hv heid hph => trivial
    | empty hq hd =>
      show x.pop eid .parked = 0
      rw [← hx.length_dsq, hd]; rfl
    | drop hq hc | wake hv hj hph => trivial
    | run hv hj hph => exact hph
    | @sleep q fl t hfl ht hj hph =>
      have hfit := hx.fits q.pid
      rw [view_of_ctx ht] at hfit
      unfold TaskCtx.view at hfit
      refine ⟨hph, fun h => ?_, fun h => ?_⟩
      all_goals
        cases hst : t.state <;> simp_all [Fits, ThreadState.standing]
    | exit ht hj hph => exact ⟨hph, hx.asleep_iff ht⟩

/-- **The simulation.**  Every step is an event of each group that the group
allows, and leaves the group as the event says. -/
theorem group_step (hx : x.Placed) (h : x.step cfg cb = some y) (e : Nat) :
    ∃ ev, SeenBy cfg x cb e ev ∧ (x.group cfg e).Allows ev ∧
      y.group cfg e = (x.group cfg e).apply cfg ev := by
  have hidle : (x.group cfg e).apply cfg .idle = x.group cfg e := Group.apply_idle _ rfl
  rcases step_interprets hx h with ⟨now, rfl, rfl⟩ | ⟨p, eid, ev, v, ph, hi, hm⟩
  · obtain ⟨hview, _, hcycle⟩ := dispatchTimerFn_effect now x.bpf
    have hpop : Sys.pop ⟨dispatchTimerFn now x.bpf, x.phase⟩ e = x.pop e :=
      pop_congr fun q => member_congr (hview q) rfl
    have hcase : (dispatchTimerFn now x.bpf).gate cfg e = x.bpf.gate cfg e ∨
        (dispatchTimerFn now x.bpf).gate cfg e = ((x.bpf.gate cfg e).push true).gate := by
      rcases hcycle e with hc | hc
      · exact .inl (by rw [State.gate, State.gate, hc])
      cases hx' : x.bpf.cycle e with
      | none => exact .inl (by rw [State.gate, State.gate, hc, hx']; rfl)
      | some c =>
        rw [hx'] at hc
        refine .inr ?_
        rw [gate_of_cycle hc, gate_of_cycle hx', c.gate_push, c.gate.gate_push]
        rfl
    rcases hcase with hc | hc
    · refine ⟨.idle, .idle, ⟨fun _ h => (by cases h), trivial⟩, ?_⟩
      rw [hidle, Sys.group, Sys.group, hpop, hc]
    · refine ⟨.expire, .expire rfl, ⟨fun _ h => (by cases h), trivial⟩, ?_⟩
      rw [Sys.group, Sys.group, hpop, hc, Group.apply]
      exact congrArg (Group.mk _) (Population.shift_none _).symm
  · by_cases he : e = eid
    · subst he
      refine ⟨ev, .event hi, hi.allows hx hm, ?_⟩
      unfold Sys.group Group.apply
      rw [hm.gate]
      congr 1
      rcases hi.member hx hm with ⟨hs, ht, hsame⟩ | ⟨hs, ht⟩
      · rw [hs, ht, Population.shift_none]
        refine pop_congr fun q => ?_
        by_cases hq : q = p
        · subst hq; exact hsame e
        · exact member_congr (hm.views q hq) (hm.phases q hq)
      · have h1 := hs e
        have h2 := ht e
        rw [if_pos rfl] at h1 h2
        rw [← h1, ← h2]
        exact pop_shift fun q hq => member_congr (hm.views q hq) (hm.phases q hq)
    · refine ⟨.idle, .idle, ⟨fun _ h => (by cases h), trivial⟩, ?_⟩
      unfold Sys.group
      rw [hm.gates e he]
      congr 1
      refine pop_congr fun q => ?_
      by_cases hq : q = p
      · subst hq
        rcases hi.member hx hm with ⟨_, _, hsame⟩ | ⟨hs, ht⟩
        · exact hsame e
        · have h1 := hs e
          have h2 := ht e
          rw [if_neg he] at h1 h2
          exact h2.trans h1.symm
      · exact member_congr (hm.views q hq) (hm.phases q hq)

end Simulation

end Sect.Serialise
