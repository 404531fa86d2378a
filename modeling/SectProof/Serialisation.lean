import SectProof.SerialGate

/-! # One task at a time

One group from a fresh cycle to its next reset, with any number of tasks and the
callbacks of the kernel in any order it may choose.  Until the cycle times out at
most one participant is released, and no participant is left parked without
somebody to open the gate for it. -/

open Option

namespace Sect.Serialise

open State Sys

/-- The callback is about a task of group `e`, or of no executor group. -/
def Callback.OfGroup (e : Nat) (cb : Callback) : Prop :=
  ∀ p, cb.task = some p → identifyExecutorGroup p = e ∨ identifyExecutorGroup p = invalidEid

/-- The kernel's order for participants: they leave the group's queue through a
dispatch, sleep from a CPU, and exit from their sleep. -/
def Sys.KernelOrder (x : Sys) : Callback → Prop
  | .dequeue p => x.phase p.pid = .outside
  | .quiescent p deqFlags => x.phase p.pid = .outside ∨
      x.phase p.pid = .onCpu ∧ sleeps deqFlags = true
  | .exitTask p => x.phase p.pid = .outside ∨ x.phase p.pid = .asleep
  | _ => True

/-- The callback does not end with `reset_cycle_state` of group `e`. -/
def Sys.Continues (e : Nat) (x : Sys) : Callback → Prop
  | .exitTask p => ∀ t c, x.bpf.ctx p.pid = some t → t.joined = true → t.eid = e →
      x.bpf.cycle e = some c → (c.exit t.state t.isAsleep).finished c.state = false
  | _ => True

/-- A step of group `e` inside one cycle. -/
structure Sys.InCycle (e : Nat) (x : Sys) (cb : Callback) : Prop where
  group : cb.OfGroup e
  order : x.KernelOrder cb
  continues : x.Continues e cb

/-- Group `e` at the start of a cycle: some of its tasks may be registered, nobody
has joined, nothing is parked, and its token is not queued. -/
structure Sys.FreshCycle (cfg : Config) (e : Nat) (x : Sys) : Prop where
  group : e < maxExecutorGroups
  cycle : ∃ c, x.bpf.cycle e = some c ∧ c.gate = (SchedCycle.fresh cfg).gate
  contexts : ∀ q t, x.bpf.ctx q = some t → t.eid = e ∧ t.outsider = true ∧ t.isAsleep = false
  outside : ∀ q, x.phase q = .outside
  unparked : ∀ e', x.bpf.groupDsq e' = []
  unqueued : e ∉ x.bpf.cycleDispatchQueue
  bounded : x.bpf.cycleDispatchQueue.length ≤ dispatchQueueEntries

/-- What holds of the group throughout its cycle. -/
structure Sys.Serialised (cfg : Config) (e : Nat) (x : Sys) : Prop where
  placed : x.Placed
  contexts : ∀ q v, x.bpf.view q = some v → v.eid = e
  counted : (x.group cfg e).Counted
  serial : (x.group cfg e).Serial
  settled : ∀ q v, x.bpf.view q = some v → x.phase q = .asleep → v.standing = .running
  cycle : (x.bpf.cycle e).isSome
  exact : x.bpf.tokens.Exact e
  bounded : x.bpf.cycleDispatchQueue.length ≤ dispatchQueueEntries

section Steps
variable {cfg : Config} {x y : Sys} {cb : Callback} {p eid e : Nat} {ev : Event}
  {v : Option TaskView} {ph : Phase}

theorem Sys.Serialised.eid_of_ctx (hx : x.Serialised cfg e) {q : Nat} {t : TaskCtx}
    (ht : x.bpf.ctx q = some t) : t.eid = e :=
  hx.contexts q t.view (view_of_ctx ht)

/-- A group whose token is at the head of the queue has its flag up. -/
theorem Sys.Serialised.token_of_head (hx : x.Serialised cfg e) {rest : List Nat}
    (hq : x.bpf.cycleDispatchQueue = e :: rest) : (x.group cfg e).token = 1 := by
  have hmem : e ∈ x.bpf.tokens.queue := by
    show e ∈ x.bpf.cycleDispatchQueue
    rw [hq]
    exact List.mem_cons_self
  show (x.bpf.gate cfg e).pendingDispatch.toNat = 1
  rw [← tokens_pending, hx.exact.pending_of_mem hmem]
  rfl

/-- The events of such a run are in order. -/
theorem SeenBy.inOrder (hx : x.Serialised cfg e) (hstep : x.InCycle e cb)
    (hseen : SeenBy cfg x cb e ev) : (x.group cfg e).InOrder ev := by
  have horder := hstep.order
  cases hseen with
  | idle | expire h => trivial
  | event hi =>
    cases hi with
    | outside hout hv | still | join hout hvalid hopen | park hv hj hph hopen
    | pass hv hj hph hover | wake hv hj hph | run hv hj hph => trivial
    | detach hcb hv hj hph =>
      rcases hcb with rfl | ⟨_, fl, hfl, rfl⟩
      · rw [show x.phase _ = .outside from horder] at hph
        simp at hph
      · rcases horder with hout | ⟨_, hsleep⟩
        · rw [hout] at hph; simp at hph
        · rw [hfl] at hsleep; cases hsleep
    | move hq hv heid hph | empty hq hd => exact hx.token_of_head hq
    | drop hq hc =>
      have := hx.cycle
      rw [hc] at this
      cases this
    | sleep hfl ht hj hph =>
      rcases horder with hout | ⟨hcpu, _⟩
      · rw [hout] at hph; simp at hph
      · exact hcpu
    | @exit q t ht hj hph =>
      rcases horder with hout | hasleep
      · rw [hout] at hph; simp at hph
      refine ⟨hasleep, hx.settled _ t.view (view_of_ctx ht) hasleep, ?_⟩
      obtain ⟨c, hc, hgate⟩ := hx.placed.cycle_of_ctx cfg ht
      show ((x.bpf.gate cfg t.eid).exit t.state t.isAsleep).finished
        (x.bpf.gate cfg t.eid).state = false
      rw [hgate]
      exact hstep.continues t c ht hj rfl hc

/-- The task of a step belongs to the group. -/
theorem Interprets.contexts (hx : x.Serialised cfg e) (hstep : x.InCycle e cb)
    (hi : Interprets cfg x cb p eid ev v ph) (hm : Moved cfg x y p eid ev v ph) {w : TaskView}
    (hw : v = some w) : w.eid = e := by
  have hvalid : w.eid ≠ invalidEid := ne_invalidEid (hm.known w hw).1
  have hgroup : ∀ q, cb.task = some q → w.eid = q.group → w.eid = e := by
    intro q hq hwq
    rcases hstep.group q hq with h | h
    · exact hwq.trans h
    · exact absurd (hwq.trans h) hvalid
  have hsame : x.bpf.view p = some w → w.eid = e := hx.contexts p w
  cases hi with
  | outside hout hv =>
    rcases hv with rfl | rfl | ⟨st, q, _, hq, rfl⟩
    · exact hsame hw
    · cases hw
    · cases hw; exact hgroup q hq rfl
  | still => exact hsame hw
  | join hout hvalid hopen => cases hw; exact hgroup _ rfl rfl
  | park hv hj hph hopen =>
    have heid := hx.contexts _ _ hv
    cases hw
    exact heid
  | pass hv hj hph hover | detach hcb hv hj hph | move hq hv heid hph =>
    cases hw; exact hx.contexts _ _ hv
  | empty hq hd | drop hq hc => exact hsame hw
  | wake hv hj hph | run hv hj hph =>
    have heid := hx.contexts _ _ hv
    cases hw
    exact heid
  | sleep hfl ht hj hph => cases hw; exact hx.eid_of_ctx ht
  | exit ht hj hph => cases hw

/-- A participant falls asleep on a CPU, where it is recorded as running. -/
theorem Interprets.settled (hx : x.Serialised cfg e) (hstep : x.InCycle e cb)
    (hi : Interprets cfg x cb p eid ev v ph) {w : TaskView} (hw : v = some w)
    (hph : ph = .asleep) : w.standing = .running := by
  have hsame : x.bpf.view p = some w → x.phase p = .asleep → w.standing = .running :=
    hx.settled p w
  have horder := hstep.order
  cases hi with
  | still | empty hq hd | drop hq hc => exact hsame hw hph
  | @sleep q fl t hfl ht hj hmem =>
    cases hw
    rcases horder with hout | ⟨hcpu, _⟩
    · rw [hout] at hmem; simp at hmem
    · have hfit := hx.placed.fits q.pid
      rw [view_of_ctx ht, hcpu] at hfit
      unfold TaskCtx.view at hfit
      cases hst : t.state.standing <;> simp_all [Fits]
  | _ => cases hph

/-- Who asks for a token without having popped one is the group. -/
theorem Interprets.opens_group (hx : x.Serialised cfg e)
    (hi : Interprets cfg x cb p eid ev v ph) (hopen : ev.opens (x.bpf.gate cfg eid) = true)
    (hpop : ev.pops = false) : eid = e := by
  cases hi with
  | park hv | wake hv => exact hx.contexts _ _ hv
  | sleep _ ht | exit ht => exact hx.eid_of_ctx ht
  | move | empty | drop => cases hpop
  | _ => cases hopen

/-- No step of the cycle resets it. -/
theorem Interprets.resets_eq_false (hx : x.Serialised cfg e) (hstep : x.InCycle e cb)
    (hi : Interprets cfg x cb p eid ev v ph) : ev.resets (x.bpf.gate cfg eid) = false := by
  cases hi with
  | @exit q t ht hj hph =>
    obtain rfl := hx.eid_of_ctx ht
    exact (SeenBy.inOrder hx hstep (.event (.exit ht hj hph))).2.2
  | _ => rfl

/-- The timer's scan pushes the group's own token only. -/
theorem Sys.Serialised.timer (hx : x.Serialised cfg e) (now : Nat) :
    (dispatchTimerFn now x.bpf).tokens.Exact e ∧
      (dispatchTimerFn now x.bpf).cycleDispatchQueue.length ≤ dispatchQueueEntries := by
  suffices hscan : (dispatchTimerFn now x.bpf).tokens.Exact e ∧
      (dispatchTimerFn now x.bpf).cycleDispatchQueue.length ≤ dispatchQueueEntries ∧
      (∀ q, (dispatchTimerFn now x.bpf).view q = x.bpf.view q) ∧
      ((dispatchTimerFn now x.bpf).cycle e).isSome from ⟨hscan.1, hscan.2.1⟩
  refine dispatchTimerFn_induct (P := fun u => u.tokens.Exact e ∧
    u.cycleDispatchQueue.length ≤ dispatchQueueEntries ∧ (∀ q, u.view q = x.bpf.view q) ∧
    (u.cycle e).isSome) ⟨hx.exact, hx.bounded, fun _ => rfl, hx.cycle⟩ ?_
  rintro u pid t ⟨hexact, hbounded, hview, hcycle⟩ hctx hexp
  have hmark := unseen_modifyCtx u pid (fun t => { t with state := .timeout }) fun t' ht' => by
    rw [hctx, some.injEq] at ht'
    exact ht' ▸ TaskCtx.view_timeout hexp
  obtain rfl : t.eid = e := hx.contexts pid t.view (by rw [← hview, view_of_ctx hctx])
  obtain ⟨c, hc⟩ := isSome_iff_exists.mp hcycle
  have htokens : (enqueueCycleForDispatch t.eid true (u.modifyCtx pid _)).tokens =
      u.tokens.push dispatchQueueEntries t.eid :=
    tokens_push (s := u.modifyCtx pid fun t => { t with state := .timeout }) hc true
  refine ⟨?_, ?_, fun q => ?_, ?_⟩
  · rw [htokens]
    exact hexact.push_self
  · have hlen := Tokens.length_push_le (a := t.eid) (t := u.tokens) hbounded (by decide)
    rwa [← htokens] at hlen
  · rw [view_push, hmark.view, hview]
  · rw [cycle_push, isSome_map]
    exact hcycle

/-- **A step of the cycle keeps the group serialised.** -/
theorem Sys.Serialised.step (hN : 1 ≤ cfg.cycleThreadCount) (hx : x.Serialised cfg e)
    (hstep : x.InCycle e cb) (h : x.step cfg cb = some y) : y.Serialised cfg e := by
  obtain ⟨ev, hseen, hallows, heq⟩ := group_step hx.placed h e
  have hplaced := placed_step hx.placed h
  have hcounted : (y.group cfg e).Counted := heq ▸ hx.counted.apply hN hallows
  have hserial : (y.group cfg e).Serial :=
    heq ▸ hx.serial.apply hx.counted hallows (hseen.inOrder hx hstep)
  rcases step_interprets hx.placed h with ⟨now, rfl, rfl⟩ | ⟨p, eid, ev, v, ph, hi, hm⟩
  · obtain ⟨hview, _, hcycle⟩ := dispatchTimerFn_effect now x.bpf
    obtain ⟨hexact, hbounded⟩ := hx.timer now
    refine ⟨hplaced, fun q w hw => ?_, hcounted, hserial, fun q w hw hq => ?_, ?_, hexact, hbounded⟩
    · exact hx.contexts q w (hview q ▸ hw)
    · exact hx.settled q w (hview q ▸ hw) hq
    · rcases hcycle e with hc | hc
      · rw [hc]; exact hx.cycle
      · rw [hc, isSome_map]; exact hx.cycle
  · have htokens := hm.tokens hi
    refine ⟨hplaced, fun q w hw => ?_, hcounted, hserial, fun q w hw hq => ?_,
      hm.cycles e hx.cycle, ?_, ?_⟩
    · by_cases hqp : q = p
      · subst hqp
        exact hi.contexts hx hstep hm (hm.view ▸ hw)
      · exact hx.contexts q w (hm.views q hqp ▸ hw)
    · by_cases hqp : q = p
      · subst hqp
        exact hi.settled hx hstep (hm.view ▸ hw) (hm.phase ▸ hq)
      · exact hx.settled q w (hm.views q hqp ▸ hw) (hm.phases q hqp ▸ hq)
    · rw [htokens]
      refine Event.exact_onTokens hx.exact hx.bounded hi.head
        (fun hopen hpop => .inl (hi.opens_group hx hopen hpop)) fun hr => ?_
      rw [hi.resets_eq_false hx hstep] at hr
      cases hr
    · show y.bpf.tokens.queue.length ≤ dispatchQueueEntries
      rw [htokens]
      exact Event.length_onTokens hx.bounded

end Steps

/-! ## From a fresh cycle -/

section Cycle
variable {cfg : Config} {e : Nat} {x y : Sys}

theorem Sys.FreshCycle.placed (h : x.FreshCycle cfg e) : x.Placed where
  fits q := by
    rw [h.outside q]
    cases ht : x.bpf.ctx q with
    | none => rw [view_eq_none.mpr ht]; rfl
    | some t =>
      obtain ⟨_, hout, hawake⟩ := h.contexts q t ht
      rw [view_of_ctx ht, TaskCtx.view, hawake]
      unfold TaskCtx.outsider at hout
      cases hst : t.state <;> simp_all [Fits, ThreadState.standing]
  known q v hv := by
    obtain ⟨t, ht, rfl⟩ := view_eq_some.mp hv
    obtain ⟨c, hc, _⟩ := h.cycle
    have heid : t.view.eid = e := (h.contexts q t ht).1
    rw [heid, hc]
    exact ⟨h.group, rfl⟩
  queued e' q := by
    rw [State.parkedIn, h.unparked e', h.outside q]
    simp
  nodup e' := by
    rw [State.parkedIn, h.unparked e']
    exact List.nodup_nil

/-- Nobody has joined a fresh cycle. -/
theorem Sys.FreshCycle.pop_eq_zero (h : x.FreshCycle cfg e) (ph : Phase) : x.pop e ph = 0 := by
  refine Nat.eq_zero_of_not_pos fun hpos => ?_
  obtain ⟨q, hq⟩ := pop_pos_iff.mp hpos
  rw [h.placed.member_outside (h.outside q)] at hq
  cases hq

theorem Sys.FreshCycle.serialised (hN : 1 ≤ cfg.cycleThreadCount) (h : x.FreshCycle cfg e) :
    x.Serialised cfg e := by
  obtain ⟨c, hc, hfresh⟩ := h.cycle
  have hgate : x.bpf.gate cfg e = (SchedCycle.fresh cfg).gate :=
    (gate_of_cycle hc).trans hfresh
  have hgroup : x.group cfg e = ⟨(SchedCycle.fresh cfg).gate, fun _ => 0⟩ := by
    rw [Sys.group, hgate]
    exact congrArg _ (funext h.pop_eq_zero)
  refine ⟨h.placed, fun q v hv => ?_, ?_, ?_, fun q v hv hph => ?_, ?_, ?_, h.bounded⟩
  · obtain ⟨t, ht, rfl⟩ := view_eq_some.mp hv
    exact (h.contexts q t ht).1
  · rw [hgroup]
    refine ⟨rfl, rfl, hN, fun _ => ?_, fun h => by cases h⟩
    show 0 < cfg.cycleThreadCount
    omega
  · rw [hgroup]
    refine .of_gathering (.inl rfl) rfl rfl ⟨rfl, rfl, ?_⟩
    show 0 < cfg.cycleThreadCount
    omega
  · rw [h.outside q] at hph
    cases hph
  · rw [hc]; rfl
  · show x.bpf.cycleDispatchQueue.count e = (x.bpf.tokens.pending e).toNat
    rw [List.count_eq_zero.mpr h.unqueued, tokens_pending cfg, hgate]
    rfl

/-- A run inside one cycle keeps the group serialised. -/
theorem Sys.FreshCycle.run (hN : 1 ≤ cfg.cycleThreadCount) (h : x.FreshCycle cfg e)
    {cbs : List Callback} (hcycle : StepRuns.Along (Sys.step cfg) (Sys.InCycle e) x cbs)
    (hrun : x.run cfg cbs = some y) : y.Serialised cfg e :=
  StepRuns.invariant_along (I := Sys.Serialised cfg e)
    (fun _ _ _ hx hstep h => hx.step hN hstep h) (h.serialised hN) hcycle hrun

/-- A participant of group `e` in phase `ph`. -/
def Sys.Participant (x : Sys) (e : Nat) (ph : Phase) (q : Nat) : Prop :=
  x.phase q = ph ∧ ∃ t, x.bpf.ctx q = some t ∧ t.joined = true ∧ t.eid = e

/-- A joined task that a dispatch has moved out of the group's queue. -/
def Sys.Released (x : Sys) (e q : Nat) : Prop :=
  x.Participant e .dispatched q ∨ x.Participant e .onCpu q

variable {ph : Phase} {q r : Nat}

theorem Sys.participant_iff : x.Participant e ph q ↔ x.member e q = some ph := by
  constructor
  · rintro ⟨hph, t, ht, hj, heid⟩
    rw [member_of_ctx ht, if_pos ⟨heid, hj⟩, hph]
  intro hm
  cases ht : x.bpf.ctx q with
  | none => rw [member_of_none ht] at hm; cases hm
  | some t =>
    rw [member_of_ctx ht] at hm
    split at hm
    · rename_i hj
      exact ⟨some.inj hm, t, ht, hj.2, hj.1⟩
    · cases hm

theorem Sys.participant_of_pos (h : 0 < x.pop e ph) : ∃ q, x.Participant e ph q := by
  obtain ⟨q, hq⟩ := pop_pos_iff.mp h
  exact ⟨q, participant_iff.mpr hq⟩

/-- Two participants in a phase that holds one are the same. -/
theorem Sys.eq_of_pop_le_one (h : x.pop e ph ≤ 1) (hq : x.Participant e ph q)
    (hr : x.Participant e ph r) : q = r := by
  refine Table.eq_of_count_le_one h ?_ ?_
  · rw [holdsAt_pop]
    exact decide_eq_true (participant_iff.mp hq)
  · rw [holdsAt_pop]
    exact decide_eq_true (participant_iff.mp hr)

theorem Sys.released_unique (h : x.pop e .dispatched + x.pop e .onCpu ≤ 1) (hq : x.Released e q)
    (hr : x.Released e r) : q = r := by
  have hpos : ∀ {ph q}, x.Participant e ph q → 0 < x.pop e ph := fun hp =>
    pop_pos (participant_iff.mp hp)
  rcases hq with hq | hq <;> rcases hr with hr | hr
  · exact eq_of_pop_le_one (by omega) hq hr
  · have := hpos hq
    have := hpos hr
    omega
  · have := hpos hq
    have := hpos hr
    omega
  · exact eq_of_pop_le_one (by omega) hq hr

/-- **One at a time.**  From a fresh cycle to its next reset, and until it times
out, at most one joined task of the group is released. -/
theorem at_most_one_released (hN : 1 ≤ cfg.cycleThreadCount) (hfresh : x.FreshCycle cfg e)
    {cbs : List Callback} (hcycle : StepRuns.Along (Sys.step cfg) (Sys.InCycle e) x cbs)
    (hrun : x.run cfg cbs = some y) (hstate : ∀ c, y.bpf.cycle e = some c → c.state ≠ .timeout)
    {q r : Nat} (hq : y.Released e q) (hr : y.Released e r) : q = r := by
  have hy := hfresh.run hN hcycle hrun
  obtain ⟨c, hc⟩ := isSome_iff_exists.mp hy.cycle
  have hgate : (y.group cfg e).cycle = c.gate := gate_of_cycle hc
  refine released_unique ?_ hq hr
  rcases Group.state_cases (y.group cfg e).cycle with hs | hs | hs
  · have hstill : y.pop e .dispatched + y.pop e .onCpu + y.pop e .asleep + y.pop e .waking +
      y.pop e .global = 0 := (hy.serial.gathering hs).still
    omega
  · have hpermit : y.pop e .dispatched + y.pop e .onCpu + (y.group cfg e).token ≤ 1 :=
      (hy.serial.serving hs).permit
    omega
  · rw [hgate] at hs
    exact absurd hs (hstate c hc)

/-- **Nobody is stranded.**  From a fresh cycle to its next reset, timeouts
included: if a task is parked, then the group's token is queued, or a joined task
is released or waking, or the cycle still waits for a thread that has not joined
or not reached its first enqueue. -/
theorem parked_is_served (hN : 1 ≤ cfg.cycleThreadCount) (hfresh : x.FreshCycle cfg e)
    {cbs : List Callback} (hcycle : StepRuns.Along (Sys.step cfg) (Sys.InCycle e) x cbs)
    (hrun : x.run cfg cbs = some y) (hparked : y.bpf.groupDsq e ≠ []) :
    e ∈ y.bpf.cycleDispatchQueue ∨ (∃ q, y.Released e q) ∨ (∃ q, y.Participant e .waking q) ∨
      ∃ c, y.bpf.cycle e = some c ∧ (c.state = .unavailable ∨ c.state = .ready) ∧
        (c.numAlive < c.numExpectedThreads ∨ ∃ q, y.Participant e .yielded q) := by
  have hy := hfresh.run hN hcycle hrun
  obtain ⟨c, hc⟩ := isSome_iff_exists.mp hy.cycle
  have hgate : y.bpf.gate cfg e = c.gate := gate_of_cycle hc
  have hpos : 0 < y.pop e .parked := by
    rw [← hy.placed.length_dsq]
    exact List.length_pos_of_ne_nil hparked
  have hqueued : (y.group cfg e).token = 1 → e ∈ y.bpf.cycleDispatchQueue := by
    intro htoken
    refine hy.exact.mem_iff.mpr ?_
    rw [tokens_pending cfg]
    exact Bool.toNat_eq_one.mp htoken
  rcases Group.state_cases (y.group cfg e).cycle with hs | hs | hs
  · -- an expected thread is missing, or has joined and is not parked yet
    refine .inr (.inr (.inr ⟨c, hc, ?_, ?_⟩))
    · change (y.bpf.gate cfg e).state = _ ∨ (y.bpf.gate cfg e).state = _ at hs
      rwa [hgate] at hs
    by_cases hmissing : c.numAlive < c.numExpectedThreads
    · exact .inl hmissing
    refine .inr (participant_of_pos ?_)
    obtain ⟨halive, _⟩ := hy.counted.sums
    have hstill : y.pop e .dispatched + y.pop e .onCpu + y.pop e .asleep + y.pop e .waking +
      y.pop e .global = 0 := (hy.serial.gathering hs).still
    have hdetached : y.pop e .detached = 0 := hy.serial.attached
    have hless : (y.pop e .parked : Int) < (y.bpf.gate cfg e).numExpectedThreads :=
      (hy.serial.gathering hs).missing
    rw [hgate] at halive hless
    change c.numAlive = _ at halive
    change _ < c.numExpectedThreads at hless
    omega
  · have hserved : 0 < y.pop e .dispatched + y.pop e .onCpu + y.pop e .waking +
      (y.group cfg e).token := (hy.serial.serving hs).served hpos
    have htoken : (y.group cfg e).token ≤ 1 := Bool.toNat_le _
    by_cases hd : 0 < y.pop e .dispatched
    · obtain ⟨q, hq⟩ := participant_of_pos hd
      exact .inr (.inl ⟨q, .inl hq⟩)
    by_cases ho : 0 < y.pop e .onCpu
    · obtain ⟨q, hq⟩ := participant_of_pos ho
      exact .inr (.inl ⟨q, .inr hq⟩)
    · by_cases hw : 0 < y.pop e .waking
      · exact .inr (.inr (.inl (participant_of_pos hw)))
      · exact .inl (hqueued (by omega))
  · exact .inl (hqueued (hy.serial.draining hs hpos))

end Cycle

/-! ## A cycle of two threads -/

/-- A scheduler that has just created the cycle of group 0. -/
def newGroup (cfg : Config) : Sys := ⟨getOrCreateSchedCycle cfg 0 .init, fun _ => .outside⟩

theorem newGroup_freshCycle (cfg : Config) : (newGroup cfg).FreshCycle cfg 0 where
  group := by decide
  cycle := ⟨_, rfl, rfl⟩
  contexts _ _ h := nomatch h
  outside _ := rfl
  unparked _ := rfl
  unqueued h := nomatch h
  bounded := Nat.zero_le _

/-- Two threads join, are parked, and one of them is dispatched. -/
def twoThreads : List Callback :=
  [.yield (executorThread 5), .yield (executorThread 6), .enqueue (executorThread 5) 10 id,
    .enqueue (executorThread 6) 10 id, .dispatch]

theorem twoThreads_inCycle (cfg : Config) :
    StepRuns.Along (Sys.step cfg) (Sys.InCycle 0) (newGroup cfg) twoThreads := by
  have htask : ∀ {x : Sys} {cb : Callback} {pid : Nat}, cb.task = some (executorThread pid) →
      x.KernelOrder cb → x.Continues 0 cb → x.InCycle 0 cb := fun ht ho hc =>
    ⟨fun p hp => .inl (by rw [ht, some.injEq] at hp; rw [← hp]; rfl), ho, hc⟩
  refine ⟨htask rfl trivial trivial, fun _ _ => ⟨htask rfl trivial trivial, fun _ _ =>
    ⟨htask rfl trivial trivial, fun _ _ => ⟨htask rfl trivial trivial, fun _ _ =>
      ⟨⟨fun _ h => (nomatch h), trivial, trivial⟩, fun _ _ => trivial⟩⟩⟩⟩⟩

theorem twoThreads_run : ∃ y, (newGroup ⟨2, 3, .rp⟩).run ⟨2, 3, .rp⟩ twoThreads = some y ∧
    (∀ c, y.bpf.cycle 0 = some c → c.state ≠ .timeout) ∧ y.bpf.groupDsq 0 ≠ [] ∧
    y.Released 0 5 := by
  refine ⟨_, rfl, fun c hc => ?_, by decide, .inl ⟨rfl, _, rfl, rfl, rfl⟩⟩
  cases hc
  decide

/-- The dispatched thread is the only one released. -/
theorem at_most_one_released_twoThreads :
    ∃ y, (newGroup ⟨2, 3, .rp⟩).run ⟨2, 3, .rp⟩ twoThreads = some y ∧ y.Released 0 5 ∧
      ∀ q, y.Released 0 q → q = 5 := by
  obtain ⟨y, hrun, hstate, _, hreleased⟩ := twoThreads_run
  exact ⟨y, hrun, hreleased, fun q hq => at_most_one_released (by decide)
    (newGroup_freshCycle _) (twoThreads_inCycle _) hrun hstate hq hreleased⟩

/-- The other thread is parked, and the dispatched one is on its way. -/
theorem parked_is_served_twoThreads :
    ∃ y, (newGroup ⟨2, 3, .rp⟩).run ⟨2, 3, .rp⟩ twoThreads = some y ∧ y.bpf.groupDsq 0 ≠ [] ∧
      (0 ∈ y.bpf.cycleDispatchQueue ∨ (∃ q, y.Released 0 q) ∨
        (∃ q, y.Participant 0 .waking q) ∨
        ∃ c, y.bpf.cycle 0 = some c ∧ (c.state = .unavailable ∨ c.state = .ready) ∧
          (c.numAlive < c.numExpectedThreads ∨ ∃ q, y.Participant 0 .yielded q)) := by
  obtain ⟨y, hrun, _, hparked, _⟩ := twoThreads_run
  exact ⟨y, hrun, hparked, parked_is_served (by decide) (newGroup_freshCycle _)
    (twoThreads_inCycle _) hrun hparked⟩

end Sect.Serialise
