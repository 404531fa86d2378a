import SectProof.GroupCounters

/-! # The counters over whole runs

`num_asleep` and `num_alive` are exact in every reachable state, and
`num_queued` is exact in every state reached by steps that account for what they
do to the group's queue.  Two callbacks can fail to: `serialise_dequeue`, which
does no accounting when the kernel takes a parked task out of the queue, and an
exit (or a sleep) of a task that is still recorded as enqueued but is no longer
in the queue, which takes somebody else off the count. -/

namespace Sect.Serialise

open State

/-- The counters of group `e` say where its tasks are. -/
def Sys.CountersExact (x : Sys) (e : Nat) : Prop :=
  ∀ c, x.bpf.cycle e = some c → c.state ≠ .timeout →
    c.numQueued = (x.bpf.groupDsq e).length ∧
    c.numAsleep = (x.bpf.taskCtxMap.count fun _ t => t.eid = e && t.isAsleep) ∧
    c.numAlive = (x.bpf.taskCtxMap.count fun _ t => t.eid = e && t.joined)

/-- The callback accounts for what it does to the group's queue: the kernel does
not take a parked task out of it for another reason than sleep, and a task that
is recorded as enqueued but not parked neither sleeps nor exits while
`num_queued` counts somebody. -/
def Sys.AccountsQueue (x : Sys) : Callback → Prop
  | .dequeue p => ∀ c, x.bpf.cycle (identifyExecutorGroup p) = some c → c.state ≠ .timeout →
      p.pid ∉ x.bpf.parkedIn (identifyExecutorGroup p)
  | .quiescent p deqFlags => sleeps deqFlags = true → ∀ t c, x.bpf.ctx p.pid = some t →
      x.bpf.cycle t.eid = some c → c.state ≠ .timeout → t.state = .enqueued ∨ t.state = .timeout →
      p.pid ∉ x.bpf.parkedIn t.eid → c.numQueued = 0
  | .exitTask p => ∀ t c, x.bpf.ctx p.pid = some t → x.bpf.cycle t.eid = some c →
      c.state ≠ .timeout → t.state = .enqueued ∨ t.state = .timeout → c.numQueued = 0
  | _ => True

section Exactness
variable {cfg : Config} {x y : Sys} {cb : Callback} {e : Nat} {ev : Event}

/-- The group of a task on record has a cycle. -/
theorem Sys.Placed.cycle_of_ctx (hx : x.Placed) (cfg : Config) {q : Nat} {t : TaskCtx}
    (ht : x.bpf.ctx q = some t) :
    ∃ c, x.bpf.cycle t.eid = some c ∧ x.bpf.gate cfg t.eid = c.gate := by
  obtain ⟨c, hc⟩ := Option.isSome_iff_exists.mp (hx.known q t.view (view_of_ctx ht)).2
  exact ⟨c, hc, gate_of_cycle hc⟩

theorem Sys.Placed.mem_parkedIn (hx : x.Placed) {q : Nat} {v : TaskView}
    (hv : x.bpf.view q = some v) : q ∈ x.bpf.parkedIn v.eid ↔ x.phase q = .parked := by
  rw [hx.queued]
  exact ⟨fun h => h.1, fun h => ⟨h, v, hv, rfl⟩⟩

theorem SeenBy.accounts (hx : x.Placed) (hallow : x.allows cb = true)
    (hseen : SeenBy cfg x cb e ev) (hacc : x.AccountsQueue cb)
    (hs : (x.group cfg e).cycle.state ≠ .timeout) : (x.group cfg e).Accounts ev := by
  cases hseen with
  | idle | expire h => trivial
  | event hi =>
    cases hi with
    | outside hout hv | still | join hout hvalid hopen | park hv hj hph hopen
    | pass hv hj hph hover | move hq hv heid hph | empty hq hd | drop hq hc | wake hv hj hph
    | run hv hj hph => trivial
    | @detach _ p v hcb hv hj hph =>
      rcases hcb with rfl | ⟨hnp, _⟩
      · -- the group the task was registered with is the one `identify` finds
        obtain ⟨hkeep, _⟩ := Sys.allows_task hallow rfl
        obtain ⟨t, c, ht, _, heid, _, hc⟩ := hx.participant hkeep (by
          intro h; rw [h] at hph; simp at hph)
        rw [view_of_ctx ht, Option.some.injEq] at hv
        subst hv
        have hs : c.state ≠ .timeout := by
          have hgate : x.bpf.gate cfg t.eid = c.gate := gate_of_cycle (heid ▸ hc)
          have hs : (x.bpf.gate cfg t.eid).state ≠ .timeout := hs
          rwa [hgate] at hs
        have hnot := hacc c hc hs
        rw [← show _ = identifyExecutorGroup p from heid] at hnot
        exact fun h => hnot ((hx.mem_parkedIn (view_of_ctx ht)).mpr h)
      · exact hnp
    | @sleep p fl t hfl ht hj hph =>
      obtain ⟨c, hc, hgate⟩ := hx.cycle_of_ctx cfg ht
      intro hnp hst
      show (x.bpf.gate cfg t.eid).numQueued = 0
      change (x.bpf.gate cfg t.eid).state ≠ .timeout at hs
      rw [hgate] at hs ⊢
      refine hacc hfl t c ht hc hs (ThreadState.standing_eq_enqueued.mp hst) fun hmem => ?_
      exact hnp ((hx.mem_parkedIn (view_of_ctx ht)).mp hmem)
    | @exit p t ht hj hph =>
      obtain ⟨c, hc, hgate⟩ := hx.cycle_of_ctx cfg ht
      intro hst
      show (x.bpf.gate cfg t.eid).numQueued = 0
      change (x.bpf.gate cfg t.eid).state ≠ .timeout at hs
      rw [hgate] at hs ⊢
      exact hacc t c ht hc hs (ThreadState.standing_eq_enqueued.mp hst)

/-- What holds of every group: placement and the counts of the participants. -/
structure Sys.Sound (cfg : Config) (x : Sys) : Prop where
  placed : x.Placed
  counted : ∀ e, (x.group cfg e).Counted

/-- A system without participants, whose cycles are all fresh. -/
theorem Sys.sound_init (hN : 1 ≤ cfg.cycleThreadCount) : Sys.init.Sound cfg where
  placed := Sys.placed_init
  counted e := by
    refine ⟨rfl, rfl, hN, fun _ => ?_, fun h => nomatch h⟩
    show 0 < cfg.cycleThreadCount
    omega

/-- **Soundness is kept by every callback.** -/
theorem Sys.Sound.step (hN : 1 ≤ cfg.cycleThreadCount) (hx : x.Sound cfg)
    (h : x.step cfg cb = some y) : y.Sound cfg where
  placed := placed_step hx.placed h
  counted e := by
    obtain ⟨ev, _, hallows, heq⟩ := group_step hx.placed h e
    rw [heq]
    exact (hx.counted e).apply hN hallows

/-- `num_alive` counts the participants. -/
theorem Sys.Sound.numAlive_eq (hx : x.Sound cfg) {c : SchedCycle} (hc : x.bpf.cycle e = some c) :
    c.numAlive = (x.bpf.taskCtxMap.count fun _ t => t.eid = e && t.joined : Nat) := by
  have halive := (hx.counted e).alive
  rw [show (x.group cfg e).cycle = c.gate from gate_of_cycle hc] at halive
  rw [hx.placed.count_joined]
  exact halive

/-- The invariant of runs whose steps account for the queues. -/
def Sys.Exact (cfg : Config) (x : Sys) : Prop := x.Sound cfg ∧ ∀ e, (x.group cfg e).Queued

theorem Sys.Exact.step (hN : 1 ≤ cfg.cycleThreadCount) (hx : x.Exact cfg)
    (hacc : x.AccountsQueue cb) (h : x.step cfg cb = some y) : y.Exact cfg := by
  refine ⟨hx.1.step hN h, fun e => ?_⟩
  obtain ⟨ev, hseen, hallows, heq⟩ := group_step hx.1.placed h e
  rw [heq]
  exact (hx.2 e).apply hN (hx.1.counted e) hallows
    fun hs => hseen.accounts hx.1.placed (Sys.step_eq_some.mp h).1 hacc hs

theorem Sys.Exact.countersExact (hx : x.Exact cfg) (e : Nat) : x.CountersExact e := by
  intro c hc hs
  have hgate : (x.group cfg e).cycle = c.gate := gate_of_cycle hc
  have hasleep := (hx.1.counted e).asleep
  have hqueued := hx.2 e (by rw [hgate]; exact hs)
  rw [hgate] at hasleep hqueued
  refine ⟨?_, ?_, ?_⟩
  · rw [hx.1.placed.length_dsq]
    exact hqueued
  · rw [hx.1.placed.count_asleep]
    exact hasleep
  · exact hx.1.numAlive_eq hc

/-- **The counters are exact** in every state reached by callbacks that account
for the queues. -/
theorem counters_exact (hN : 1 ≤ cfg.cycleThreadCount) {cbs : List Callback}
    (hacc : StepRuns.Along (Sys.step cfg) Sys.AccountsQueue Sys.init cbs)
    (hrun : Sys.init.run cfg cbs = some x) (e : Nat) : x.CountersExact e := by
  have hinit : Sys.init.Exact cfg := ⟨Sys.sound_init hN, fun _ _ => rfl⟩
  have hx : x.Exact cfg :=
    StepRuns.invariant_along (I := Sys.Exact cfg)
      (fun _ _ _ hx hacc h => hx.step hN hacc h) hinit hacc hrun
  exact hx.countersExact e

end Exactness

/-! ## Two callbacks that do not account -/

/-- A thread of `syz-executor.0`. -/
def executorThread (pid : Nat) : TaskStruct :=
  ⟨pid, some (executorComm ++ ['0']), 0, schedExtPolicy, none⟩

/-- A task sleeps and its group stays exact: the conditions of `counters_exact`
are met along a whole cycle of one task. -/
theorem counters_exact_of_sleep :
    ∃ x, Sys.init.run ⟨2, 3, .rp⟩ [.yield (executorThread 5), .enqueue (executorThread 5) 10 id,
        .quiescent (executorThread 5) scxDeqSleep] = some x ∧ ∀ e, x.CountersExact e := by
  have hN : 1 ≤ (Config.mk 2 3 .rp).cycleThreadCount := by decide
  obtain ⟨x, hrun⟩ : ∃ x, Sys.init.run ⟨2, 3, .rp⟩ [.yield (executorThread 5),
    .enqueue (executorThread 5) 10 id, .quiescent (executorThread 5) scxDeqSleep] = some x :=
    ⟨_, rfl⟩
  refine ⟨x, hrun, fun e => counters_exact hN ?_ hrun e⟩
  refine ⟨trivial, fun x hx => ⟨trivial, fun y hy => ⟨?_, fun z hz => trivial⟩⟩⟩
  cases hx
  cases hy
  intro _ t c ht _ _ _ hnot
  cases ht
  exact absurd (by decide) hnot

/-- The kernel takes the only parked task out of the queue: it is still counted.
A parked task sleeps and then exits, with another one parked: two are taken off
the count. -/
theorem counters_exact_fails :
    (∃ x c, Sys.init.run ⟨2, 3, .rp⟩ [.yield (executorThread 5),
        .enqueue (executorThread 5) 10 id, .dequeue (executorThread 5)] = some x ∧
      x.bpf.cycle 0 = some c ∧ c.state ≠ .timeout ∧
      c.numQueued = 1 ∧ (x.bpf.groupDsq 0).length = 0) ∧
    (∃ x c, Sys.init.run ⟨2, 3, .rp⟩ [.yield (executorThread 5), .yield (executorThread 6),
        .enqueue (executorThread 5) 10 id, .enqueue (executorThread 6) 10 id,
        .quiescent (executorThread 5) scxDeqSleep, .exitTask (executorThread 5)] = some x ∧
      x.bpf.cycle 0 = some c ∧ c.state ≠ .timeout ∧
      c.numQueued = 0 ∧ (x.bpf.groupDsq 0).length = 1) := by
  refine ⟨⟨_, _, rfl, rfl, ?_⟩, ⟨_, _, rfl, rfl, ?_⟩⟩
  · decide
  · decide

end Sect.Serialise
