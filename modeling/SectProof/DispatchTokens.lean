import SectProof.CounterExactness
import SectProof.TokenQueue

/-! # Dispatch tokens

`cycle_dispatch_queue` and the `pending_dispatch` flags are a token queue: an
event of a group pops a token, pushes the group's own, or clears the group's
flag because the cycle is reset.  Only the last can make a flag wrong: a reset
lowers the flag and leaves the token queued.

In a run in which no participant exits last while its group's token is queued,
every flag says how many tokens its group has in the queue.  There are then at
most ten tokens, and the queue never has to drop one. -/

namespace Sect.Serialise

open State SchedCycle

/-- The gate queue and the flags of the cycles. -/
def State.tokens (s : State) : Tokens Nat :=
  ⟨s.cycleDispatchQueue, fun e => (s.cycle e).any SchedCycle.pendingDispatch⟩

theorem State.tokens_pending (cfg : Config) (s : State) (e : Nat) :
    s.tokens.pending e = (s.gate cfg e).pendingDispatch := by
  show (s.cycle e).any SchedCycle.pendingDispatch = _
  cases hc : s.cycle e with
  | none => rw [State.gate, hc]; rfl
  | some c => rw [gate_of_cycle hc]; rfl

namespace Event

/-- The event resets the cycle. -/
def resets : Event → SchedCycle → Bool
  | .exit _ st asleep, c => (c.exit st asleep).finished c.state
  | _, _ => false

/-- What an event of group `eid`, whose gate was `c`, does to the tokens. -/
def onTokens (eid : Nat) (ev : Event) (c : SchedCycle) (t : Tokens Nat) : Tokens Nat :=
  let t := if ev.pops then t.pop else t
  let t := if ev.opens c then t.push dispatchQueueEntries eid else t
  if ev.resets c then t.clear eid else t

/-- The flag after an event. -/
theorem pendingDispatch_account (cfg : Config) (ev : Event) (c : SchedCycle)
    (hdrop : ev = .drop → c.pendingDispatch = false) :
    (ev.account cfg c).pendingDispatch =
      (!ev.resets c && (ev.opens c || (!ev.pops && c.pendingDispatch))) := by
  cases ev with
  | idle | join => rfl
  | park ph => exact pendingDispatch_pushIf _ _ _
  | pass ph | detach ph => rfl
  | move =>
    rw [show Event.account cfg .move c = c.afterMove from rfl, SchedCycle.afterMove,
      pendingDispatch_pushIf]
    rfl
  | empty =>
    rw [show Event.account cfg .empty c = c.afterEmpty from rfl, SchedCycle.afterEmpty,
      pendingDispatch_pushIf]
    rfl
  | drop => exact hdrop rfl
  | wake => exact pendingDispatch_pushIf _ _ _
  | run ph => rfl
  | sleep ph st => exact pendingDispatch_pushIf _ _ _
  | exit ph st asleep =>
    show (if (c.exit st asleep).finished c.state then _ else _ : SchedCycle).pendingDispatch =
      (!(c.exit st asleep).finished c.state && _)
    cases (c.exit st asleep).finished c.state
    · exact pendingDispatch_pushIf _ _ _
    · rfl
  | expire =>
    show (c.push true).pendingDispatch = true
    unfold SchedCycle.push
    split
    · assumption
    · rfl

theorem mem_pushToken {eid b : Nat} {q : List Nat} (h : b ∈ pushToken eid q) :
    b ∈ q ∨ b = eid := by
  rw [pushToken, List.mem_append, List.mem_singleton] at h
  refine h.imp_left fun h => ?_
  split at h
  · exact List.mem_of_mem_tail h
  · exact h

section OnTokens
variable {eid : Nat} {ev : Event} {c : SchedCycle} {t : Tokens Nat}

theorem queue_onTokens (hhead : ev.pops = true → ∃ rest, t.queue = eid :: rest)
    (hp : t.pending eid = c.pendingDispatch) :
    (ev.onTokens eid c t).queue = ev.queueAfter eid c t.queue := by
  have hclear : (ev.onTokens eid c t).queue =
      (if ev.opens c then (if ev.pops then t.pop else t).push dispatchQueueEntries eid
        else if ev.pops then t.pop else t).queue := by
    unfold onTokens
    dsimp only
    split <;> rfl
  rw [hclear, queueAfter]
  cases hpop : ev.pops with
  | true =>
    obtain ⟨rest, hq⟩ := hhead hpop
    have ht : t.pop = ⟨rest, Function.update t.pending eid false⟩ := by rw [Tokens.pop, hq]
    cases hopen : ev.opens c <;> simp [ht, hq, Tokens.push, pushToken]
  | false =>
    cases hopen : ev.opens c <;> cases hpend : c.pendingDispatch <;>
      simp [hp, hpend, Tokens.push, pushToken]

theorem pending_onTokens (hhead : ev.pops = true → ∃ rest, t.queue = eid :: rest) :
    (ev.onTokens eid c t).pending = Function.update t.pending eid
      (!ev.resets c && (ev.opens c || (!ev.pops && t.pending eid))) := by
  have hpop : (if ev.pops then t.pop else t).pending =
      Function.update t.pending eid (!ev.pops && t.pending eid) := by
    cases hpop : ev.pops with
    | true =>
      obtain ⟨rest, hq⟩ := hhead hpop
      simp [Tokens.pop, hq]
    | false => simp
  unfold onTokens
  generalize (if ev.pops then t.pop else t) = u at hpop
  cases hreset : ev.resets c <;> cases hopen : ev.opens c <;>
    cases hpend : (!ev.pops && t.pending eid) <;>
    simp [Tokens.clear, Tokens.push, hpop, hpend]

theorem mem_queueAfter {b : Nat} {q : List Nat} (h : b ∈ ev.queueAfter eid c q) :
    b ∈ q ∨ b = eid ∧ ev.opens c = true := by
  have hpop : ∀ {b}, b ∈ (if ev.pops then q.tail else q) → b ∈ q := by
    intro b hb
    split at hb
    · exact List.mem_of_mem_tail hb
    · exact hb
  unfold queueAfter at h
  dsimp only at h
  split at h
  · rename_i hopen
    rw [Bool.and_eq_true] at hopen
    rcases mem_pushToken h with h | h
    · exact .inl (hpop h)
    · exact .inr ⟨h, hopen.1⟩
  · exact .inl (hpop h)

theorem pops_of_resets (h : ev.resets c = true) : ev.pops = false := by
  cases ev with
  | exit ph st asleep => rfl
  | _ => cases h

/-- What keeps the flag of group `b` exact through an event of group `eid`: room
for a push of another group, and no reset while the flag is up. -/
theorem exact_onTokens {b : Nat} (h : t.Exact b) (hlen : t.queue.length ≤ dispatchQueueEntries)
    (hhead : ev.pops = true → ∃ rest, t.queue = eid :: rest)
    (hroom : ev.opens c = true → ev.pops = false → eid = b ∨ t.queue.length < dispatchQueueEntries)
    (hreset : ev.resets c = true → t.pending eid = false ∧ ev.opens c = false) :
    (ev.onTokens eid c t).Exact b := by
  have hpop : (if ev.pops then t.pop else t).Exact b := by
    split
    · exact h.pop
    · exact h
  have hpush : (if ev.opens c then (if ev.pops then t.pop else t).push dispatchQueueEntries eid
      else if ev.pops then t.pop else t).Exact b := by
    split
    · rename_i hopen
      cases hp : ev.pops with
      | true =>
        -- the pop has made room
        obtain ⟨rest, hq⟩ := hhead hp
        have hlen' : t.pop.queue.length < dispatchQueueEntries := by
          rw [Tokens.pop, hq]
          rwa [hq, List.length_cons] at hlen
        rw [hp] at hpop
        exact hpop.push hlen'
      | false =>
        rcases hroom hopen hp with rfl | hlt
        · exact h.push_self
        · exact h.push hlt
    · exact hpop
  unfold onTokens
  cases hr : ev.resets c with
  | false => exact hpush
  | true =>
    obtain ⟨hpending, hopen⟩ := hreset hr
    rw [pops_of_resets hr, hopen]
    exact h.clear hpending

theorem length_onTokens (hlen : t.queue.length ≤ dispatchQueueEntries) :
    (ev.onTokens eid c t).queue.length ≤ dispatchQueueEntries := by
  have hpop : (if ev.pops then t.pop else t).queue.length ≤ dispatchQueueEntries := by
    split
    · exact Nat.le_trans (Nat.le_trans Tokens.length_pop_le (Nat.sub_le ..)) hlen
    · exact hlen
  have hpush : (if ev.opens c then (if ev.pops then t.pop else t).push dispatchQueueEntries eid
      else if ev.pops then t.pop else t).queue.length ≤ dispatchQueueEntries := by
    split
    · exact Tokens.length_push_le hpop (by decide)
    · exact hpop
  unfold onTokens
  cases ev.resets c with
  | false | true => exact hpush

end OnTokens

end Event

section Tokens
variable {cfg : Config} {x y : Sys} {cb : Callback} {p eid e : Nat} {ev : Event}
  {v : Option TaskView} {ph : Phase}

/-- A dispatch takes the token of the group it serves. -/
theorem Interprets.head (hi : Interprets cfg x cb p eid ev v ph) (hpop : ev.pops = true) :
    ∃ rest, x.bpf.cycleDispatchQueue = eid :: rest := by
  cases hi with
  | move hq | empty hq | drop hq => exact ⟨_, hq⟩
  | _ => cases hpop

/-- **Tokens move as events say.** -/
theorem Moved.tokens (hi : Interprets cfg x cb p eid ev v ph) (hm : Moved cfg x y p eid ev v ph) :
    y.bpf.tokens = ev.onTokens eid (x.bpf.gate cfg eid) x.bpf.tokens := by
  have hdrop : ev = .drop → (x.bpf.gate cfg eid).pendingDispatch = false := by
    rintro rfl
    cases hi with
    | drop hq hc => rw [State.gate, hc]; rfl
  have hpending := Event.pendingDispatch_account cfg ev (x.bpf.gate cfg eid) hdrop
  have hself := tokens_pending cfg x.bpf eid
  have hqueue := Event.queue_onTokens (t := x.bpf.tokens) hi.head hself
  have hflags := Event.pending_onTokens (c := x.bpf.gate cfg eid) (t := x.bpf.tokens) hi.head
  have hy : y.bpf.tokens.pending = (ev.onTokens eid (x.bpf.gate cfg eid) x.bpf.tokens).pending := by
    rw [hflags]
    funext e
    by_cases he : e = eid
    · subst he
      rw [Function.update_self, tokens_pending cfg, hm.gate, hself, ← hpending]
      rfl
    · rw [Function.update_of_ne he, tokens_pending cfg, tokens_pending cfg,
        hm.gates e he]
  have hq : y.bpf.tokens.queue = (ev.onTokens eid (x.bpf.gate cfg eid) x.bpf.tokens).queue := by
    rw [hqueue]
    exact hm.queue
  calc y.bpf.tokens = ⟨y.bpf.tokens.queue, y.bpf.tokens.pending⟩ := rfl
    _ = _ := by rw [hq, hy]

end Tokens

/-! ## Exits -/

/-- An exit that resets the cycle is that of its last participant, and asks for no
token. -/
theorem Group.Counted.lastOut {g : Group} {ph : Phase} {st : ThreadState} {asleep : Bool}
    (h : g.Counted) (ha : g.Allows (.exit ph st asleep))
    (hr : (Event.exit ph st asleep).resets g.cycle = true) :
    g.cycle.numAlive = 1 ∧ g.cycle.state ≠ .unavailable ∧
      (Event.exit ph st asleep).opens g.cycle = false := by
  obtain ⟨c, pop⟩ := g
  have hpos : 1 ≤ Population.total pop := by
    have hout : ph ≠ .outside := Group.ne_outside_of_mem ha.enabled.1 (by simp)
    have hsum : Population.total (Population.shift (some ph) none pop) + 1 =
      Population.total pop := Population.total_exit hout (ha.populated ph rfl)
    omega
  have halive : c.numAlive = Population.total pop := h.alive
  have hexp : 1 ≤ c.numExpectedThreads := h.expected
  have hgather : c.state = .unavailable → c.numAlive < c.numExpectedThreads := h.gathering
  have hready : c.state = .ready → c.numAlive = c.numExpectedThreads := h.ready
  have hexit : (c.exit st asleep).numAlive = c.numAlive - 1 := if_pos (by omega)
  replace hr : (c.exit st asleep).finished c.state = true := hr
  rw [SchedCycle.finished, Bool.or_eq_true, Bool.and_eq_true, decide_eq_true_eq,
    decide_eq_true_eq, decide_eq_true_eq, hexit] at hr
  have hone : c.numAlive = 1 ∧ c.state ≠ .unavailable := by
    rcases hr with hzero | ⟨hzero, hs⟩
    · replace hzero : (if c.state = .ready ∨ c.state = .unavailable
        then c.numExpectedThreads - 1 else c.numExpectedThreads) = 0 := hzero
      split at hzero
      · rename_i hs
        rcases hs with hs | hs
        · have := hready hs
          exact ⟨by omega, by rw [hs]; simp⟩
        · have := hgather hs
          omega
      · omega
    · exact ⟨by omega, hs⟩
  refine ⟨hone.1, hone.2, ?_⟩
  show (c.exit st asleep).dispatchableOnExit = false
  rw [SchedCycle.dispatchableOnExit, hexit, hone.1]
  rfl

/-! ## Whole runs -/

/-- The callback is not the exit of a group's last participant while the group's
token is queued. -/
def Sys.KeepsToken (x : Sys) : Callback → Prop
  | .exitTask p => ∀ t c, x.bpf.ctx p.pid = some t → t.joined = true →
      x.bpf.cycle t.eid = some c → c.pendingDispatch = true → c.state ≠ .unavailable →
      c.numAlive ≠ 1
  | _ => True

/-- Every flag is exact, and the queue holds tokens of executor groups. -/
structure Sys.TokensExact (x : Sys) : Prop where
  exact : ∀ e, x.bpf.tokens.Exact e
  groups : ∀ e ∈ x.bpf.cycleDispatchQueue, e < maxExecutorGroups

section Runs
variable {cfg : Config} {x y : Sys} {cb : Callback} {p eid e : Nat} {ev : Event}
  {v : Option TaskView} {ph : Phase}

theorem Sys.TokensExact.length_le (h : x.TokensExact) :
    x.bpf.cycleDispatchQueue.length ≤ maxExecutorGroups := by
  have hcard := Tokens.length_le_card h.exact (Finset.range maxExecutorGroups)
    fun e he => Finset.mem_range.mpr (h.groups e he)
  rwa [Finset.card_range] at hcard

theorem Sys.TokensExact.room (h : x.TokensExact) :
    x.bpf.cycleDispatchQueue.length < dispatchQueueEntries :=
  Nat.lt_of_le_of_lt h.length_le (by decide)

/-- The group that asks for a token is an executor group. -/
theorem Interprets.group_lt (hx : x.Placed) (ht : x.TokensExact)
    (hi : Interprets cfg x cb p eid ev v ph) (hopen : ev.opens (x.bpf.gate cfg eid) = true) :
    eid < maxExecutorGroups := by
  cases hi with
  | outside | still | join | pass | detach | drop | run => cases hopen
  | park hv | wake hv => exact (hx.known _ _ hv).1
  | sleep _ ht | exit ht => exact (hx.known _ _ (view_of_ctx ht)).1
  | move hq | empty hq => exact ht.groups eid (by rw [hq]; exact List.mem_cons_self)

/-- A reset finds the flag down. -/
theorem Interprets.reset_clear (hx : x.Sound cfg) (hkeep : x.KeepsToken cb)
    (hi : Interprets cfg x cb p eid ev v ph) (hm : Moved cfg x y p eid ev v ph)
    (hr : ev.resets (x.bpf.gate cfg eid) = true) :
    x.bpf.tokens.pending eid = false ∧ ev.opens (x.bpf.gate cfg eid) = false := by
  have hallows := hi.allows hx.placed hm
  cases hi with
  | exit ht hj hph =>
    obtain ⟨hone, hstate, hopen⟩ := (hx.counted _).lastOut hallows hr
    refine ⟨?_, hopen⟩
    obtain ⟨c, hc, hgate⟩ := hx.placed.cycle_of_ctx cfg ht
    rw [tokens_pending cfg, hgate, Bool.eq_false_iff]
    intro hpending
    change (x.bpf.gate cfg _).numAlive = 1 at hone
    change (x.bpf.gate cfg _).state ≠ .unavailable at hstate
    rw [hgate] at hone hstate
    exact hkeep _ c ht hj hc hpending hstate hone
  | _ => cases hr

/-- A push of a group that has a cycle. -/
theorem State.tokens_push {s : State} {c : SchedCycle} (hc : s.cycle e = some c) (timeout : Bool) :
    (enqueueCycleForDispatch e timeout s).tokens = s.tokens.push dispatchQueueEntries e := by
  have hp : s.tokens.pending e = c.pendingDispatch := by
    show (s.cycle e).any _ = _
    rw [hc]
    rfl
  rw [enqueueCycleForDispatch_eq, hc, Tokens.push, hp]
  dsimp only
  split
  · rfl
  refine congrArg (Tokens.mk _) (funext fun b => ?_)
  show ((s.modifyCycle e (.claim timeout)).cycle b).any _ = _
  by_cases hb : b = e
  · subst hb
    rw [cycle_modifyCycle, hc, Function.update_self]
    rfl
  · rw [cycle_modifyCycle_of_ne _ _ _ _ hb, Function.update_of_ne hb]
    rfl

/-- The timer's scan pushes tokens of groups that have tasks on record. -/
theorem Sys.TokensExact.timer (hx : x.Placed) (ht : x.TokensExact) (now : Nat) :
    Sys.TokensExact ⟨dispatchTimerFn now x.bpf, x.phase⟩ := by
  -- the views and the existing cycles are carried along to know whose token is pushed
  suffices hscan : Sys.TokensExact ⟨dispatchTimerFn now x.bpf, x.phase⟩ ∧
      (∀ q, (dispatchTimerFn now x.bpf).view q = x.bpf.view q) ∧
      ∀ e, (x.bpf.cycle e).isSome → ((dispatchTimerFn now x.bpf).cycle e).isSome from hscan.1
  refine dispatchTimerFn_induct (P := fun u => Sys.TokensExact ⟨u, x.phase⟩ ∧
    (∀ q, u.view q = x.bpf.view q) ∧ ∀ e, (x.bpf.cycle e).isSome → (u.cycle e).isSome)
    ⟨ht, fun _ => rfl, fun _ h => h⟩ ?_
  rintro u pid t ⟨hu, hview, hcycles⟩ hctx hexp
  have hmark := unseen_modifyCtx u pid (fun t => { t with state := .timeout }) fun t' ht' => by
    rw [hctx, Option.some.injEq] at ht'
    exact ht' ▸ TaskCtx.view_timeout hexp
  obtain ⟨hvalid, hsome⟩ := hx.known pid t.view (by rw [← hview, view_of_ctx hctx])
  obtain ⟨c, hc⟩ := Option.isSome_iff_exists.mp (hcycles t.eid hsome)
  have htokens := tokens_push
    (s := u.modifyCtx pid fun t => { t with state := .timeout }) hc true
  refine ⟨⟨fun e => ?_, fun e he => ?_⟩, fun q => ?_, fun e he => ?_⟩
  · rw [htokens]
    exact (hu.exact e).push hu.room
  · have hqueue : _ = (u.tokens.push dispatchQueueEntries t.eid).queue :=
      congrArg Tokens.queue htokens
    replace he : e ∈ (u.tokens.push dispatchQueueEntries t.eid).queue := hqueue ▸ he
    rcases Tokens.mem_push he with he | rfl
    · exact hu.groups e he
    · exact hvalid
  · rw [view_push, hmark.view, hview]
  · by_cases hb : e = t.eid
    · subst hb
      rw [cycle_push, Option.isSome_map]
      exact hcycles _ he
    · rw [cycle_push_of_ne _ _ _ hb]
      exact hcycles e he

/-- **Tokens stay exact** through every callback that is not the exit of the last
participant of a group whose token is queued. -/
theorem Sys.TokensExact.step (hx : x.Sound cfg) (ht : x.TokensExact) (hkeep : x.KeepsToken cb)
    (h : x.step cfg cb = some y) : y.TokensExact := by
  rcases step_interprets hx.placed h with ⟨now, rfl, rfl⟩ | ⟨p, eid, ev, v, ph, hi, hm⟩
  · exact ht.timer hx.placed now
  have htokens := hm.tokens hi
  have hroom := ht.room
  refine ⟨fun e => ?_, fun e he => ?_⟩
  · rw [htokens]
    exact Event.exact_onTokens (ht.exact e) (Nat.le_of_lt hroom) hi.head
      (fun _ _ => .inr hroom) fun hr => hi.reset_clear hx hkeep hm hr
  · rw [hm.queue] at he
    rcases Event.mem_queueAfter he with he | ⟨rfl, hopen⟩
    · exact ht.groups e he
    · exact hi.group_lt hx.placed ht hopen

/-- **Dispatch tokens are exact** in every state that is reached without the last
participant of a group exiting while the group's token is queued: a group with a
cycle has one token if its flag is up and none otherwise, and the queue has room. -/
theorem tokens_exact (hN : 1 ≤ cfg.cycleThreadCount) {cbs : List Callback}
    (hkeep : StepRuns.Along (Sys.step cfg) Sys.KeepsToken Sys.init cbs)
    (hrun : Sys.init.run cfg cbs = some x) :
    (∀ e c, x.bpf.cycle e = some c →
      x.bpf.cycleDispatchQueue.count e = if c.pendingDispatch then 1 else 0) ∧
    x.bpf.cycleDispatchQueue.length < dispatchQueueEntries := by
  have hinit : Sys.init.Sound cfg ∧ Sys.init.TokensExact :=
    ⟨Sys.sound_init hN, fun _ => rfl, fun _ h => nomatch h⟩
  have hx : x.Sound cfg ∧ x.TokensExact :=
    StepRuns.invariant_along (I := fun x => x.Sound cfg ∧ x.TokensExact)
      (fun _ _ _ hx hkeep h => ⟨hx.1.step hN h, hx.2.step hx.1 hkeep h⟩) hinit hkeep hrun
  refine ⟨fun e c hc => ?_, hx.2.room⟩
  have hexact : x.bpf.cycleDispatchQueue.count e =
      ((x.bpf.cycle e).any SchedCycle.pendingDispatch).toNat := hx.2.exact e
  rw [hexact, hc, Option.any_some]
  cases c.pendingDispatch <;> rfl

end Runs

/-- A participant runs, sleeps and exits, while another one is parked. -/
theorem tokens_exact_of_exit :
    ∃ x, Sys.init.run ⟨2, 3, .rp⟩ [.yield (executorThread 5), .yield (executorThread 6),
        .enqueue (executorThread 5) 10 id, .enqueue (executorThread 6) 10 id, .dispatch,
        .running (executorThread 5), .quiescent (executorThread 5) scxDeqSleep,
        .exitTask (executorThread 5)] = some x ∧
      (∀ e c, x.bpf.cycle e = some c →
        x.bpf.cycleDispatchQueue.count e = if c.pendingDispatch then 1 else 0) ∧
      x.bpf.cycleDispatchQueue.length < dispatchQueueEntries := by
  have hN : 1 ≤ (Config.mk 2 3 .rp).cycleThreadCount := by decide
  obtain ⟨x, hrun⟩ : ∃ x, Sys.init.run ⟨2, 3, .rp⟩ [.yield (executorThread 5),
      .yield (executorThread 6), .enqueue (executorThread 5) 10 id,
      .enqueue (executorThread 6) 10 id, .dispatch, .running (executorThread 5),
      .quiescent (executorThread 5) scxDeqSleep, .exitTask (executorThread 5)] = some x :=
    ⟨_, rfl⟩
  refine ⟨x, hrun, tokens_exact hN ?_ hrun⟩
  refine ⟨trivial, fun x1 h1 => ⟨trivial, fun x2 h2 => ⟨trivial, fun x3 h3 => ⟨trivial,
    fun x4 h4 => ⟨trivial, fun x5 h5 => ⟨trivial, fun x6 h6 => ⟨trivial, fun x7 h7 => ⟨?_,
      fun _ _ => trivial⟩⟩⟩⟩⟩⟩⟩⟩
  cases h1
  cases h2
  cases h3
  cases h4
  cases h5
  cases h6
  cases h7
  intro t c ht _ hc _ _ halive
  cases ht
  cases hc
  exact absurd halive (by decide)

/-- The only participant sleeps, which opens the gate on an empty queue, and
exits: the reset lowers the flag and the token stays. -/
theorem tokens_exact_fails :
    ∃ x c, Sys.init.run ⟨1, 3, .rp⟩ [.yield (executorThread 5),
        .enqueue (executorThread 5) 10 id, .dispatch, .running (executorThread 5),
        .quiescent (executorThread 5) scxDeqSleep, .exitTask (executorThread 5)] = some x ∧
      x.bpf.cycle 0 = some c ∧ c.pendingDispatch = false ∧
      x.bpf.cycleDispatchQueue.count 0 = 1 := by
  refine ⟨_, _, rfl, rfl, ?_⟩
  decide

end Sect.Serialise
