import SectProof.SerialiseGroup

/-! # The counters of a group

`num_alive` and `num_asleep` are exact in every state, whatever callbacks are
delivered: no participant is counted twice and none is forgotten, not even
through a timeout, and a cycle is reset only when its last participant is gone.
`Counted` is the invariant that carries this; it also records how `num_alive`
stands to `num_expected_threads` while the cycle gathers its participants.

`num_queued` is exact only while nobody leaves the group's queue behind the
scheduler's back; `Queued` is that invariant and `Event.Accounted` the condition
that keeps it. -/

namespace Sect.Serialise

open SchedCycle

/-- The number of participants. -/
def Population.total (pop : Phase → Nat) : Nat :=
  pop .yielded + pop .parked + pop .dispatched + pop .onCpu + pop .asleep + pop .waking +
    pop .detached + pop .global

/-- **The participants are counted.** -/
structure Group.Counted (g : Group) : Prop where
  alive : g.cycle.numAlive = Population.total g.pop
  asleep : g.cycle.numAsleep = g.pop .asleep
  expected : 1 ≤ g.cycle.numExpectedThreads
  gathering : g.cycle.state = .unavailable → g.cycle.numAlive < g.cycle.numExpectedThreads
  ready : g.cycle.state = .ready → g.cycle.numAlive = g.cycle.numExpectedThreads

/-! ## How totals move -/

section Totals
variable {pop : Phase → Nat} {a b : Phase}

theorem Population.total_enter (hb : b ≠ .outside) :
    total (fun ph => pop ph + if some b = some ph then 1 else 0) = total pop + 1 := by
  unfold total
  cases b with
  | outside => exact absurd rfl hb
  | _ => simp; omega

theorem Population.total_leave (ha : a ≠ .outside) (hpos : 0 < pop a) :
    total (fun ph => pop ph - if some a = some ph then 1 else 0) + 1 = total pop := by
  unfold total
  cases a with
  | outside => exact absurd rfl ha
  | _ => simp; omega

/-- Somebody moves inside the group. -/
theorem Population.total_move (ha : a ≠ .outside) (hb : b ≠ .outside) (hpos : 0 < pop a) :
    total (shift (some a) (some b) pop) = total pop :=
  calc total (shift (some a) (some b) pop)
      = total (fun ph => pop ph - if some a = some ph then 1 else 0) + 1 := total_enter hb
    _ = total pop := total_leave ha hpos

theorem Population.total_join (hb : b ≠ .outside) :
    total (shift none (some b) pop) = total pop + 1 := total_enter hb

theorem Population.total_exit (ha : a ≠ .outside) (hpos : 0 < pop a) :
    total (shift (some a) none pop) + 1 = total pop := total_leave ha hpos

/-- A push leaves the state alone, or sets it to running or timeout. -/
theorem SchedCycle.state_pushIf_cases (opens timeout : Bool) (c : SchedCycle) :
    (c.pushIf opens timeout).state = c.state ∨ (c.pushIf opens timeout).state = .running ∨
      (c.pushIf opens timeout).state = .timeout := by
  rw [state_pushIf]
  split
  · split
    · exact .inr (.inr rfl)
    · exact .inr (.inl rfl)
  · exact .inl rfl

theorem SchedCycle.running_of_allParked {c : SchedCycle} (h : c.allParked = true) :
    c.state = .running :=
  of_decide_eq_true (Bool.and_eq_true_iff.mp h).1

end Totals

/-! ## Every event keeps the count -/

namespace Group
variable {cfg : Config} {g g' : Group} {ev : Event}

/-- Nobody joins or exits, and nobody's sleep is forgotten. -/
theorem Counted.keep (h : g.Counted) (halive : g'.cycle.numAlive = g.cycle.numAlive)
    (hexp : g'.cycle.numExpectedThreads = g.cycle.numExpectedThreads)
    (hstate : g'.cycle.state = g.cycle.state ∨ g'.cycle.state = .running ∨
      g'.cycle.state = .timeout)
    (htotal : Population.total g'.pop = Population.total g.pop)
    (hasleep : g'.cycle.numAsleep = g'.pop .asleep) : g'.Counted := by
  refine ⟨by rw [halive, htotal, h.alive], hasleep, by rw [hexp]; exact h.expected, ?_, ?_⟩
  · intro hs
    rcases hstate with h' | h' | h'
    · rw [halive, hexp]; exact h.gathering (h' ▸ hs)
    · rw [h'] at hs; cases hs
    · rw [h'] at hs; cases hs
  · intro hs
    rcases hstate with h' | h' | h'
    · rw [halive, hexp]; exact h.ready (h' ▸ hs)
    · rw [h'] at hs; cases hs
    · rw [h'] at hs; cases hs

variable {a b : Option Phase} {pop : Phase → Nat} {ph : Phase} {st : ThreadState} {c : SchedCycle}

theorem Counted.push (h : Counted ⟨c, pop⟩) (opens timeout : Bool) :
    Counted ⟨(c.pushIf opens timeout).gate, pop⟩ :=
  h.keep (numAlive_pushIf ..) (numExpectedThreads_pushIf ..)
    (state_pushIf_cases ..) rfl ((numAsleep_pushIf ..).trans h.asleep)

/-- A move between awake phases does not change who is asleep. -/
theorem shift_asleep (ha : a ≠ some .asleep) (hb : b ≠ some .asleep) :
    Population.shift a b pop .asleep = pop .asleep := by
  unfold Population.shift
  rw [if_neg ha, if_neg hb]
  omega

/-- The only phase of a participant that is not counted is outside. -/
theorem ne_outside_of_mem {l : List Phase} (h : ph ∈ l) (hl : Phase.outside ∉ l) :
    ph ≠ .outside := fun heq => hl (heq ▸ h)

theorem Counted.join (h : g.Counted) (hs : g.cycle.state = .unavailable) :
    (g.apply cfg .join).Counted := by
  obtain ⟨c, pop⟩ := g
  have halive : c.numAlive = Population.total pop := h.alive
  have hroom : c.numAlive < c.numExpectedThreads := h.gathering hs
  have hs : c.state = .unavailable := hs
  have htotal : Population.total (Population.shift none (some .yielded) pop) =
      Population.total pop + 1 := Population.total_join (by simp)
  refine ⟨?_, ?_, h.expected, ?_, ?_⟩
  · show c.numAlive + 1 = (Population.total (Population.shift none (some .yielded) pop) : Nat)
    omega
  · show c.numAsleep = (Population.shift none (some .yielded) pop .asleep : Nat)
    exact h.asleep
  -- the last expected participant makes the cycle ready
  · show (if c.numAlive + 1 = c.numExpectedThreads then .ready else c.state) =
      .unavailable → c.numAlive + 1 < c.numExpectedThreads
    intro hs'
    split at hs'
    · cases hs'
    · omega
  · show (if c.numAlive + 1 = c.numExpectedThreads then .ready else c.state) =
      .ready → c.numAlive + 1 = c.numExpectedThreads
    intro hs'
    split at hs'
    · assumption
    · rw [hs] at hs'; cases hs'

/-- A participant leaves for good.  The cycle is reset only when nobody is left. -/
theorem Counted.exit (h : g.Counted) (hN : 1 ≤ cfg.cycleThreadCount) {asleep : Bool}
    (hpos : 0 < g.pop ph) (hph : ph ≠ .outside) (hasleep : asleep = true ↔ ph = .asleep) :
    (g.apply cfg (.exit ph st asleep)).Counted := by
  obtain ⟨c, pop⟩ := g
  show Counted ⟨(c.afterExit cfg st asleep).gate, Population.shift (some ph) none pop⟩
  have hpos : 0 < pop ph := hpos
  have halive : c.numAlive = Population.total pop := h.alive
  have hsleepers : c.numAsleep = pop .asleep := h.asleep
  have hexp : 1 ≤ c.numExpectedThreads := h.expected
  have hgather : c.state = .unavailable → c.numAlive < c.numExpectedThreads := h.gathering
  have hready : c.state = .ready → c.numAlive = c.numExpectedThreads := h.ready
  have htotal : Population.total (Population.shift (some ph) none pop) + 1 =
      Population.total pop := Population.total_exit hph hpos
  have hle : pop .asleep ≤ Population.total pop := by unfold Population.total; omega
  have halive' : (c.exit st asleep).numAlive =
      Population.total (Population.shift (some ph) none pop) := by
    show (if c.numAlive > 0 then c.numAlive - 1 else c.numAlive) = _
    split <;> omega
  have hsleepers' : (c.exit st asleep).numAsleep =
      (Population.shift (some ph) none pop .asleep : Nat) := by
    show (if asleep = true ∧ c.numAsleep > 0 then c.numAsleep - 1 else c.numAsleep) = _
    unfold Population.shift
    by_cases ha : ph = .asleep
    · subst ha
      rw [if_pos ⟨hasleep.mpr rfl, by omega⟩]
      simp
      omega
    · rw [if_neg fun h' => ha (hasleep.mp h'.1), if_neg fun h' => ha (Option.some.inj h')]
      simp
      omega
  have hexp' : (c.exit st asleep).numExpectedThreads = if c.state = .ready ∨ c.state = .unavailable
      then c.numExpectedThreads - 1 else c.numExpectedThreads := rfl
  unfold SchedCycle.afterExit
  by_cases hfin : (c.exit st asleep).finished c.state = true
  · -- nobody is left: a cycle runs out of expected threads only with its last participant
    rw [if_pos hfin, gate_reset]
    have hzero : Population.total (Population.shift (some ph) none pop) = 0 := by
      unfold SchedCycle.finished at hfin
      simp only [Bool.or_eq_true, Bool.and_eq_true, decide_eq_true_eq] at hfin
      rcases hfin with h0 | ⟨h0, _⟩
      · rw [hexp'] at h0
        split at h0
        · rename_i hs
          rcases hs with hs | hs
          · have := hready hs
            omega
          · have := hgather hs
            omega
        · omega
      · omega
    have hnone : Population.shift (some ph) none pop .asleep = 0 := by
      unfold Population.total at hzero
      omega
    refine ⟨?_, ?_, hN, fun _ => ?_, fun hs => nomatch hs⟩
    · rw [hzero]; rfl
    · show (0 : Int) = (Population.shift (some ph) none pop .asleep : Nat)
      rw [hnone]; rfl
    · show 0 < cfg.cycleThreadCount
      omega
  · rw [if_neg hfin]
    have hne : (c.exit st asleep).numExpectedThreads ≠ 0 := fun h0 => hfin (by
      unfold SchedCycle.finished
      rw [decide_eq_true h0, Bool.true_or])
    have hcounted : Counted ⟨c.exit st asleep, Population.shift (some ph) none pop⟩ := by
      refine ⟨halive', hsleepers', ?_, fun hs => ?_, fun hs => ?_⟩
      · rw [hexp'] at hne ⊢
        split_ifs at hne ⊢ <;> omega
      · have hlt := hgather hs
        rw [halive', hexp', if_pos (.inr hs)]
        omega
      · have heq := hready hs
        rw [halive', hexp', if_pos (.inl hs)]
        omega
    exact hcounted.push ..

/-- A move inside the group that the cycle does not react to. -/
theorem Counted.move (h : g.Counted) {a b : Phase} (hpos : 0 < g.pop a) (ha : a ≠ .outside)
    (hb : b ≠ .outside) (halive : c.numAlive = g.cycle.numAlive)
    (hexp : c.numExpectedThreads = g.cycle.numExpectedThreads) (hstate : c.state = g.cycle.state)
    (hasleep : c.numAsleep = (Population.shift (some a) (some b) g.pop .asleep : Nat)) :
    Counted ⟨c, Population.shift (some a) (some b) g.pop⟩ :=
  h.keep halive hexp (.inl hstate) (Population.total_move ha hb hpos) hasleep

/-- Nobody moves. -/
theorem Counted.still (h : g.Counted) (halive : c.numAlive = g.cycle.numAlive)
    (hexp : c.numExpectedThreads = g.cycle.numExpectedThreads) (hstate : c.state = g.cycle.state)
    (hasleep : c.numAsleep = g.cycle.numAsleep) :
    Counted ⟨c, Population.shift none none g.pop⟩ :=
  h.keep halive hexp (.inl hstate) rfl (hasleep.trans h.asleep)

/-- **Every event keeps the count.** -/
theorem Counted.apply (h : g.Counted) (hN : 1 ≤ cfg.cycleThreadCount) (ha : g.Allows ev) :
    (g.apply cfg ev).Counted := by
  have hpos := ha.populated
  have hen := ha.enabled
  have hsame : ∀ {a b : Phase}, a ≠ .asleep → b ≠ .asleep →
      g.cycle.numAsleep = (Population.shift (some a) (some b) g.pop .asleep : Nat) := by
    intro a b ha hb
    rw [shift_asleep (by simpa using ha) (by simpa using hb)]
    exact h.asleep
  have hawake : ∀ {ph : Phase} {l : List Phase}, ph ∈ l → .outside ∉ l → .asleep ∉ l →
      ph ≠ .outside ∧ ph ≠ .asleep := fun hmem hout hasleep =>
    ⟨fun heq => hout (heq ▸ hmem), fun heq => hasleep (heq ▸ hmem)⟩
  cases ev with
  | idle => exact h.still rfl rfl rfl rfl
  | join => exact h.join hen
  | park ph =>
    have hph := hawake hen.1 (by simp) (by simp)
    exact (h.move (c := g.cycle.countEnqueue) (hpos ph rfl) hph.1 (by simp) rfl rfl rfl
      (hsame hph.2 (by simp))).push ..
  | pass ph =>
    have hph := hawake hen.1 (by simp) (by simp)
    exact h.move (hpos ph rfl) hph.1 (by simp) rfl rfl rfl (hsame hph.2 (by simp))
  | detach ph | run ph =>
    have hph := hawake hen (by simp) (by simp)
    exact h.move (hpos ph rfl) hph.1 (by simp) rfl rfl rfl (hsame hph.2 (by simp))
  | move =>
    exact (h.move (c := g.cycle.dispatchMoved) (hpos .parked rfl) (by simp) (by simp) rfl rfl rfl
      (hsame (by simp) (by simp))).push ..
  | empty => exact (h.still (c := g.cycle.dispatchEmpty) rfl rfl rfl rfl).push ..
  | drop => exact h.still rfl rfl rfl rfl
  | wake =>
    have hsleeper : 0 < g.pop .asleep := hpos .asleep rfl
    have hasleep := h.asleep
    refine (h.move (c := g.cycle.wake) hsleeper (by simp) (by simp) rfl rfl rfl ?_).push ..
    show (if g.cycle.numAsleep > 0 then g.cycle.numAsleep - 1 else g.cycle.numAsleep) = _
    simp [Population.shift]
    omega
  | sleep ph st =>
    have hph := hawake hen.1 (by simp) (by simp)
    have hasleep := h.asleep
    refine (h.move (c := g.cycle.sleep st) (hpos ph rfl) hph.1 (by simp) rfl rfl rfl ?_).push ..
    show g.cycle.numAsleep + 1 = _
    simp [Population.shift, hph.2]
    omega
  | exit ph st asleep =>
    exact h.exit hN (hpos ph rfl) (ne_outside_of_mem hen.1 (by simp)) hen.2
  | expire => exact (h.still rfl rfl rfl rfl).push true true

/-! ## The queue -/

/-- **The parked are counted**, until the cycle times out. -/
def Queued (g : Group) : Prop := g.cycle.state ≠ .timeout → g.cycle.numQueued = g.pop .parked

/-- The event leaves `num_queued` in step with the group's queue: nobody is taken
out of the queue unaccounted, and nobody who is not in it is taken off the count. -/
def Accounts (g : Group) : Event → Prop
  | .detach ph => ph ≠ .parked
  | .sleep ph st => ph ≠ .parked → st.standing = .enqueued → g.cycle.numQueued = 0
  | .exit _ st _ => st.standing = .enqueued → g.cycle.numQueued = 0
  | _ => True

/-- A timed-out cycle stays timed out through a push of its own kind. -/
theorem state_of_pushIf {opens timeout : Bool} (h : (c.pushIf opens timeout).state ≠ .timeout)
    (hkind : c.state = .timeout → opens = true → timeout = true) : c.state ≠ .timeout := by
  intro hs
  rw [state_pushIf] at h
  split at h
  · rename_i ho
    rw [hkind hs (by simpa using (Bool.and_eq_true_iff.mp ho).1)] at h
    exact h rfl
  · exact h hs

/-- A push because everybody is parked is none of a timed-out cycle. -/
theorem state_of_pushIf_allParked (h : (c.pushIf c.allParked false).state ≠ .timeout) :
    c.state ≠ .timeout := by
  refine state_of_pushIf h fun hs hopen => ?_
  rw [running_of_allParked hopen] at hs
  cases hs

theorem shift_parked (ha : a ≠ some .parked) (hb : b ≠ some .parked) :
    Population.shift a b pop .parked = pop .parked := by
  unfold Population.shift
  rw [if_neg ha, if_neg hb]
  omega

/-- What a sleep or an exit takes off `num_queued`. -/
theorem uncount_eq {n : Int} :
    (if (st = .enqueued ∨ st = .timeout) ∧ n > 0 then n - 1 else n) =
      if st.standing = .enqueued ∧ n > 0 then n - 1 else n := by
  simp only [ThreadState.standing_eq_enqueued]

/-- **An accounted event keeps the count of the parked.** -/
theorem Queued.apply (h : g.Queued) (hN : 1 ≤ cfg.cycleThreadCount) (hc : g.Counted)
    (ha : g.Allows ev) (hacc : g.cycle.state ≠ .timeout → g.Accounts ev) :
    (g.apply cfg ev).Queued := by
  have hcount := hc.apply hN ha
  obtain ⟨c, pop⟩ := g
  have hpos : ∀ ph, ev.source = some ph → 0 < pop ph := ha.populated
  have hen := ha.enabled
  have hq : c.state ≠ .timeout → c.numQueued = pop .parked := h
  -- an event that moves nobody into or out of the queue, and does not count
  have hkeep : ∀ (c' : SchedCycle) {a b : Option Phase}, (c'.state ≠ .timeout → c.state ≠ .timeout) →
      (c.state ≠ .timeout → c'.numQueued = c.numQueued) → a ≠ some .parked → b ≠ some .parked →
      Queued ⟨c'.gate, Population.shift a b pop⟩ := by
    intro c' a b hstate hnum ha hb hs
    have hs := hstate hs
    show c'.numQueued = (Population.shift a b pop .parked : Nat)
    rw [shift_parked ha hb, hnum hs]
    exact hq hs
  cases ev with
  | idle => exact hkeep c id (fun _ => rfl) (by simp [Event.source]) (by simp [Event.target])
  | join =>
    have hopen : c.state = .unavailable := hen
    exact hkeep c.join (fun _ => by rw [hopen]; simp) (fun _ => rfl) (by simp [Event.source])
      (by simp [Event.target])
  | park ph =>
    obtain ⟨hmem, hopen⟩ : _ ∧ c.state ≠ .timeout := hen
    have hph : ph ≠ .parked := by rintro rfl; simp at hmem
    intro _
    show c.afterPark.numQueued = (Population.shift (some ph) (some .parked) pop .parked : Nat)
    have hnum : c.afterPark.numQueued = c.numQueued + 1 := numQueued_pushIf ..
    rw [hnum, hq hopen]
    simp [Population.shift, hph]
  | pass ph =>
    obtain ⟨_, hover⟩ : _ ∧ c.state = .timeout := hen
    exact fun hs => absurd hover hs
  | detach ph =>
    refine fun hs => hkeep c id (fun _ => rfl) ?_ (by simp [Event.target]) hs
    have hph : ph ≠ .parked := hacc hs
    simpa [Event.source] using hph
  | run ph =>
    have hmem : ph ∈ _ := hen
    refine hkeep c id (fun _ => rfl) ?_ (by simp [Event.target])
    rintro ⟨⟩
    simp at hmem
  | move =>
    intro hs
    have hs : c.state ≠ .timeout :=
      state_of_pushIf (c := c.dispatchMoved) hs fun _ _ => rfl
    have hparked : 0 < pop .parked := hpos .parked rfl
    have hnum : c.afterMove.numQueued =
        if c.numQueued > 0 then c.numQueued - 1 else c.numQueued := numQueued_pushIf ..
    show c.afterMove.numQueued = (Population.shift (some .parked) (some .dispatched) pop .parked : Nat)
    have := hq hs
    simp [Population.shift]
    omega
  | empty =>
    refine hkeep c.afterEmpty (fun hs => ?_) (fun hs => ?_) (by simp [Event.source])
      (by decide)
    · exact state_of_pushIf (c := c.dispatchEmpty) hs fun hs' _ => decide_eq_true hs'
    · have hnum : c.afterEmpty.numQueued = if c.state = .timeout then 0 else c.numQueued :=
        numQueued_pushIf ..
      rw [hnum, if_neg hs]
  | drop => exact hkeep c id (fun _ => rfl) (by decide) (by decide)
  | wake =>
    exact hkeep c.afterWake (state_of_pushIf_allParked (c := c.wake))
      (fun _ => numQueued_pushIf ..) (by decide) (by decide)
  | sleep ph st =>
    obtain ⟨hmem, hst, _⟩ := hen
    intro hs
    have hs : c.state ≠ .timeout := state_of_pushIf_allParked (c := c.sleep st) hs
    have hnum : (c.afterSleep st).numQueued =
        if st.standing = .enqueued ∧ c.numQueued > 0 then c.numQueued - 1 else c.numQueued :=
      (numQueued_pushIf ..).trans uncount_eq
    have hacc := hacc hs
    have := hq hs
    show (c.afterSleep st).numQueued = (Population.shift (some ph) (some .asleep) pop .parked : Nat)
    rw [hnum]
    by_cases hph : ph = .parked
    · subst hph
      have := hpos .parked rfl
      rw [if_pos ⟨hst rfl, by omega⟩]
      simp [Population.shift]
      omega
    · rw [shift_parked (by simpa using hph) (by simp), if_neg, this]
      rintro ⟨he, hgt⟩
      have hzero : c.numQueued = 0 := hacc hph he
      omega
  | exit ph st asleep =>
    obtain ⟨hmem, _⟩ := hen
    have hph : ph ≠ .parked := by rintro rfl; simp at hmem
    intro hs
    have halive := hcount.alive
    change (c.afterExit cfg st asleep).state ≠ .timeout at hs
    change (c.afterExit cfg st asleep).numAlive = (Population.total
      (Population.shift (some ph) none pop) : Nat) at halive
    show (c.afterExit cfg st asleep).numQueued = (Population.shift (some ph) none pop .parked : Nat)
    unfold SchedCycle.afterExit at hs halive ⊢
    by_cases hfin : (c.exit st asleep).finished c.state = true
    · -- the reset finds nobody left, so nobody parked
      rw [if_pos hfin] at halive ⊢
      have halive : (0 : Int) = (Population.total (Population.shift (some ph) none pop) : Nat) :=
        halive
      show (0 : Int) = _
      unfold Population.total at halive
      omega
    · rw [if_neg hfin] at hs ⊢
      have hs : c.state ≠ .timeout :=
        state_of_pushIf (c := c.exit st asleep) hs fun hs' _ => decide_eq_true hs'
      have hnum : (c.exit st asleep).numQueued =
          if st.standing = .enqueued ∧ c.numQueued > 0 then c.numQueued - 1 else c.numQueued :=
        uncount_eq
      rw [numQueued_pushIf, hnum, shift_parked (by simpa using hph) (by simp), if_neg]
      · exact hq hs
      · rintro ⟨he, hgt⟩
        have hzero : c.numQueued = 0 := hacc hs he
        omega
  | expire =>
    refine hkeep (c.push true) (fun hs => ?_)
      (fun _ => numQueued_pushIf true true _) (by decide)
      (by decide)
    exact @state_of_pushIf c true true hs fun _ _ => rfl

end Group

end Sect.Serialise
