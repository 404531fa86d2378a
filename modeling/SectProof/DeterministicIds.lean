import SectProof.DispatchTokens
import SectProof.TaskRecords

/-! # Deterministic ids

A task draws its id from its group's cycle when it is registered, and the cursor
goes back to zero when the cycle is reset.  As long as a reset finds no task of
the group registered but not joined, and a registration finds room for its
context, the tasks of a group that are not ignored hold pairwise distinct ids
between 1 and the cursor.  With at most `MAX_CYCLE_THREADS` draws in a cycle the
ids are distinct modulo that number, so no two participants share a PCT slot. -/

open Option

namespace Sect.Serialise

/-- **The ids are in order**: what is on record is in use, and the tasks that may
join hold distinct ids up to the cursor of their group. -/
structure State.Numbered (s : State) : Prop where
  recorded : ∀ q, (s.pidToDetId.lookup q).isSome → (s.ctx q).isSome
  limit : ∀ e, s.drawn e ≤ maxCycleThreads
  bounded : ∀ q t, s.ctx q = some t → t.state ≠ .ignored → 1 ≤ t.detId ∧ t.detId ≤ s.drawn t.eid
  distinct : ∀ q r t t', s.ctx q = some t → s.ctx r = some t' → t.state ≠ .ignored →
    t'.state ≠ .ignored → t.eid = t'.eid → t.detId = t'.detId → q = r

/-- Groups, ids and draws stay, and who is ignored stays ignored. -/
structure KeepsIds (s u : State) : Prop where
  ids : ∀ q, (u.ctx q).map (fun t => (t.eid, t.detId)) = (s.ctx q).map (fun t => (t.eid, t.detId))
  ignored : ∀ q t t', s.ctx q = some t → u.ctx q = some t' → t.state = .ignored →
    t'.state = .ignored
  drawn : ∀ e, u.drawn e = s.drawn e
  pids : u.pidToDetId = s.pidToDetId

theorem Steady.keepsIds {s u : State} (h : Steady s u) : KeepsIds s u where
  ids q := by
    have htag := congrArg (Option.map fun t : TaskTag => (t.eid, t.detId)) (h.tags q)
    rwa [map_map, map_map] at htag
  ignored := h.ignored
  drawn := h.drawn
  pids := h.pids

section Numbered
variable {s u : State}

theorem KeepsIds.ctx_some (h : KeepsIds s u) {q : Nat} {t : TaskCtx} (ht : u.ctx q = some t) :
    ∃ t', s.ctx q = some t' ∧ t'.eid = t.eid ∧ t'.detId = t.detId ∧
      (t.state ≠ .ignored → t'.state ≠ .ignored) := by
  have hid := h.ids q
  rw [ht, map_some] at hid
  obtain ⟨t', ht', heq⟩ := map_eq_some_iff.mp hid.symm
  obtain ⟨heid, hdet⟩ := Prod.mk.inj heq
  exact ⟨t', ht', heid, hdet, fun hn hi => hn (h.ignored q t' t ht' ht hi)⟩

theorem State.Numbered.keep (hs : s.Numbered) (h : KeepsIds s u) : u.Numbered where
  recorded q hq := by
    have hsome := hs.recorded q (h.pids ▸ hq)
    have hid := congrArg Option.isSome (h.ids q)
    rw [isSome_map, isSome_map] at hid
    rw [hid]
    exact hsome
  limit e := by rw [h.drawn]; exact hs.limit e
  bounded q t ht hn := by
    obtain ⟨t', ht', heid, hdet, hn'⟩ := h.ctx_some ht
    rw [← heid, ← hdet, h.drawn]
    exact hs.bounded q t' ht' (hn' hn)
  distinct q r t₁ t₂ h₁ h₂ n₁ n₂ heid hdet := by
    obtain ⟨t₁', h₁', e₁, d₁, n₁'⟩ := h.ctx_some h₁
    obtain ⟨t₂', h₂', e₂, d₂, n₂'⟩ := h.ctx_some h₂
    exact hs.distinct q r t₁' t₂' h₁' h₂' (n₁' n₁) (n₂' n₂) (by rw [e₁, e₂, heid])
      (by rw [d₁, d₂, hdet])

/-- A registration with room, within the limit. -/
theorem State.Numbered.enrol (hs : s.Numbered) {p eid : Nat} (h : Enrols p eid s u)
    (hroom : eid ≠ invalidEid → s.ctx p = none → s.taskCtxMap.size < maxTasks)
    (hlimit : eid ≠ invalidEid → s.ctx p = none → s.drawn eid < maxCycleThreads) :
    u.Numbered := by
  cases h with
  | same => exact hs
  | full hvalid hnone hdraw hfull =>
    have := hroom hvalid hnone
    omega
  | @new d u hvalid hnone hdraw _ =>
    have hlt := hlimit hvalid hnone
    -- the task has no id on record, as it has no context
    have hpid : s.pidToDetId.lookup p = none := by
      rw [eq_none_iff_forall_ne_some]
      intro d hd
      have hsome := hs.recorded p (by rw [hd]; rfl)
      rw [hnone] at hsome
      cases hsome
    obtain ⟨hd, hself⟩ := hdraw.fresh hpid
    have hmax : maxCycleThreads = 200 := rfl
    rw [Nat.mod_eq_of_lt (by omega)] at hd
    generalize hu : ({ u with taskCtxMap := u.taskCtxMap.insert p (.fresh eid d) } : State) = w
    have hctx : ∀ q, w.ctx q = if q = p then some (.fresh eid d) else s.ctx q := by
      intro q
      rw [← hu]
      show Table.lookup q (Table.insert p _ _) = _
      rw [Table.lookup_insert, hdraw.ctxs]
      rfl
    have hdrawn : ∀ e, w.drawn e = u.drawn e := by intro e; rw [← hu]; rfl
    have hle : ∀ e, s.drawn e ≤ w.drawn e := by
      intro e
      rw [hdrawn]
      by_cases he : e = eid
      · subst he; omega
      · rw [hdraw.others e he]
    have hnew : w.drawn eid = d := (hdrawn eid).trans hself
    -- an old task stays below the new id
    have hold : ∀ {q t}, q ≠ p → w.ctx q = some t → s.ctx q = some t := by
      intro q t hq ht
      rwa [hctx, if_neg hq] at ht
    have hbelow : ∀ {q t}, s.ctx q = some t → t.state ≠ .ignored → t.eid = eid → t.detId < d := by
      intro q t ht hn heid
      have := (hs.bounded q t ht hn).2
      rw [heid] at this
      omega
    have hnewCtx : ∀ {t}, w.ctx p = some t → t = .fresh eid d := by
      intro t ht
      rw [hctx, if_pos rfl, some.injEq] at ht
      exact ht.symm
    refine ⟨fun q hq => ?_, fun e => ?_, fun q t ht hn => ?_,
      fun q r t₁ t₂ h₁ h₂ n₁ n₂ heid hdet => ?_⟩
    · rw [hctx]
      split
      · rfl
      · rename_i hqp
        rcases hdraw.pids q (by rw [← hu] at hq; exact hq) with h | h
        · exact absurd h hqp
        · exact hs.recorded q h
    · by_cases he : e = eid
      · subst he; omega
      · rw [hdrawn, hdraw.others e he]; exact hs.limit e
    · by_cases hq : q = p
      · subst hq
        rw [hnewCtx ht]
        show 1 ≤ d ∧ d ≤ w.drawn eid
        omega
      · obtain ⟨h1, h2⟩ := hs.bounded q t (hold hq ht) hn
        exact ⟨h1, Nat.le_trans h2 (hle _)⟩
    · by_cases hq : q = p <;> by_cases hr : r = p
      · rw [hq, hr]
      · subst hq
        rw [hnewCtx h₁] at heid hdet
        have := hbelow (hold hr h₂) n₂ heid.symm
        exact absurd hdet.symm (Nat.ne_of_lt this)
      · subst hr
        rw [hnewCtx h₂] at heid hdet
        have := hbelow (hold hq h₁) n₁ heid
        exact absurd hdet (Nat.ne_of_lt this)
      · exact hs.distinct q r t₁ t₂ (hold hq h₁) (hold hr h₂) n₁ n₂ heid hdet

theorem State.Numbered.forget (hs : s.Numbered) (p : Nat) : (forgetTask p s).Numbered := by
  have hctx : ∀ q, (forgetTask p s).ctx q = if q = p then none else s.ctx q := fun q =>
    Table.lookup_erase p q s.taskCtxMap
  have hpid : ∀ q, (forgetTask p s).pidToDetId.lookup q =
      if q = p then none else s.pidToDetId.lookup q := fun q =>
    Table.lookup_erase p q s.pidToDetId
  have hold : ∀ {q t}, (forgetTask p s).ctx q = some t → s.ctx q = some t := by
    intro q t ht
    rw [hctx] at ht
    split at ht
    · cases ht
    · exact ht
  refine ⟨fun q hq => ?_, hs.limit, fun q t ht hn => hs.bounded q t (hold ht) hn,
    fun q r t₁ t₂ h₁ h₂ => hs.distinct q r t₁ t₂ (hold h₁) (hold h₂)⟩
  rw [hpid] at hq
  rw [hctx]
  split
  · rename_i h
    rw [if_pos h] at hq
    cases hq
  · rename_i h
    rw [if_neg h] at hq
    exact hs.recorded q hq

/-- A reset of a group that has nobody left who may join. -/
theorem State.Numbered.reset (hs : s.Numbered) (cfg : Config) (eid : Nat)
    (hgone : ∀ q t, s.ctx q = some t → t.eid = eid → t.state = .ignored) :
    (resetCycleState cfg eid s).Numbered := by
  have hdrawn : ∀ e, (resetCycleState cfg eid s).drawn e ≤ s.drawn e ∧
      (e ≠ eid → (resetCycleState cfg eid s).drawn e = s.drawn e) := by
    intro e
    unfold State.drawn resetCycleState
    by_cases he : e = eid
    · subst he
      rw [State.cycle_modifyCycle, map_map]
      refine ⟨?_, fun h => absurd rfl h⟩
      cases s.cycle e <;> exact Nat.zero_le _
    · rw [State.cycle_modifyCycle_of_ne _ _ _ _ he]
      exact ⟨Nat.le_refl _, fun _ => rfl⟩
  refine ⟨hs.recorded, fun e => Nat.le_trans (hdrawn e).1 (hs.limit e), fun q t ht hn => ?_,
    hs.distinct⟩
  by_cases he : t.eid = eid
  · exact absurd (hgone q t ht he) hn
  · rw [(hdrawn t.eid).2 he]
    exact hs.bounded q t ht hn

end Numbered

/-! ## Enqueues -/

section Enqueue
variable {s u w : State}

theorem KeepsIds.trans (h : KeepsIds s u) (h' : KeepsIds u w) : KeepsIds s w where
  ids q := (h'.ids q).trans (h.ids q)
  ignored q t t' ht ht' hi := by
    obtain ⟨t₁, ht₁, _⟩ := h'.ctx_some ht'
    exact h'.ignored q t₁ t' ht₁ ht' (h.ignored q t t₁ ht ht₁ hi)
  drawn e := (h'.drawn e).trans (h.drawn e)
  pids := h'.pids.trans h.pids

/-- An algorithm changes no identity. -/
theorem AlgoStep.keepsIds (h : AlgoStep s u) : KeepsIds s u where
  ids q := by
    have hctx := congrArg (Option.map fun t : TaskCtx => (t.eid, t.detId)) (h.ctxs q)
    rwa [map_map, map_map] at hctx
  ignored q t t' ht ht' hi := by
    have hctx := h.ctxs q
    rw [ht, ht', map_some, map_some, some.injEq] at hctx
    exact (congrArg TaskCtx.state hctx).trans hi
  drawn e := by
    have hcycle := congrArg (Option.map SchedCycle.nextDetId) (h.cycles e)
    rw [map_map, map_map] at hcycle
    exact congrArg (Option.getD · 0) hcycle
  pids := h.detIds

theorem keepsIds_modifyCycle (s : State) (eid : Nat) {f : SchedCycle → SchedCycle}
    (h : ∀ c, (f c).nextDetId = c.nextDetId) : KeepsIds s (s.modifyCycle eid f) where
  ids _ := rfl
  ignored := (Steady.refl s).ignored
  drawn e := congrArg (Option.getD · 0) (s.cycle_map_modifyCycle eid h e)
  pids := rfl

/-- Parking a participant changes no identity. -/
theorem keepsIds_parkParticipant (cfg : Config) (now : Nat) (rng : Rng) {p : TaskStruct}
    {eid : Nat} {t : TaskCtx} (ht : s.ctx p.pid = some t) (hj : t.joined = true) :
    KeepsIds s (parkParticipant cfg p eid now rng s) := by
  have hinit : KeepsIds s (initAlgorithm cfg eid rng s).1 := by
    unfold initAlgorithm
    split
    · exact (keepsIds_modifyCycle s eid
        (f := fun c => { c with algoInitialized := true }) fun _ => rfl).trans
          (algoStep_algoInit ..).keepsIds
    · exact (Steady.refl s).keepsIds
  -- the task is a participant, so it is not ignored
  obtain ⟨t₁, ht₁, hview⟩ := (unseen_initAlgorithm cfg eid rng s).ctx_some ht
  have hj₁ : t₁.joined = true := by rw [← t₁.joined_view, hview, t.joined_view, hj]
  unfold parkParticipant
  dsimp only
  generalize initAlgorithm cfg eid rng s = r at *
  have hmark : KeepsIds s (r.1.modifyCtx p.pid (.markEnqueued p now)) := by
    refine hinit.trans (Steady.keepsIds (steady_modifyCtx r.1 p.pid _ fun t' ht' =>
      ⟨rfl, fun hi => ?_⟩))
    rw [ht₁, some.injEq] at ht'
    rw [← ht'] at hi
    simp [TaskCtx.joined, hi] at hj₁
  have hcount := hmark.trans (keepsIds_modifyCycle _ eid (f := .countEnqueue) fun _ => rfl)
  have halgo := hcount.trans (algoStep_algoUpdatePriority cfg p.pid eid
    (((r.1.modifyCtx p.pid (.markEnqueued p now)).cycle eid).any fun c => !c.algoInitialized) r.2
    ((r.1.modifyCtx p.pid (.markEnqueued p now)).modifyCycle eid .countEnqueue)).keepsIds
  generalize (algoUpdatePriority cfg p.pid eid _ r.2 _).1 = s₃ at *
  have hins : KeepsIds s (insertIntoCycleDsq p.pid eid (insertPriority p.pid s₃) s₃) :=
    ⟨halgo.ids, halgo.ignored, halgo.drawn, halgo.pids⟩
  split
  · exact hins.trans (steady_push ..).keepsIds
  · exact hins

end Enqueue

/-! ## Whole runs -/

/-- The callback registers task `p`: it has no context yet. -/
def Callback.registers (cb : Callback) (s : State) (p : TaskStruct) : Prop :=
  (cb = .initTask p ∨ cb = .yield p ∨ ∃ now rng, cb = .enqueue p now rng) ∧
    identifyExecutorGroup p ≠ invalidEid ∧ s.ctx p.pid = none

/-- At most `MAX_CYCLE_THREADS` tasks are registered in a cycle. -/
def Sys.WithinLimit (x : Sys) (cb : Callback) : Prop :=
  ∀ p, cb.registers x.bpf p → x.bpf.drawn (identifyExecutorGroup p) < maxCycleThreads

/-- A registration finds room for the context, and the last participant of a group
does not exit while a task of the group is registered and has not joined. -/
structure Sys.OrderlyIds (x : Sys) (cb : Callback) : Prop where
  room : ∀ p, cb.registers x.bpf p → x.bpf.taskCtxMap.size < maxTasks
  reset : ∀ p t c, cb = .exitTask p → x.bpf.ctx p.pid = some t → t.joined = true →
    x.bpf.cycle t.eid = some c → c.numAlive = 1 → c.state ≠ .unavailable →
    ∀ q t', x.bpf.ctx q = some t' → t'.eid = t.eid → t'.state ≠ .registered

section Runs
variable {cfg : Config} {x y : Sys} {cb : Callback} {p : TaskStruct}

/-- The exit of a participant that finishes its cycle is that of the last one. -/
theorem Sys.Sound.lastOut (hx : x.Sound cfg) (hallow : x.allows (.exitTask p) = true)
    {t : TaskCtx} {c : SchedCycle} (ht : x.bpf.ctx p.pid = some t) (hj : t.joined = true)
    (hc : x.bpf.cycle t.eid = some c)
    (hfin : (c.exit t.state t.isAsleep).finished c.state = true) :
    c.numAlive = 1 ∧ c.state ≠ .unavailable := by
  obtain ⟨_, hmem⟩ := Sys.allows_task hallow rfl
  have hin : x.phase p.pid ≠ .outside := fun h => by
    rw [hx.placed.outsider h t ht] at hj
    cases hj
  have hph : x.phase p.pid ∈ [Phase.asleep, .detached] := by
    simpa [Callback.phases, hin] using hmem
  have hgate : (x.group cfg t.eid).cycle = c.gate := State.gate_of_cycle hc
  have hallows : (x.group cfg t.eid).Allows (.exit (x.phase p.pid) t.state t.isAsleep) := by
    refine ⟨fun ph hph => ?_, hph, hx.placed.asleep_iff ht⟩
    cases hph
    exact Sys.pop_pos (q := p.pid) (by rw [Sys.member_of_ctx ht, if_pos ⟨rfl, hj⟩])
  obtain ⟨hone, hstate, _⟩ := (hx.counted t.eid).lastOut hallows (by rw [hgate]; exact hfin)
  rw [hgate] at hone hstate
  exact ⟨hone, hstate⟩

/-- An exit keeps the ids in order: when it resets the cursor, nobody of the group
is left who may join. -/
theorem State.Numbered.exit (hs : x.bpf.Numbered) (hx : x.Sound cfg)
    (hord : x.OrderlyIds (.exitTask p)) (hallow : x.allows (.exitTask p) = true) {u : State}
    (h : Exits cfg p x.bpf u) : u.Numbered := by
  cases h with
  | same => exact hs
  | forgotten h hctx => exact (hs.forget p.pid).keep h.keepsIds
  | @finished t c u ht hj hc hfin h hctx =>
    refine ((hs.forget p.pid).keep h.keepsIds).reset cfg _ fun q t' ht' heid' => ?_
    obtain ⟨hkeep, _⟩ := Sys.allows_task hallow rfl
    have hin : x.phase p.pid ≠ .outside := fun h => by
      rw [hx.placed.outsider h t ht] at hj
      cases hj
    obtain ⟨_, _, ht₀, _, heid, _, _⟩ := hx.placed.participant hkeep hin
    rw [ht, some.injEq] at ht₀
    rw [← ht₀] at heid
    rw [← show _ = identifyExecutorGroup p from heid] at hc
    obtain ⟨hone, hstate⟩ := hx.lastOut hallow ht hj hc hfin
    -- the other tasks of the group are not registered, and not joined either
    have hq : q ≠ p.pid ∧ x.bpf.ctx q = some t' := by
      have hlook : u.ctx q = if q = p.pid then none else x.bpf.ctx q :=
        (congrArg (Table.lookup q) hctx).trans (Table.lookup_erase ..)
      rw [hlook] at ht'
      split at ht'
      · cases ht'
      · rename_i hne
        exact ⟨hne, ht'⟩
    have hreg := hord.reset p t c rfl ht hj hc hone hstate q t' hq.2 (by rw [heid', heid])
    have hnot : t'.joined = false := by
      rw [Bool.eq_false_iff]
      intro hj'
      refine hq.1 (Table.eq_of_count_le_one (t := x.bpf.taskCtxMap)
        (P := fun _ t' => t'.eid = t.eid && t'.joined) ?_ ?_ ?_)
      · have halive := hx.numAlive_eq hc
        omega
      · have hlook : x.bpf.taskCtxMap.lookup q = some t' := hq.2
        simp [Table.holdsAt, hlook, hj', heid', heid]
      · have hlook : x.bpf.taskCtxMap.lookup p.pid = some t := ht
        simp [Table.holdsAt, hlook, hj]
    cases hst : t'.state <;> simp_all [TaskCtx.joined]

/-- **The ids stay in order** through every callback that registers with room and
within the limit, and resets no cursor under a registered task. -/
theorem State.Numbered.step (hs : x.bpf.Numbered) (hx : x.Sound cfg) (hlimit : x.WithinLimit cb)
    (hord : x.OrderlyIds cb) (h : x.step cfg cb = some y) : y.bpf.Numbered := by
  have hstep := h
  obtain ⟨hallow, rfl⟩ := Sys.step_eq_some.mp h
  have henrol : ∀ {p : TaskStruct} {u : State},
      (cb = .initTask p ∨ cb = .yield p ∨ ∃ now rng, cb = .enqueue p now rng) →
      Enrols p.pid p.group x.bpf u → u.Numbered := by
    intro p u hcb hu
    exact hs.enrol hu (fun hv hn => hord.room p ⟨hcb, hv, hn⟩)
      fun hv hn => hlimit p ⟨hcb, hv, hn⟩
  cases cb with
  | initTask p => exact henrol (.inl rfl) (ensures_serialiseInitTask cfg p x.bpf).enrols
  | yield p =>
    obtain ⟨s₁, hreg, hsteady⟩ := enrols_serialiseYield cfg p x.bpf
    exact (henrol (.inr (.inl rfl)) hreg).keep hsteady.keepsIds
  | enqueue p now rng =>
    show (serialiseEnqueue cfg p now rng x.bpf).Numbered
    by_cases hph : x.phase p.pid = .outside
    · exact henrol (.inr (.inr ⟨now, rng, rfl⟩))
        (ensures_serialiseEnqueue cfg now rng (hx.placed.outsider hph)).enrols
    · obtain ⟨t, c, ht, hj, _, _, heq⟩ := hx.placed.enqueue_participant cfg hallow hph
      rw [heq]
      split
      · exact hs
      · exact hs.keep (keepsIds_parkParticipant cfg now rng ht hj)
  | exitTask p => exact hs.exit hx hord hallow (exits_serialiseExitTask cfg p x.bpf)
  | dequeue p | dispatch | runnable p | running p | quiescent p deqFlags | timer now =>
    exact hs.keep (steady_step rfl hstep).keepsIds

/-- Ids between 1 and `MAX_CYCLE_THREADS` are distinct modulo that number. -/
theorem eq_of_mod_eq {a b : Nat} (ha : 1 ≤ a ∧ a ≤ maxCycleThreads)
    (hb : 1 ≤ b ∧ b ≤ maxCycleThreads) (h : a % maxCycleThreads = b % maxCycleThreads) : a = b := by
  simp only [maxCycleThreads] at *
  omega

/-- **Ids are unique within a cycle.**  In every state reached by callbacks of
which none registers without room and none resets a cursor under a registered
task, with at most `MAX_CYCLE_THREADS` registrations in a cycle, two participants
of one group whose ids agree modulo `MAX_CYCLE_THREADS` are the same task. -/
theorem det_ids_distinct (hN : 1 ≤ cfg.cycleThreadCount) {cbs : List Callback}
    (hlimit : StepRuns.Along (Sys.step cfg) Sys.WithinLimit Sys.init cbs)
    (hord : StepRuns.Along (Sys.step cfg) Sys.OrderlyIds Sys.init cbs)
    (hrun : Sys.init.run cfg cbs = some x) {q r : Nat} {t t' : TaskCtx}
    (hq : x.bpf.ctx q = some t) (hr : x.bpf.ctx r = some t') (hjq : t.joined = true)
    (hjr : t'.joined = true) (heid : t.eid = t'.eid)
    (hid : t.detId % maxCycleThreads = t'.detId % maxCycleThreads) : q = r := by
  have hinit : Sys.init.Sound cfg ∧ Sys.init.bpf.Numbered :=
    ⟨Sys.sound_init hN, fun _ h => (nomatch h), fun _ => Nat.zero_le _, fun _ _ h => (nomatch h),
      fun _ _ _ _ h => (nomatch h)⟩
  have hx : x.Sound cfg ∧ x.bpf.Numbered :=
    StepRuns.invariant_along (I := fun x => x.Sound cfg ∧ x.bpf.Numbered)
      (fun _ _ _ hx hc h => ⟨hx.1.step hN h, hx.2.step hx.1 hc.1 hc.2 h⟩) hinit
      (hlimit.and hord) hrun
  have hin : ∀ {t : TaskCtx}, t.joined = true → t.state ≠ .ignored := by
    intro t hj hi
    simp [TaskCtx.joined, hi] at hj
  obtain ⟨h1, h2⟩ := hx.2.bounded q t hq (hin hjq)
  obtain ⟨h3, h4⟩ := hx.2.bounded r t' hr (hin hjr)
  refine hx.2.distinct q r t t' hq hr (hin hjq) (hin hjr) heid (eq_of_mod_eq ⟨h1, ?_⟩ ⟨h3, ?_⟩ hid)
  · exact Nat.le_trans h2 (hx.2.limit _)
  · exact Nat.le_trans h4 (hx.2.limit _)

end Runs

/-- Two threads are registered by their first yield, join, and hold the ids 1
and 2. -/
theorem det_ids_distinct_twoThreads :
    ∃ x t t', Sys.init.run ⟨2, 3, .rp⟩ [.yield (executorThread 5), .yield (executorThread 6)] =
        some x ∧ x.bpf.ctx 5 = some t ∧ x.bpf.ctx 6 = some t' ∧ t.detId = 1 ∧ t'.detId = 2 ∧
      (t.detId % maxCycleThreads = t'.detId % maxCycleThreads → 5 = 6) := by
  obtain ⟨x, hrun, t, t', hq, hr, hj, hj', heid, hd, hd'⟩ : ∃ x,
      Sys.init.run ⟨2, 3, .rp⟩ [.yield (executorThread 5), .yield (executorThread 6)] = some x ∧
      ∃ t t', x.bpf.ctx 5 = some t ∧ x.bpf.ctx 6 = some t' ∧ t.joined = true ∧
        t'.joined = true ∧ t.eid = t'.eid ∧ t.detId = 1 ∧ t'.detId = 2 :=
    ⟨_, rfl, _, _, rfl, rfl, rfl, rfl, rfl, rfl, rfl⟩
  refine ⟨x, t, t', hrun, hq, hr, hd, hd',
    det_ids_distinct (by decide) ?_ ?_ hrun hq hr hj hj' heid⟩
  · refine ⟨?_, fun x₁ h₁ => ⟨?_, fun _ _ => trivial⟩⟩
    · rintro p ⟨h | h | ⟨_, _, h⟩, _, _⟩ <;> cases h
      decide
    · cases h₁
      rintro p ⟨h | h | ⟨_, _, h⟩, _, _⟩ <;> cases h
      decide
  · refine ⟨⟨?_, fun _ _ _ h => (nomatch h)⟩, fun x₁ h₁ => ⟨⟨?_, fun _ _ _ h => (nomatch h)⟩,
      fun _ _ => trivial⟩⟩
    · rintro p ⟨h | h | ⟨_, _, h⟩, _, _⟩ <;> cases h
      decide
    · cases h₁
      rintro p ⟨h | h | ⟨_, _, h⟩, _, _⟩ <;> cases h
      decide

/-- A thread is registered in one cycle and joins the next, whose first
registration draws the same id again. -/
theorem det_ids_distinct_fails :
    ∃ x t t', Sys.init.run ⟨2, 3, .rp⟩ [.initTask (executorThread 7), .yield (executorThread 5),
        .yield (executorThread 6), .enqueue (executorThread 5) 10 id,
        .enqueue (executorThread 6) 10 id, .dispatch, .running (executorThread 5),
        .quiescent (executorThread 5) scxDeqSleep, .exitTask (executorThread 5), .dispatch,
        .running (executorThread 6), .quiescent (executorThread 6) scxDeqSleep,
        .exitTask (executorThread 6), .yield (executorThread 8), .yield (executorThread 7)] =
        some x ∧ x.bpf.ctx 7 = some t ∧ x.bpf.ctx 8 = some t' ∧ t.joined = true ∧
      t'.joined = true ∧ t.eid = t'.eid ∧
      t.detId % maxCycleThreads = t'.detId % maxCycleThreads := by
  refine ⟨_, _, _, rfl, rfl, rfl, ?_⟩
  decide

end Sect.Serialise
