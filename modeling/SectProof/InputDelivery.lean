import SectProof.InputQueues

/-! # Delivery of new inputs

An input that is accepted between the snapshot of a connection and its
registration is in neither its snapshot nor its queue.  **`delivers_iff`**: a
connection gets every input exactly when there is no such input.

That the queue is drained is a measure argument (`work`): a poll returns candidates
or inputs, and an input that is put into the queue has raised the signal of the
corpus, which has a bound.
-/

open List Nat Option Table

namespace Sect.Rpc

open Server Sect.Rpc.System
open Sect.Fuzzer (Signal)
open Sect.Cover (KernelModule)
variable {P H : Type}

/-! ## Draining the queue -/

def Happened.isReply (c : Nat) : Happened P → Bool
  | .reply conn _ => conn = c
  | _ => false

theorem Happened.isReply_ofAccepted (c : Nat) (sender : Option Nat) (acc : Accepted P) :
    (ofAccepted sender acc).isReply c = false := by
  rw [ofAccepted]
  split <;> rfl

/-- The number of polls of the connection. -/
def polls (c : Nat) (h : List (Happened P)) : Nat := h.countP (Happened.isReply c)

theorem polls_cons (c : Nat) (ev : Happened P) (h : List (Happened P)) :
    polls c (ev :: h) = polls c h + (ev.isReply c).toNat := by
  rw [polls, countP_cons]
  cases ev.isReply c <;> rfl

/-- **A connection that keeps polling is drained**: after enough polls there was a point
at which it had no pending input. -/
def Drains [DecidableEq H] (T : Target P H) (cfg : Config) (c : Nat)
    (s : System P H × List (Happened P)) : Prop :=
  ∃ n, ∀ acts s', StepRuns.run (System.logged T cfg) s acts = some s' → n ≤ polls c s'.2 →
    ∃ acts₁ acts₂ s₁ name f, acts = acts₁ ++ acts₂ ∧
      StepRuns.run (System.logged T cfg) s acts₁ = some s₁ ∧
      s₁.1.serv.fuzzers.lookup name = some f ∧ f.conn = c ∧ f.inputs = []

/-- What the polls of the fuzzer have before them.  Candidates come before inputs, and
every further genuine input raises the signal of the corpus. -/
noncomputable def work (sys : System P H) (f : Fuzzer P) : Nat :=
  sys.serv.mgr.candidates.length + f.inputs.length + sys.serv.corpusSignal.headroom

/-- The connection is over. -/
structure Gone (c : Nat) (sys : System P H) : Prop where
  old : c < sys.nextConn
  notConnecting : sys.connecting.lookup c = none
  notRegistered : ∀ name f, sys.serv.fuzzers.lookup name = some f → f.conn ≠ c

section Draining
variable [DecidableEq H] {T : Target P H} {cfg : Config} {sys : System P H}
  {h : List (Happened P)}

variable {act : Action P H} {r : System P H × Happened P} {s : System P H × List (Happened P)}
  {f : Fuzzer P} {name : String}

/-- **Connections are not taken up again**: who is registered was so before or was
connecting, and only registered fuzzers are replied to. -/
theorem System.step_conns (hready : FilterReady cfg sys.serv)
    (hstep : sys.step T cfg act = some r) :
    (∀ name f', r.1.serv.fuzzers.lookup name = some f' →
      (∃ f, sys.serv.fuzzers.lookup name = some f ∧ f'.conn = f.conn) ∨
        (sys.connecting.lookup f'.conn).isSome) ∧
    (∀ c, (r.1.connecting.lookup c).isSome →
      (sys.connecting.lookup c).isSome ∨ c = sys.nextConn) ∧
    sys.nextConn ≤ r.1.nextConn ∧
    ∀ c, r.2.isReply c = true → ∃ name f, sys.serv.fuzzers.lookup name = some f ∧ f.conn = c := by
  have hsame : ∀ name f', sys.serv.fuzzers.lookup name = some f' →
      (∃ f, sys.serv.fuzzers.lookup name = some f ∧ f'.conn = f.conn) ∨
        (sys.connecting.lookup f'.conn).isSome :=
    fun name f' hf' => .inl ⟨f', hf', rfl⟩
  cases act with
  | snapshot name modules order snapshotOrder =>
    obtain ⟨r, hsnap, rfl⟩ := map_eq_some_iff.mp hstep
    refine ⟨fun name f' hf' => hsame name f' ((snapshot_frame hsnap).1 ▸ hf'), ?_,
      le_succ _, fun _ hreply => by cases hreply⟩
    intro c hc
    by_cases heq : c = sys.nextConn
    · exact .inr heq
    · exact .inl (lookup_insert_of_ne heq _ sys.connecting ▸ hc)
  | register conn order rotation =>
    obtain ⟨-, hstep⟩ := free_of_some hstep
    obtain ⟨p, hp, hstep⟩ := bind_eq_some_iff.mp hstep
    obtain ⟨serv, hreg, rfl⟩ := map_eq_some_iff.mp hstep
    obtain ⟨g, rfl, hconn, -⟩ := register_spec hreg
    refine ⟨fun name f' hf' => ?_, fun c hc => .inl ?_, le_refl _, fun _ hreply => by cases hreply⟩
    · rw [lookup_insert] at hf'
      split at hf'
      · cases hf'
        exact .inr (by rw [hconn, hp]; rfl)
      · exact hsame name f' hf'
    · rw [lookup_erase] at hc
      split at hc
      · cases hc
      · exact hc
  | acceptInput order a =>
    obtain ⟨-, hstep⟩ := free_of_some hstep
    split at hstep
    · cases hstep
      exact ⟨hsame, fun c hc => .inl hc, le_refl _, fun _ hreply => by cases hreply⟩
    rename_i serv acc hacc
    cases hstep
    obtain ⟨_, m, _, _, _, hserv, _⟩ := acceptInput_spec hacc
    obtain rfl : serv = { sys.serv with mgr := m } := hserv
    refine ⟨hsame, fun c hc => .inl hc, le_refl _, fun c hreply => ?_⟩
    rw [Happened.isReply_ofAccepted] at hreply
    cases hreply
  | distribute =>
    obtain ⟨acc, hacc, rfl⟩ := map_eq_some_iff.mp hstep
    refine ⟨fun name f' hf' => ?_, fun c hc => .inl hc, le_refl _, fun _ hreply => by cases hreply⟩
    obtain ⟨f, hf, hconn, -⟩ := distribute_queue hready acc hf'
    exact .inl ⟨f, hf, hconn⟩
  | poll order a =>
    obtain ⟨-, hstep⟩ := free_of_some hstep
    cases hstep
    refine ⟨fun name f' hf' => ?_, fun c hc => .inl hc, le_refl _, fun c hreply => ?_⟩
    · obtain ⟨f, hf, hconn, -⟩ := poll_queue hf'
      exact .inl ⟨f, hf, hconn⟩
    cases hf : sys.serv.fuzzers.lookup a.name with
    | none =>
      rw [hf] at hreply
      cases hreply
    | some f =>
      rw [hf] at hreply
      exact ⟨a.name, f, hf, of_decide_eq_true hreply⟩
  | shutdownInstance name =>
    obtain ⟨-, hstep⟩ := free_of_some hstep
    cases hstep
    refine ⟨fun name' f' hf' => ?_, fun c hc => .inl hc, le_refl _, fun _ hreply => by cases hreply⟩
    rw [Server.shutdownInstance, lookup_erase] at hf'
    split at hf'
    · cases hf'
    · exact hsame name' f' hf'

variable {c : Nat} {acts : List (Action P H)} {s' : System P H × List (Happened P)}

theorem Gone.step (hgone : Gone c sys) (hready : FilterReady cfg sys.serv)
    (hstep : sys.step T cfg act = some r) : Gone c r.1 ∧ r.2.isReply c = false := by
  obtain ⟨hfuzzers, hconnecting, hnext, hreply⟩ := step_conns hready hstep
  refine ⟨⟨lt_of_lt_of_le hgone.old hnext, ?_, ?_⟩, ?_⟩
  · rw [← not_isSome_iff_eq_none]
    intro hsome
    rcases hconnecting c hsome with hbefore | heq
    · rw [hgone.notConnecting] at hbefore
      cases hbefore
    · exact Nat.ne_of_lt hgone.old heq
  · rintro name f' hf' rfl
    rcases hfuzzers name f' hf' with ⟨f, hf, hconn⟩ | hbefore
    · exact hgone.notRegistered name f hf hconn.symm
    · rw [hgone.notConnecting] at hbefore
      cases hbefore
  · rw [← Bool.not_eq_true]
    intro htrue
    obtain ⟨name, f, hf, hconn⟩ := hreply c htrue
    exact hgone.notRegistered name f hf hconn

/-- A connection that is over is polled no more. -/
theorem Gone.run (hgone : Gone c s.1) (hcons : Consistent cfg s)
    (hrun : StepRuns.run (System.logged T cfg) s acts = some s') : polls c s'.2 = polls c s.2 := by
  have hinv : Consistent cfg s' ∧ Gone c s'.1 ∧ polls c s'.2 = polls c s.2 := by
    refine StepRuns.invariant (I := fun u => Consistent cfg u ∧ Gone c u.1 ∧
      polls c u.2 = polls c s.2) ?_ ⟨hcons, hgone, rfl⟩ hrun
    rintro u act u' ⟨hcons, hgone, heq⟩ hstep
    obtain ⟨r, hr, rfl⟩ := map_eq_some_iff.mp hstep
    obtain ⟨hgone', hreply⟩ := hgone.step hcons.ready hr
    exact ⟨hcons.step hr, hgone', by rw [polls_cons, hreply, heq]; rfl⟩
  exact hinv.2.2

omit [DecidableEq H] in
theorem isSome_lookup_distribute (cfg : Config) (acc : Accepted P) (serv : Server P H)
    (name : String) :
    ((serv.distribute cfg acc).fuzzers.lookup name).isSome =
      (serv.fuzzers.lookup name).isSome := by
  have hrecord : ((serv.fuzzers.modify acc.name (.record acc)).lookup name).isSome =
      (serv.fuzzers.lookup name).isSome := by
    rw [lookup_modify]
    split
    · exact isSome_map
    · rfl
  rcases distribute_fuzzers cfg acc serv name with hsame | hpushed
  · rw [hsame, hrecord]
  · rw [hpushed, isSome_map, hrecord]

omit [DecidableEq H] in
theorem isSome_lookup_mergeMaxSignal (name other : String) (reported : Signal)
    (serv : Server P H) :
    ((serv.mergeMaxSignal name reported).fuzzers.lookup other).isSome =
      (serv.fuzzers.lookup other).isSome := by
  rw [Server.mergeMaxSignal]
  split
  · rfl
  · rw [lookup_mapValues, isSome_map]

omit [DecidableEq H] in
theorem isSome_lookup_poll (cfg : Config) (order : Signal.RangeOrder) (a : PollArgs)
    (serv : Server P H) (name : String) :
    ((serv.poll cfg order a).1.fuzzers.lookup name).isSome =
      (serv.fuzzers.lookup name).isSome := by
  rw [Server.poll]
  split
  · rfl
  split
  · exact isSome_lookup_mergeMaxSignal ..
  · rw [lookup_modify]
    split
    · rw [isSome_map, isSome_lookup_mergeMaxSignal]
    · exact isSome_lookup_mergeMaxSignal ..

theorem snapshot_candidates {order snapshotOrder : CorpusOrder P H}
    {modules : List KernelModule} {serv : Server P H} {r : Server P H × List (Input P)}
    (hsnap : serv.snapshot T cfg order snapshotOrder modules = some r) :
    r.1.mgr.candidates = serv.mgr.candidates := by
  obtain ⟨m, hm, rfl⟩ := map_eq_some_iff.mp hsnap
  have hcanonical : (serv.setCanonical cfg modules).mgr = serv.mgr := by
    rw [Server.setCanonical]
    split <;> rfl
  have hminimize : ∀ mgr : Manager P H,
      (mgr.minimizeCorpus T cfg order).candidates = mgr.candidates := by
    intro mgr
    rw [Manager.minimizeCorpus]
    split
    · rfl
    · split <;> rfl
  rw [Manager.fuzzerConnect, hcanonical] at hm
  split at hm
  · cases hm
    exact hminimize serv.mgr
  · obtain ⟨filter, -, rfl⟩ := map_eq_some_iff.mp hm
    exact hminimize serv.mgr

theorem mgrNewInput_candidates {order : Signal.RangeOrder} {mgr : Manager P H} {inp : Input P}
    {shared : List UInt32} {sign : Signal} {hasAny : Bool} {r : Manager P H × Signal}
    (h : mgr.newInput T order inp shared sign hasAny = some r) :
    r.1.candidates = mgr.candidates := by
  rw [Manager.newInput] at h
  split at h
  · cases h
  · split at h <;> obtain rfl := some.inj h <;> rfl

omit [DecidableEq H] in
theorem pollCandidates_length (cfg : Config) (a : PollArgs) (mgr : Manager P H) :
    (Server.pollCandidates cfg a mgr).1.length +
      (Server.pollCandidates cfg a mgr).2.candidates.length = mgr.candidates.length := by
  rw [Server.pollCandidates]
  split
  · rw [← length_append]
    exact (takeLast_perm _ _).length_eq
  · exact zero_add _

omit [DecidableEq H] in
/-- A poll takes candidates from the manager; the signal of the corpus stays. -/
theorem poll_frame (cfg : Config) (order : Signal.RangeOrder) (a : PollArgs) (serv : Server P H) :
    (serv.poll cfg order a).1.corpusSignal = serv.corpusSignal ∧
      (serv.poll cfg order a).1.mgr.candidates.length ≤ serv.mgr.candidates.length ∧
      ∀ f, serv.fuzzers.lookup a.name = some f → f.rotated = false →
        (serv.poll cfg order a).1.mgr = (Server.pollCandidates cfg a serv.mgr).2 := by
  have hmerge : (serv.mergeMaxSignal a.name (.deserialize a.maxSignal)).corpusSignal =
      serv.corpusSignal := by
    rw [Server.mergeMaxSignal]
    split <;> rfl
  rw [Server.poll]
  split
  · rename_i hnone
    exact ⟨rfl, le_refl _, fun f hf => by rw [hnone] at hf; cases hf⟩
  rename_i f0 hf0
  dsimp only
  split
  · rename_i hrot0
    refine ⟨hmerge, by rw [mergeMaxSignal_mgr], fun f hf hrot => ?_⟩
    rw [some.inj (hf0.symm.trans hf), hrot] at hrot0
    cases hrot0
  · rw [mergeMaxSignal_mgr]
    have hlength := pollCandidates_length cfg a serv.mgr
    exact ⟨hmerge, by dsimp only; omega, fun _ _ _ => rfl⟩

omit [DecidableEq H] in
/-- **A poll of a fuzzer with pending inputs returns candidates or inputs.** -/
theorem pollInputs_length (cfg : Config) (a : PollArgs) (mgr : Manager P H) (hne : f.inputs ≠ []) :
    (Server.pollCandidates cfg a mgr).2.candidates.length +
        (Server.pollInputs cfg a mgr f).2.length < mgr.candidates.length + f.inputs.length := by
  have hcandidates := pollCandidates_length cfg a mgr
  have hinputs := (pollInputs_perm cfg a mgr f).length_eq
  rw [length_append] at hinputs
  have hpos : 0 < f.inputs.length := length_pos_of_ne_nil hne
  by_cases hnone : (Server.pollCandidates cfg a mgr).1 = []
  · have hbatch : 0 < Server.inputBatch cfg a := by
      rw [Server.inputBatch]
      split
      · decide
      · exact cfg.batchSize_pos
    have htaken : 0 < (Server.pollInputs cfg a mgr f).1.length := by
      rw [Server.pollInputs, if_pos hnone, takeLast, length_take, length_reverse]
      exact Nat.lt_min.mpr ⟨hbatch, hpos⟩
    omega
  · have hsome := length_pos_of_ne_nil hnone
    omega

omit [DecidableEq H] in
/-- **A genuine input raises the signal of the corpus** by the time it is put into the
queues. -/
theorem work_distribute {acc : Accepted P} (hcons : Consistent cfg (sys, h))
    (hflight : sys.inFlight = some acc) {f' : Fuzzer P}
    (hinputs : f'.inputs = f.inputs ++ due (some acc) name) :
    work { sys with serv := sys.serv.distribute cfg acc, inFlight := none } f' ≤ work sys f := by
  rw [work, work, hcons.ready.distribute_eq acc, hinputs, length_append, due]
  by_cases hgen : acc.genuine = true
  · rw [if_pos hgen]
    have hnew := hcons.genuine acc hflight hgen
    rw [← Bool.not_eq_true, Signal.diff, PrioMap.news_isEmpty_iff] at hnew
    push Not at hnew
    obtain ⟨e, he⟩ := hnew
    have hlt : (sys.serv.corpusSignal.merge acc.signal).headroom <
        sys.serv.corpusSignal.headroom := by
      refine PrioMap.headroom_lt (fun k => ?_) (k := e) ?_
      · exact le_sup_left.trans_eq (Signal.prio_merge _ _ k).symm
      · exact (he.trans_le le_sup_right).trans_eq (Signal.prio_merge _ _ e).symm
    have hone : (if acc.genuine = true ∧ name ≠ acc.name then [acc.sent] else []).length ≤ 1 := by
      split <;> simp
    dsimp only
    omega
  · rw [if_neg hgen, if_neg (fun hdue => hgen hdue.1)]
    exact le_refl _

/-- **A step of the system leaves the polls less work**, by one if it is a poll of the
connection, or ends the connection. -/
theorem pending_step (hcons : Consistent cfg (sys, h)) (hf : sys.serv.fuzzers.lookup name = some f)
    (hrot : f.rotated = false) (hne : f.inputs ≠ []) (hstep : sys.step T cfg act = some r) :
    (∃ f', r.1.serv.fuzzers.lookup name = some f' ∧ f'.conn = f.conn ∧ f'.rotated = false ∧
      work r.1 f' + (r.2.isReply f.conn).toNat ≤ work sys f) ∨
    (Gone f.conn r.1 ∧ r.2.isReply f.conn = false) := by
  obtain ⟨hlt, hnone⟩ := hcons.registered name f hf
  cases act with
  | snapshot name' modules order snapshotOrder =>
    obtain ⟨r, hsnap, rfl⟩ := map_eq_some_iff.mp hstep
    obtain ⟨hfuzzers, -, hsignal, -⟩ := snapshot_frame hsnap
    refine Or.inl ⟨f, hfuzzers ▸ hf, rfl, hrot, ?_⟩
    rw [work, work, snapshot_candidates hsnap, hsignal]
    exact le_refl _
  | register conn order rotation =>
    obtain ⟨-, hstep⟩ := free_of_some hstep
    obtain ⟨p, hp, hstep⟩ := bind_eq_some_iff.mp hstep
    obtain ⟨serv, hreg, rfl⟩ := map_eq_some_iff.mp hstep
    obtain ⟨g, rfl, hconn, -⟩ := register_spec hreg
    by_cases hname : name = p.name
    · -- The new connection takes the place of this one.
      refine Or.inr ⟨⟨hlt, ?_, ?_⟩, rfl⟩
      · rw [lookup_erase]
        split
        · rfl
        · exact hnone
      · intro name' f' hf' heq
        rw [lookup_insert] at hf'
        split at hf'
        · cases hf'
          rw [← heq, hconn, hp] at hnone
          cases hnone
        · rename_i hne'
          exact hne' ((hcons.unique name' f' name f hf' hf heq).trans hname)
    · exact Or.inl ⟨f, (lookup_insert_of_ne hname _ _).trans hf, rfl, hrot, le_refl _⟩
  | acceptInput order a =>
    obtain ⟨-, hstep⟩ := free_of_some hstep
    split at hstep
    · cases hstep
      exact Or.inl ⟨f, hf, rfl, hrot, le_refl _⟩
    rename_i serv acc hacc
    cases hstep
    obtain ⟨_, m, _, _, hm, hserv, _⟩ := acceptInput_spec hacc
    obtain rfl : serv = { sys.serv with mgr := m } := hserv
    refine Or.inl ⟨f, hf, rfl, hrot, ?_⟩
    rw [Happened.isReply_ofAccepted, work, work, mgrNewInput_candidates hm]
    exact le_refl _
  | distribute =>
    obtain ⟨acc, hacc, rfl⟩ := map_eq_some_iff.mp hstep
    obtain ⟨f', hf'⟩ := isSome_iff_exists.mp
      ((isSome_lookup_distribute cfg acc sys.serv name).trans (by rw [hf]; rfl))
    obtain ⟨f0, hf0, hconn, hrotated, hinputs⟩ := distribute_queue hcons.ready acc hf'
    obtain rfl := some.inj (hf.symm.trans hf0)
    exact Or.inl ⟨f', hf', hconn, hrotated.trans hrot,
      work_distribute hcons hacc (hinputs hrot)⟩
  | poll order a =>
    obtain ⟨-, hstep⟩ := free_of_some hstep
    cases hstep
    obtain ⟨f', hf'⟩ := isSome_iff_exists.mp
      ((isSome_lookup_poll cfg order a sys.serv name).trans (by rw [hf]; rfl))
    obtain ⟨f0, hf0, hconn, hrotated, hinputsOther, hinputs⟩ := poll_queue hf'
    obtain rfl := some.inj (hf.symm.trans hf0)
    obtain ⟨hsignal, hle, hmgr⟩ := poll_frame cfg order a sys.serv
    refine Or.inl ⟨f', hf', hconn, hrotated.trans hrot, ?_⟩
    rw [work, work, hsignal]
    by_cases hname : name = a.name
    · have hless := pollInputs_length cfg a sys.serv.mgr hne
      have hone := Bool.toNat_le (Happened.isReply f.conn (.ofPoll
        (sys.serv.fuzzers.lookup a.name) (sys.serv.poll cfg order a).2.newInputs))
      rw [hmgr f (hname ▸ hf) hrot, hinputs hname hrot]
      dsimp only
      omega
    · have hquiet : Happened.isReply f.conn (.ofPoll (sys.serv.fuzzers.lookup a.name)
          (sys.serv.poll cfg order a).2.newInputs) = false := by
        cases hg : sys.serv.fuzzers.lookup a.name with
        | none => rfl
        | some g =>
          exact decide_eq_false fun heq => hname (hcons.unique name f a.name g hf hg heq.symm)
      rw [hquiet, hinputsOther hname]
      dsimp only [Bool.toNat_false]
      omega
  | shutdownInstance name' =>
    obtain ⟨-, hstep⟩ := free_of_some hstep
    cases hstep
    by_cases hname : name = name'
    · refine Or.inr ⟨⟨hlt, hnone, ?_⟩, rfl⟩
      intro name1 f1 hf1 heq
      rw [Server.shutdownInstance, lookup_erase] at hf1
      split at hf1
      · cases hf1
      · rename_i hne1
        exact hne1 ((hcons.unique name1 f1 name f hf1 hf heq).trans hname)
    · refine Or.inl ⟨f, ?_, rfl, hrot, le_refl _⟩
      rw [Server.shutdownInstance, lookup_erase, if_neg hname]
      exact hf

/-- As long as the queue is not empty, the polls are bounded by the work. -/
theorem polls_le (hcons : Consistent cfg s) (hf : s.1.serv.fuzzers.lookup name = some f)
    (hrot : f.rotated = false) (hrun : StepRuns.run (System.logged T cfg) s acts = some s')
    (hpending : ∀ acts₁ acts₂ s₁ name₁ f₁, acts = acts₁ ++ acts₂ →
      StepRuns.run (System.logged T cfg) s acts₁ = some s₁ →
      s₁.1.serv.fuzzers.lookup name₁ = some f₁ → f₁.conn = f.conn → f₁.inputs ≠ []) :
    polls f.conn s'.2 ≤ polls f.conn s.2 + work s.1 f := by
  induction acts generalizing s f with
  | nil =>
    cases hrun
    exact le_add_right _ _
  | cons act acts ih =>
    obtain ⟨s₁, hstep, hrest⟩ := StepRuns.run_cons_some hrun
    obtain ⟨r, hr, rfl⟩ := map_eq_some_iff.mp hstep
    have hne := hpending [] (act :: acts) s name f rfl rfl hf rfl
    rcases pending_step hcons hf hrot hne hr with ⟨f', hf', hconn, hrot', hwork⟩ | ⟨hgone, hquiet⟩
    · have hbound := ih (hcons.step hr) hf' hrot' hrest fun acts₁ acts₂ s₁ name₁ f₁ happ hrun₁ =>
        hconn.symm ▸ hpending (act :: acts₁) acts₂ s₁ name₁ f₁ (congrArg _ happ)
          ((congrArg (Option.bind · _) hstep).trans hrun₁)
      rw [hconn, polls_cons] at hbound
      dsimp only at hbound
      omega
    · rw [hgone.run (hcons.step hr) hrest, polls_cons, hquiet]
      exact le_add_right _ _

theorem drains_of_consistent (hcons : Consistent cfg s) (hf : s.1.serv.fuzzers.lookup name = some f)
    (hrot : f.rotated = false) : Drains T cfg f.conn s := by
  refine ⟨polls f.conn s.2 + work s.1 f + 1, fun acts s' hrun hpolls => ?_⟩
  by_contra hnever
  push Not at hnever
  have hbound := polls_le hcons hf hrot hrun hnever
  omega

end Draining

/-! ## Delivery -/

section Delivery
variable [DecidableEq H] {T : Target P H} {cfg : Config}

/-- **Every genuine input reaches every other connection once**: what the connection was
sent and what is pending for it is its snapshot and the inputs accepted since, and its
queue is drained. -/
def Delivers (T : Target P H) (cfg : Config) (f : Fuzzer P)
    (s : System P H × List (Happened P)) : Prop :=
  (returnedTo f.conn s.2 ++ f.inputs).Perm (snapshotOf f.conn s.2 ++ acceptedSince f.conn s.2) ∧
    Drains T cfg f.conn s

/-- **A connection gets every input iff none was accepted between its snapshot and its
registration**, in every state that the interleaved calls can reach. -/
theorem delivers_iff {mgr : Manager P H} {acts : List (Action P H)}
    {s : System P H × List (Happened P)}
    (hrun : StepRuns.run (System.logged T cfg) (System.start mgr, []) acts = some s)
    (hfree : s.1.inFlight = none) {name : String} {f : Fuzzer P}
    (hf : s.1.serv.fuzzers.lookup name = some f) (hrot : f.rotated = false) :
    Delivers T cfg f s ↔ acceptedInGap f.conn s.2 = [] := by
  have hcons := (Consistent.start cfg mgr).run hrun
  obtain ⟨hsplit, hperm⟩ := hcons.delivered name f hf hrot
  rw [hfree] at hperm
  rw [show due none name = ([] : List (Input P)) from rfl, append_nil] at hperm
  rw [Delivers, hsplit]
  constructor
  · rintro ⟨hall, -⟩
    have hlength := (hperm.symm.trans hall).length_eq
    simp only [length_append] at hlength
    exact length_eq_zero_iff.mp (by omega)
  · intro hgap
    rw [hgap, append_nil]
    exact ⟨hperm, drains_of_consistent hcons hf hrot⟩

end Delivery

/-- The first fuzzer has found an input. -/
def openInput : Action Nat Nat :=
  .acceptInput inOrder ⟨"vm-0", ⟨"open", 3, [(0x1100, 1)], [], 0, []⟩⟩

def snapshotPlain (name : String) : Action Nat Nat := .snapshot name [] corpusInOrder corpusInOrder

/-- The second fuzzer is registered before the first one sends its input. -/
def registeredFirst : List (Action Nat Nat) :=
  [snapshotPlain "vm-0", .register 0 inOrder none, snapshotPlain "vm-1", .register 1 inOrder none,
    openInput, .distribute]

/-- The input is accepted between the snapshot of the second fuzzer and its
registration. -/
def registeredLate : List (Action Nat Nat) :=
  [snapshotPlain "vm-0", .register 0 inOrder none, snapshotPlain "vm-1", openInput, .distribute,
    .register 1 inOrder none]

/-- What became of the connection of the second fuzzer: whether an input is in flight,
whether the fuzzer is rotated, and how many inputs it was sent and has pending, found in its
snapshot, and were accepted in the gap and since the snapshot. -/
def secondFuzzer (acts : List (Action Nat Nat)) : Option (Bool × Bool × Nat × Nat × Nat × Nat) :=
  (StepRuns.run (System.logged numbered plainConfig) (System.start emptyManager, []) acts).bind
    fun s => (s.1.serv.fuzzers.lookup "vm-1").map fun f =>
      (s.1.inFlight.isSome, f.rotated, (returnedTo f.conn s.2 ++ f.inputs).length,
        (snapshotOf f.conn s.2).length, (acceptedInGap f.conn s.2).length,
        (acceptedSince f.conn s.2).length)

/-- The input is in the queue of the second fuzzer. -/
theorem delivers_registeredFirst :
    ∃ s f, StepRuns.run (System.logged numbered plainConfig) (System.start emptyManager, [])
        registeredFirst = some s ∧
      s.1.inFlight = none ∧ s.1.serv.fuzzers.lookup "vm-1" = some f ∧ f.rotated = false ∧
      acceptedInGap f.conn s.2 = [] ∧ (acceptedSince f.conn s.2).length = 1 ∧
      Delivers numbered plainConfig f s := by
  have hrun : secondFuzzer registeredFirst = some (false, false, 1, 0, 0, 1) := by decide +kernel
  obtain ⟨s, hs, hlookup⟩ := bind_eq_some_iff.mp hrun
  obtain ⟨f, hf, hvalues⟩ := map_eq_some_iff.mp hlookup
  simp only [Prod.mk.injEq] at hvalues
  obtain ⟨hflight, hrot, -, -, hgap, hsince⟩ := hvalues
  have hfree : s.1.inFlight = none := by simpa using hflight
  have hnone : acceptedInGap f.conn s.2 = [] := length_eq_zero_iff.mp hgap
  exact ⟨s, f, hs, hfree, hf, hrot, hnone, hsince, (delivers_iff hs hfree hf hrot).mpr hnone⟩

/-- **The input never reaches the second fuzzer**: it is neither in its snapshot nor in its
queue. -/
theorem delivers_registeredLate_lost :
    ∃ s f, StepRuns.run (System.logged numbered plainConfig) (System.start emptyManager, [])
        registeredLate = some s ∧
      s.1.inFlight = none ∧ s.1.serv.fuzzers.lookup "vm-1" = some f ∧ f.rotated = false ∧
      (acceptedSince f.conn s.2).length = 1 ∧ ¬ Delivers numbered plainConfig f s := by
  have hrun : secondFuzzer registeredLate = some (false, false, 0, 0, 1, 1) := by decide +kernel
  obtain ⟨s, hs, hlookup⟩ := bind_eq_some_iff.mp hrun
  obtain ⟨f, hf, hvalues⟩ := map_eq_some_iff.mp hlookup
  simp only [Prod.mk.injEq] at hvalues
  obtain ⟨hflight, hrot, hpending, hsnapshot, -, hsince⟩ := hvalues
  refine ⟨s, f, hs, by simpa using hflight, hf, hrot, hsince, fun hall => ?_⟩
  have hlength := hall.1.length_eq
  rw [hpending, length_append, hsnapshot, hsince] at hlength
  cases hlength

end Sect.Rpc
