import SectProof.Serialisation

/-! # The scheduler's runs, seen by one group

Any number of executor groups share the scheduler; each sees a run of the automaton of
`Group`. -/

namespace Sect.Serialise
open State

/-- The states that the scheduler reaches. -/
abbrev Reached (cfg : Config) := {x : Sys // ∃ cbs, Sys.init.run cfg cbs = some x}

open Classical in
/-- The automaton of one group. -/
noncomputable def Group.step (cfg : Config) (g : Group) (ev : Event) : Option Group :=
  if g.Allows ev then some (g.apply cfg ev) else none

variable {cfg : Config}

theorem Reached.placed (x : Reached cfg) : x.1.Placed := by
  obtain ⟨cbs, hrun⟩ := x.2
  exact StepRuns.invariant (fun _ _ _ => placed_step) Sys.placed_init hrun

/-- **Every run of the scheduler is, for each group, a run of the group's automaton.** -/
theorem group_run (x : Reached cfg) (e : Nat) : ∃ evs,
    StepRuns.run (Group.step cfg) ⟨(SchedCycle.fresh cfg).gate, fun _ => 0⟩ evs =
      some (x.1.group cfg e) := by
  obtain ⟨cbs, hrun⟩ := x.2
  refine StepRuns.simulation (f := fun x => x.group cfg e) (I := Sys.Placed)
    (fun x cb y hx h => ⟨placed_step hx h, ?_⟩) Sys.placed_init hrun
  obtain ⟨ev, -, hallows, heq⟩ := group_step hx h e
  exact ⟨ev, (if_pos hallows).trans (congrArg some heq.symm)⟩

/-- **No task is parked twice**, in the queue of one group or in those of two. -/
theorem parked_once (x : Reached cfg) : (∀ e, (x.1.bpf.parkedIn e).Nodup) ∧
    Pairwise (Function.onFun List.Disjoint x.1.bpf.parkedIn) := by
  refine ⟨x.placed.nodup, fun e e' hne q hq hq' => hne ?_⟩
  obtain ⟨-, v, hv, rfl⟩ := (x.placed.queued e q).mp hq
  obtain ⟨-, v', hv', rfl⟩ := (x.placed.queued e' q).mp hq'
  rw [Option.some.inj (hv.symm.trans hv')]

/-- **A callback of one group's task leaves every other group alone.** -/
theorem groups_isolated (x : Reached cfg) {y : Sys} {cb : Callback} {p : TaskStruct} {e : Nat}
    (h : x.1.step cfg cb = some y) (hp : cb.task = some p) (he : identifyExecutorGroup p ≠ e) :
    y.group cfg e = x.1.group cfg e := by
  have hkeep := (Sys.allows_task (Sys.step_eq_some.mp h).1 hp).1
  have hview : ∀ v, x.1.bpf.view p.pid = some v → v.eid ≠ e := by
    intro v hv
    obtain ⟨t, ht, rfl⟩ := view_eq_some.mp hv
    exact (eid_of_keepsGroup hkeep ht).trans_ne he
  obtain ⟨ev, hseen, -, heq⟩ := group_step x.placed h e
  suffices ev = .idle by
    subst this
    exact heq.trans (Group.apply_idle _ rfl)
  cases hseen with
  | idle => rfl
  | expire h => subst h; cases hp
  | event hi =>
    cases hi with
    | outside | still => rfl
    | join => cases hp; exact absurd rfl he
    | park hv | pass hv | wake hv | run hv => cases hp; exact absurd rfl (hview _ hv)
    | detach hcb hv =>
      rcases hcb with rfl | ⟨-, _, -, rfl⟩ <;> (cases hp; exact absurd rfl (hview _ hv))
    | move | empty | drop => cases hp
    | sleep _ ht | exit ht => cases hp; exact absurd rfl (hview _ (view_of_ctx ht))

/-- A thread of group 0 joins. -/
theorem groups_isolated_join : ∃ y,
    Sys.init.step ⟨2, 3, .rp⟩ (.yield (executorThread 5)) = some y ∧
      y.group ⟨2, 3, .rp⟩ 1 = Sys.init.group ⟨2, 3, .rp⟩ 1 :=
  have h : Sys.init.step ⟨2, 3, .rp⟩ (.yield (executorThread 5)) = some _ := rfl
  ⟨_, h, groups_isolated ⟨.init, [], rfl⟩ h rfl (by decide)⟩

end Sect.Serialise
