import SectProof.ThreadPool

/-! # Thread accounting of the executor

`Pool.Ok` is what every state of a run satisfies: the counter `running` is the
number of executing threads, every call handed out so far is either executing on
exactly one thread or has exactly one reply, and a result slot is marked only by
the call that owns it.  Each operation of the pool keeps it; `ExecState.Ok` adds
how far the interpreter is.
-/

open List Bool Finset

/-- How many indices satisfy `P` when the value at one of them changes. -/
theorem card_filter_update {ι α : Type} [Fintype ι] [DecidableEq ι] (P : ι → α → Bool)
    (f : ι → α) (i : ι) (x : α) :
    (Finset.univ.filter fun j => P j (Function.update f i x j) = true).card + (P i (f i)).toNat =
      (Finset.univ.filter fun j => P j (f j) = true).card + (P i x).toNat := by
  have hsum : ∀ g : ι → α, (Finset.univ.filter fun j => P j (g j) = true).card =
      (P i (g i)).toNat + ∑ j ∈ Finset.univ.erase i, (P j (g j)).toNat := by
    intro g
    rw [card_filter, ← add_sum_erase _ _ (mem_univ i)]
    congr 1
    · cases P i (g i) <;> rfl
    · refine sum_congr rfl fun j _ => ?_
      cases P j (g j) <;> rfl
  have hrest : ∑ j ∈ Finset.univ.erase i, (P j (Function.update f i x j)).toNat =
      ∑ j ∈ Finset.univ.erase i, (P j (f j)).toNat := by
    refine sum_congr rfl fun j hj => ?_
    rw [Function.update_of_ne (ne_of_mem_erase hj)]
  rw [hsum, hsum, hrest, Function.update_self]
  omega

namespace Sect.Executor

def Instr.isCall : Instr → Bool
  | .call _ _ => true
  | _ => false

def LogEntry.schedules (c : Nat) : LogEntry → Bool
  | .scheduled call _ _ => call = c
  | _ => false

def LogEntry.repliesTo (c : Nat) : LogEntry → Bool
  | .reply call _ _ => call = c
  | _ => false

/-- The number of calls before a position. -/
def callsBefore (prog : List Instr) (pc : Nat) : Nat := (prog.take pc).countP Instr.isCall

/-- The `c`-th call of the program ends at `pos` and has the given result slot. -/
def CallAt (prog : List Instr) (c pos : Nat) (copyoutIndex : Option Nat) : Prop :=
  ∃ pc num, pos = pc + 1 ∧ prog[pc]? = some (.call num copyoutIndex) ∧ callsBefore prog pc = c

/-- The `c`-th call owns the slot of its return value and those of the copyouts
that follow it. -/
def Owns (prog : List Instr) (c slot : Nat) : Prop :=
  ∃ pos copyoutIndex, CallAt prog c pos copyoutIndex ∧
    (copyoutIndex = some slot ∨ slot ∈ copyoutRun (prog.drop pos))

/-- The states of one thread. -/
structure Thread.Sane (th : Thread) : Prop where
  ready : th.ready = true → th.executing = true ∧ th.done = false ∧ th.working = false
  working : th.working = true → th.executing = true ∧ th.done = false
  idle : th.created = true → th.executing = false → th.done = true
  executing : th.executing = true → th.created = true

variable {th : Thread} {prog : List Instr} {pc : Nat}

theorem Thread.Sane.of_done (h : th.Sane) (hdone : th.done = true) :
    th.ready = false ∧ th.working = false := by
  constructor
  · by_contra hready
    rw [not_eq_false] at hready
    rw [(h.ready hready).2.1] at hdone
    cases hdone
  · by_contra hworking
    rw [not_eq_false] at hworking
    rw [(h.working hworking).2] at hdone
    cases hdone

theorem Thread.Sane.idled (h : th.Sane) (hdone : th.done = true) : th.idled.Sane := by
  obtain ⟨hready, hworking⟩ := h.of_done hdone
  exact ⟨by simp [Thread.idled, hready], by simp [Thread.idled, hworking],
    by simp [Thread.idled, hdone], by simp [Thread.idled]⟩

theorem Thread.Sane.assigned (h : th.Sane) (hdone : th.done = true) (hcreated : th.created = true)
    (call pos : Nat) (copyoutIndex : Option Nat) : (th.assigned call pos copyoutIndex).Sane := by
  obtain ⟨-, hworking⟩ := h.of_done hdone
  exact ⟨by simp [Thread.assigned, hworking], by simp [Thread.assigned],
    by simp [Thread.assigned], by simp [Thread.assigned, hcreated]⟩

namespace Pool

/-- The number of executing threads. -/
def executing (p : Pool) : Nat :=
  (Finset.univ.filter fun i => (p.threads i).executing = true).card

/-- The number of threads that execute the call and whose reply is outstanding. -/
def outstanding (p : Pool) (reported : ThreadId → Bool) (c : Nat) : Nat :=
  (Finset.univ.filter fun i =>
    ((p.threads i).executing && !reported i && decide ((p.threads i).callIndex = c)) = true).card

/-- The accounting invariant; `reported` are the executing threads for which a
reply was written nevertheless. -/
structure Ok (prog : List Instr) (reported : ThreadId → Bool) (p : Pool) : Prop where
  running : p.running = p.executing
  sane : ∀ i, (p.threads i).Sane
  scheduled : ∀ c, p.log.countP (LogEntry.schedules c) = if c < p.nextCall then 1 else 0
  handed : ∀ c i b, LogEntry.scheduled c i b ∈ p.log → b = false
  replied : ∀ c, p.log.countP (LogEntry.repliesTo c) + p.outstanding reported c =
    if c < p.nextCall then 1 else 0
  owner : ∀ i, (p.threads i).executing = true →
    CallAt prog (p.threads i).callIndex (p.threads i).copyoutPos (p.threads i).copyoutIndex
  marked : ∀ c slot, LogEntry.marked c slot ∈ p.log →
    Owns prog c slot ∧ ∃ b, LogEntry.reply c true b ∈ p.log
  results : ∀ slot, p.results slot = true ↔ ∃ c, LogEntry.marked c slot ∈ p.log

section Steps
variable {prog : List Instr} {reported : ThreadId → Bool} {p : Pool} {i : ThreadId} {th : Thread}

theorem executing_setThread (p : Pool) (i : ThreadId) (th : Thread) :
    (p.setThread i th).executing + (p.threads i).executing.toNat =
      p.executing + th.executing.toNat :=
  card_filter_update (fun _ (t : Thread) => t.executing) p.threads i th

theorem outstanding_setThread (p : Pool) (reported : ThreadId → Bool) (c : Nat) (i : ThreadId)
    (th : Thread) :
    (p.setThread i th).outstanding reported c +
        ((p.threads i).executing && !reported i && decide ((p.threads i).callIndex = c)).toNat =
      p.outstanding reported c +
        (th.executing && !reported i && decide (th.callIndex = c)).toNat :=
  card_filter_update
    (fun j (t : Thread) => t.executing && !reported j && decide (t.callIndex = c)) p.threads i th

/-- A thread whose call, if any, stays the same may change otherwise. -/
theorem Ok.setThread (h : p.Ok prog reported) (hsane : th.Sane)
    (hexec : th.executing = (p.threads i).executing)
    (hcall : th.executing = true → th.callIndex = (p.threads i).callIndex ∧
      th.copyoutPos = (p.threads i).copyoutPos ∧
      th.copyoutIndex = (p.threads i).copyoutIndex) :
    (p.setThread i th).Ok prog reported where
  running := by
    have hcount := executing_setThread p i th
    rw [hexec] at hcount
    rw [Nat.add_right_cancel hcount]
    exact h.running
  sane := fun j => by
    by_cases hj : j = i
    · subst hj
      simpa [Pool.setThread] using hsane
    · simpa [Pool.setThread, hj] using h.sane j
  scheduled := h.scheduled
  handed := h.handed
  replied := fun c => by
    have hcount := outstanding_setThread p reported c i th
    have hsame : (th.executing && !reported i && decide (th.callIndex = c)) =
        ((p.threads i).executing && !reported i && decide ((p.threads i).callIndex = c)) := by
      rw [← hexec]
      cases hth : th.executing with
      | false => rfl
      | true => rw [(hcall hth).1]
    rw [hsame] at hcount
    rw [Nat.add_right_cancel hcount]
    exact h.replied c
  owner := fun j => by
    by_cases hj : j = i
    · subst hj
      intro hth
      simp only [Pool.setThread, Function.update_self] at hth ⊢
      obtain ⟨h1, h2, h3⟩ := hcall hth
      rw [h1, h2, h3]
      exact h.owner j (hexec ▸ hth)
    · simpa [Pool.setThread, hj] using h.owner j
  marked := h.marked
  results := h.results

theorem Ok.create (h : p.Ok prog reported) (hnew : (p.threads i).created = false) :
    (p.create i).Ok prog reported := by
  have hidle : (p.threads i).executing = false := by
    by_contra hexec
    rw [not_eq_false] at hexec
    rw [(h.sane i).executing hexec] at hnew
    cases hnew
  exact h.setThread ⟨by simp, by simp, by simp, by simp⟩ hidle.symm (by simp)

theorem Ok.workerStart {p' : Pool} (h : p.Ok prog reported) (hstep : p.workerStart i = some p') :
    p'.Ok prog reported := by
  unfold Pool.workerStart at hstep
  split at hstep
  · rename_i hready
    cases hstep
    obtain ⟨hexec, hdone, hworking⟩ := (h.sane i).ready hready.2
    exact h.setThread ⟨by simp, by simp [hexec, hdone], by simp [hexec], by simp [hready.1]⟩ rfl
      (by simp)
  · cases hstep

theorem Ok.workerFinish {p' : Pool} {res : Int64} (h : p.Ok prog reported)
    (hstep : p.workerFinish i res = some p') : p'.Ok prog reported := by
  unfold Pool.workerFinish at hstep
  split at hstep
  · rename_i hworking
    cases hstep
    obtain ⟨hexec, hdone⟩ := (h.sane i).working hworking
    have hready : (p.threads i).ready = false := by
      by_contra hready
      rw [not_eq_false] at hready
      rw [((h.sane i).ready hready).2.2] at hworking
      cases hworking
    have hcreated := (h.sane i).executing hexec
    exact h.setThread ⟨by simp [hready], by simp, by simp, by simp [hcreated]⟩ rfl (by simp)
  · cases hstep

theorem executing_pos (h : (p.threads i).executing = true) : 0 < p.executing :=
  card_pos.mpr ⟨i, mem_filter.mpr ⟨mem_univ i, h⟩⟩

end Steps

/-- No executing thread has been reported on. -/
abbrev noneReported : ThreadId → Bool := fun _ => false

section Complete
variable {cfg : ExecConfig} {p p' : Pool} {i : ThreadId}

theorem copyoutRead_subset (readable : Nat → Bool) (pos : Nat) (l : List Instr) :
    copyoutRead readable pos l ⊆ copyoutRun l := by
  induction l generalizing pos with
  | nil => simp [copyoutRead]
  | cons instr l ih =>
    cases instr with
    | copyout index =>
      simp only [copyoutRead, copyoutRun]
      split
      · exact cons_subset_cons index (ih (pos + 1))
      · exact fun slot hslot => mem_cons_of_mem index (ih (pos + 1) hslot)
    | copyin | setprops props | call num copyoutIndex => simp [copyoutRead]

/-- The slots that a call marks are its own. -/
theorem owns_of_mem_marks {th : Thread} {slot : Nat}
    (hcall : CallAt cfg.prog th.callIndex th.copyoutPos th.copyoutIndex)
    (h : slot ∈ th.marks cfg) : Owns cfg.prog th.callIndex slot := by
  refine ⟨_, _, hcall, ?_⟩
  unfold Thread.marks at h
  split at h
  · rcases mem_append.mp h with h | h
    · exact .inl (by simpa using h)
    · exact .inr (copyoutRead_subset _ _ _ h)
  · cases h

/-- The log entries of a completion: the marks, then the reply. -/
def completionLog (cfg : ExecConfig) (p : Pool) (i : ThreadId) : List LogEntry :=
  ((p.threads i).marks cfg).map (.marked (p.threads i).callIndex) ++
    [.reply (p.threads i).callIndex true (p.lastScheduled ≠ some i)]

/-- The pool after `handle_completion`. -/
def completed (cfg : ExecConfig) (p : Pool) (i : ThreadId) : Pool :=
  { p with
    threads := Function.update p.threads i (p.threads i).idled
    running := p.running - 1
    results := fun slot => p.results slot || decide (slot ∈ (p.threads i).marks cfg)
    log := p.log ++ p.completionLog cfg i }

/-- `handle_completion` of a finished call succeeds, unless a slot is out of
range: the checks of the thread state and of the counter never fail. -/
theorem complete_cases (h : p.Ok cfg.prog noneReported) (hexec : (p.threads i).executing = true)
    (hdone : (p.threads i).done = true) :
    p.complete cfg i = .error .failed ∨ p.complete cfg i = .ok (p.completed cfg i) := by
  obtain ⟨hready, -⟩ := (h.sane i).of_done hdone
  have hpos := executing_pos hexec
  have hrunning := h.running
  unfold Pool.complete
  rw [if_neg (by simp [hready, hdone, hexec])]
  split
  · exact .inl rfl
  · rw [if_neg (by omega)]
    exact .inr rfl

theorem mem_completionLog {e : LogEntry} (h : e ∈ p.completionLog cfg i) :
    (∃ slot ∈ (p.threads i).marks cfg, e = .marked (p.threads i).callIndex slot) ∨
      e = .reply (p.threads i).callIndex true (p.lastScheduled ≠ some i) := by
  rcases mem_append.mp h with h | h
  · obtain ⟨slot, hslot, rfl⟩ := mem_map.mp h
    exact .inl ⟨slot, hslot, rfl⟩
  · exact .inr (List.mem_singleton.mp h)

theorem countP_schedules_completionLog (c : Nat) :
    (p.completionLog cfg i).countP (LogEntry.schedules c) = 0 := by
  refine countP_eq_zero.mpr fun e he => ?_
  rcases mem_completionLog he with ⟨slot, -, rfl⟩ | rfl <;> simp [LogEntry.schedules]

theorem countP_repliesTo_completionLog (c : Nat) :
    (p.completionLog cfg i).countP (LogEntry.repliesTo c) =
      (decide ((p.threads i).callIndex = c)).toNat := by
  have hmarks : (((p.threads i).marks cfg).map
      (LogEntry.marked (p.threads i).callIndex)).countP (LogEntry.repliesTo c) = 0 := by
    refine countP_eq_zero.mpr fun e he => ?_
    obtain ⟨slot, -, rfl⟩ := mem_map.mp he
    simp [LogEntry.repliesTo]
  rw [completionLog, countP_append, hmarks, countP_singleton, Nat.zero_add]
  simp only [LogEntry.repliesTo]
  by_cases hc : (p.threads i).callIndex = c <;> simp [hc]

theorem Ok.completed (h : p.Ok cfg.prog noneReported) (hexec : (p.threads i).executing = true)
    (hdone : (p.threads i).done = true) : (p.completed cfg i).Ok cfg.prog noneReported where
  running := by
    have hcount := executing_setThread p i (p.threads i).idled
    have hrunning := h.running
    rw [hexec] at hcount
    show p.running - 1 = ((p.setThread i (p.threads i).idled).executing : Int)
    simp only [Thread.idled, toNat_true, toNat_false] at hcount ⊢
    omega
  sane := fun j => by
    by_cases hj : j = i
    · subst hj
      simpa [Pool.completed] using (h.sane j).idled hdone
    · simpa [Pool.completed, hj] using h.sane j
  scheduled := fun c => by
    show (p.log ++ p.completionLog cfg i).countP _ = _
    rw [countP_append, countP_schedules_completionLog, Nat.add_zero]
    exact h.scheduled c
  handed := fun c j b hmem => by
    rcases mem_append.mp hmem with hmem | hmem
    · exact h.handed c j b hmem
    · rcases mem_completionLog hmem with ⟨slot, -, heq⟩ | heq <;> cases heq
  replied := fun c => by
    have hcount := outstanding_setThread p noneReported c i (p.threads i).idled
    have hreplied := h.replied c
    rw [hexec] at hcount
    show (p.log ++ p.completionLog cfg i).countP _ +
      (p.setThread i (p.threads i).idled).outstanding noneReported c =
        if c < p.nextCall then 1 else 0
    rw [countP_append, countP_repliesTo_completionLog]
    simp only [Thread.idled, Bool.not_false, Bool.and_true, Bool.true_and, Bool.false_and,
      Bool.toNat_false, Nat.add_zero] at hcount ⊢
    omega
  owner := fun j => by
    by_cases hj : j = i
    · subst hj
      simp [Pool.completed, Thread.idled]
    · simpa [Pool.completed, hj] using h.owner j
  marked := fun c slot hmem => by
    rcases mem_append.mp hmem with hmem | hmem
    · obtain ⟨howns, b, hreply⟩ := h.marked c slot hmem
      exact ⟨howns, b, mem_append_left _ hreply⟩
    · rcases mem_completionLog hmem with ⟨slot', hslot, heq⟩ | heq
      · obtain ⟨rfl, rfl⟩ := LogEntry.marked.inj heq
        exact ⟨owns_of_mem_marks (h.owner i hexec) hslot, _,
          mem_append_right _ (mem_append_right _ (List.mem_singleton.mpr rfl))⟩
      · cases heq
  results := fun slot => by
    show (p.results slot || decide (slot ∈ (p.threads i).marks cfg)) = true ↔ _
    rw [or_eq_true, decide_eq_true_eq, h.results slot]
    constructor
    · rintro (⟨c, hmem⟩ | hmem)
      · exact ⟨c, mem_append_left _ hmem⟩
      · exact ⟨_, mem_append_right _ (mem_append_left _ (mem_map_of_mem hmem))⟩
    rintro ⟨c, hmem⟩
    rcases mem_append.mp hmem with hmem | hmem
    · exact .inl ⟨c, hmem⟩
    · rcases mem_completionLog hmem with ⟨slot', hslot, heq⟩ | heq
      · obtain ⟨-, rfl⟩ := LogEntry.marked.inj heq
        exact .inr hslot
      · cases heq

end Complete

section Schedule
variable {prog : List Instr} {p : Pool} {i : ThreadId} {pos : Nat} {copyoutIndex : Option Nat}

/-- The pool after `schedule_call` has handed a call to thread `i`. -/
def handedTo (p : Pool) (i : ThreadId) (pos : Nat) (copyoutIndex : Option Nat) : Pool :=
  { p with
    threads := Function.update p.threads i ((p.threads i).assigned p.nextCall pos copyoutIndex)
    running := p.running + 1
    lastScheduled := some i
    nextCall := p.nextCall + 1
    log := p.log ++ [.scheduled p.nextCall i (p.threads i).executing] }

/-- The thread that was found is never in a state that `schedule_call` rejects. -/
theorem schedule_eq (h : p.Ok prog noneReported) (hidle : (p.threads i).executing = false)
    (hdone : (p.threads i).done = true) :
    p.schedule i pos copyoutIndex = .ok (p.handedTo i pos copyoutIndex) := by
  obtain ⟨hready, -⟩ := (h.sane i).of_done hdone
  unfold Pool.schedule
  rw [if_neg (by simp [hready, hdone, hidle])]
  rfl

theorem Ok.handedTo (h : p.Ok prog noneReported) (hidle : (p.threads i).executing = false)
    (hdone : (p.threads i).done = true) (hcreated : (p.threads i).created = true)
    (hcall : CallAt prog p.nextCall pos copyoutIndex) :
    (p.handedTo i pos copyoutIndex).Ok prog noneReported where
  running := by
    have hcount := executing_setThread p i ((p.threads i).assigned p.nextCall pos copyoutIndex)
    have hrunning := h.running
    rw [hidle] at hcount
    show p.running + 1 = ((p.setThread i _).executing : Int)
    simp only [Thread.assigned, toNat_true, toNat_false] at hcount ⊢
    omega
  sane := fun j => by
    by_cases hj : j = i
    · subst hj
      simpa [Pool.handedTo] using (h.sane j).assigned hdone hcreated p.nextCall pos copyoutIndex
    · simpa [Pool.handedTo, hj] using h.sane j
  scheduled := fun c => by
    have hold := h.scheduled c
    show (p.log ++ [_]).countP _ = if c < p.nextCall + 1 then 1 else 0
    rw [countP_append, countP_singleton, hold]
    simp only [LogEntry.schedules, decide_eq_true_eq]
    split <;> split <;> split <;> omega
  handed := fun c j b hmem => by
    rcases mem_append.mp hmem with hmem | hmem
    · exact h.handed c j b hmem
    · obtain ⟨-, -, rfl⟩ := LogEntry.scheduled.inj (List.mem_singleton.mp hmem)
      exact hidle
  replied := fun c => by
    have hcount := outstanding_setThread p noneReported c i
      ((p.threads i).assigned p.nextCall pos copyoutIndex)
    have hreplied := h.replied c
    rw [hidle] at hcount
    show (p.log ++ [_]).countP _ + (p.setThread i _).outstanding noneReported c =
      if c < p.nextCall + 1 then 1 else 0
    have hsingle : [LogEntry.scheduled p.nextCall i (p.threads i).executing].countP
        (LogEntry.repliesTo c) = 0 := rfl
    rw [countP_append, hsingle]
    simp only [Thread.assigned, Bool.not_false, Bool.and_true, Bool.true_and, Bool.false_and,
      toNat_false, Nat.add_zero] at hcount ⊢
    by_cases hc : p.nextCall = c
    · subst hc
      simp only [decide_true, Bool.toNat_true] at hcount
      simp only [Nat.lt_irrefl, if_false] at hreplied
      rw [if_pos (Nat.lt_succ_self _)]
      omega
    · simp only [hc, decide_false, Bool.toNat_false] at hcount
      split at hreplied <;> split <;> omega
  owner := fun j => by
    by_cases hj : j = i
    · subst hj
      simpa [Pool.handedTo, Thread.assigned] using hcall
    · simpa [Pool.handedTo, hj] using h.owner j
  marked := fun c slot hmem => by
    rcases mem_append.mp hmem with hmem | hmem
    · obtain ⟨howns, b, hreply⟩ := h.marked c slot hmem
      exact ⟨howns, b, mem_append_left _ hreply⟩
    · cases List.mem_singleton.mp hmem
  results := fun slot => by
    have hold := h.results slot
    simpa [Pool.handedTo] using hold

end Schedule

section Report
variable {prog : List Instr} {reported : ThreadId → Bool} {p : Pool} {i : ThreadId}

theorem outstanding_report (p : Pool) (reported : ThreadId → Bool) (c : Nat) (i : ThreadId) :
    p.outstanding (Function.update reported i true) c +
        ((p.threads i).executing && !reported i && decide ((p.threads i).callIndex = c)).toNat =
      p.outstanding reported c := by
  have hcount := card_filter_update
    (fun j (r : Bool) => (p.threads j).executing && !r && decide ((p.threads j).callIndex = c))
    reported i true
  simp only [Bool.not_true, Bool.and_false, Bool.false_and, Bool.toNat_false, Nat.add_zero]
    at hcount
  exact hcount

/-- An unfinished call gets its reply. -/
theorem Ok.reportUnfinished (h : p.Ok prog reported) (hexec : (p.threads i).executing = true)
    (hopen : reported i = false) :
    (p.reportUnfinished i).Ok prog (Function.update reported i true) where
  running := h.running
  sane := h.sane
  scheduled := fun c => by
    show (p.log ++ [_]).countP _ = if c < p.nextCall then 1 else 0
    rw [countP_append, h.scheduled c]
    rfl
  handed := fun c j b hmem => by
    refine h.handed c j b ?_
    simpa [Pool.reportUnfinished] using hmem
  replied := fun c => by
    have hcount := outstanding_report p reported c i
    have hreplied := h.replied c
    rw [hexec, hopen] at hcount
    have hlog : (p.reportUnfinished i).log.countP (LogEntry.repliesTo c) =
        p.log.countP (LogEntry.repliesTo c) + (decide ((p.threads i).callIndex = c)).toNat := by
      simp only [Pool.reportUnfinished, countP_append, countP_singleton,
        LogEntry.repliesTo]
      by_cases hc : (p.threads i).callIndex = c <;> simp [hc]
    show _ + p.outstanding _ c = if c < p.nextCall then 1 else 0
    simp only [Bool.not_false, Bool.and_true, Bool.true_and] at hcount
    omega
  owner := h.owner
  marked := fun c slot hmem => by
    obtain ⟨howns, b, hreply⟩ := h.marked c slot (by simpa [Pool.reportUnfinished] using hmem)
    exact ⟨howns, b, mem_append_left _ hreply⟩
  results := fun slot => by
    have hold := h.results slot
    simpa [Pool.reportUnfinished] using hold

/-- A thread without a call may count as reported. -/
theorem Ok.report_idle (h : p.Ok prog reported) (hidle : (p.threads i).executing = false) :
    p.Ok prog (Function.update reported i true) :=
  { h with
    replied := fun c => by
      have hcount := outstanding_report p reported c i
      rw [hidle] at hcount
      rw [← h.replied c, ← hcount]
      simp }

/-- When no thread executes, all may count as reported. -/
theorem Ok.of_idle (h : p.Ok prog noneReported) (hidle : ∀ i, (p.threads i).executing = false)
    (reported : ThreadId → Bool) : p.Ok prog reported :=
  { h with
    replied := fun c => by
      have hnone : ∀ r : ThreadId → Bool, p.outstanding r c = 0 := by
        intro r
        refine card_eq_zero.mpr (filter_eq_empty_iff.mpr fun i _ => ?_)
        simp [hidle i]
      rw [hnone]
      have hreplied := h.replied c
      rwa [hnone] at hreplied }

theorem Ok.idle_of_running (h : p.Ok prog reported) (hrunning : ¬ p.running > 0) (i : ThreadId) :
    (p.threads i).executing = false := by
  by_contra hexec
  rw [not_eq_false] at hexec
  have hpos := executing_pos hexec
  have hcount := h.running
  omega

/-- Which thread was scheduled last does not matter to the accounting. -/
theorem Ok.forgetLast (h : p.Ok prog reported) :
    ({ p with lastScheduled := none } : Pool).Ok prog reported :=
  ⟨h.running, h.sane, h.scheduled, h.handed, h.replied, h.owner, h.marked, h.results⟩

end Report

end Pool

theorem callsBefore_succ_of_call {num : Nat} {copyoutIndex : Option Nat}
    (h : prog[pc]? = some (.call num copyoutIndex)) :
    callsBefore prog (pc + 1) = callsBefore prog pc + 1 := by
  rw [callsBefore, take_add_one, h, countP_append]
  rfl

theorem callsBefore_succ_of_not_call {instr : Instr} (h : prog[pc]? = some instr)
    (hnot : instr.isCall = false) : callsBefore prog (pc + 1) = callsBefore prog pc := by
  rw [callsBefore, take_add_one, h, countP_append]
  simp [hnot, callsBefore]

/-- The number of calls of a program. -/
def numCalls (prog : List Instr) : Nat := prog.countP Instr.isCall

theorem callsBefore_of_none (h : prog[pc]? = none) : callsBefore prog pc = numCalls prog := by
  rw [callsBefore, take_of_length_le (getElem?_eq_none_iff.mp h)]
  rfl

namespace ExecState
variable (cfg : ExecConfig)

/-- No thread executes a call when there are no worker threads. -/
def Unthreaded (p : Pool) : Prop :=
  cfg.flagThreaded = false → ∀ i, (p.threads i).executing = false

/-- What the phase of the interpreter says about the pool. -/
def Place (p : Pool) (reported : ThreadId → Bool) : Phase → Prop
  | .fetch pc => reported = Pool.noneReported ∧ p.nextCall = callsBefore cfg.prog pc ∧
      Unthreaded cfg p
  | .scan pc copyoutIndex i => reported = Pool.noneReported ∧
      p.nextCall = callsBefore cfg.prog pc ∧ Unthreaded cfg p ∧
      (∃ num, cfg.prog[pc]? = some (.call num copyoutIndex)) ∧
      (cfg.flagThreaded = false → i = 0)
  | .wait pc i => reported = Pool.noneReported ∧ p.nextCall = callsBefore cfg.prog (pc + 1) ∧
      cfg.flagThreaded = true ∧ (p.threads i).executing = true
  | .check pc _ => reported = Pool.noneReported ∧ p.nextCall = callsBefore cfg.prog (pc + 1) ∧
      cfg.flagThreaded = true
  | .direct pc i => reported = Pool.noneReported ∧ p.nextCall = callsBefore cfg.prog (pc + 1) ∧
      cfg.flagThreaded = false ∧ i.val = 0 ∧ (p.threads i).executing = true ∧
      (p.threads i).ready = true ∧ ∀ j, j ≠ i → (p.threads j).executing = false
  | .drain _ => reported = Pool.noneReported ∧ p.nextCall = numCalls cfg.prog
  | .report i => reported = (fun j => decide (j.val < i)) ∧ p.nextCall = numCalls cfg.prog
  | .returned => reported = (fun _ => true) ∧ p.nextCall = numCalls cfg.prog
  | .exited reason => reason = .outOfThreads ∨ reason = .failed

/-- **The invariant of `execute_one`.** -/
def Ok (s : ExecState) : Prop :=
  ∃ reported, s.pool.Ok cfg.prog reported ∧ Place cfg s.pool reported s.phase

variable {cfg} {s s' : ExecState}

theorem Fresh.ok (h : s.Fresh) : s.Ok cfg := by
  refine ⟨Pool.noneReported, ?_, ?_⟩
  · have hnone : s.pool.executing = 0 :=
      card_eq_zero.mpr (filter_eq_empty_iff.mpr fun i _ => by simp [(h.idle i).1])
    have hout : ∀ c, s.pool.outstanding Pool.noneReported c = 0 := fun c =>
      card_eq_zero.mpr (filter_eq_empty_iff.mpr fun i _ => by simp [(h.idle i).1])
    constructor
    · rw [h.running, hnone]
      rfl
    · intro i
      obtain ⟨hexec, hready, hworking⟩ := h.idle i
      exact ⟨by simp [hready], by simp [hworking], fun hc _ => h.waiting i hc, by simp [hexec]⟩
    · intro c
      simp [h.log, h.nextCall]
    · simp [h.log]
    · intro c
      simp [h.log, h.nextCall, hout]
    · intro i hexec
      rw [(h.idle i).1] at hexec
      cases hexec
    · simp [h.log]
    · intro slot
      simp [h.results, h.log]
  · rw [h.phase]
    exact ⟨rfl, by rw [h.nextCall]; rfl, fun _ i => (h.idle i).1⟩

variable {p : Pool} {i : ThreadId} {phase : Phase}

variable {props : CallProps} {copyoutIndex : Option Nat}

/-- `handle_completion` on the way to the next phase: the process exits on a slot
out of range, otherwise the thread is idle again. -/
theorem ok_complete (hs : s.pool.Ok cfg.prog Pool.noneReported)
    (h : p.Ok cfg.prog Pool.noneReported) (hexec : (p.threads i).executing = true)
    (hdone : (p.threads i).done = true)
    (hplace : Place cfg (p.completed cfg i) Pool.noneReported phase) :
    (s.continueWith (p.complete cfg i) props phase).Ok cfg := by
  rcases Pool.complete_cases h hexec hdone with hfail | hok
  · rw [hfail]
    exact ⟨_, hs, .inr rfl⟩
  · rw [hok]
    exact ⟨_, h.completed hexec hdone, hplace⟩

theorem ok_completeIf (h : s.pool.Ok cfg.prog Pool.noneReported)
    (hsame : Place cfg s.pool Pool.noneReported phase)
    (hplace : Place cfg (s.pool.completed cfg i) Pool.noneReported phase) :
    (s.completeIf cfg i props phase).Ok cfg := by
  unfold completeIf
  split
  · rename_i hfinished
    exact ok_complete h h hfinished.1 hfinished.2 hplace
  · exact ⟨_, h, hsame⟩

/-- The call at `pc` is handed to thread `i`. -/
theorem ok_schedule {pc num : Nat} (h : p.Ok cfg.prog Pool.noneReported)
    (hidle : (p.threads i).executing = false) (hdone : (p.threads i).done = true)
    (hcreated : (p.threads i).created = true) (hnext : p.nextCall = callsBefore cfg.prog pc)
    (hcall : cfg.prog[pc]? = some (.call num copyoutIndex)) (hunthreaded : Unthreaded cfg p)
    (hzero : cfg.flagThreaded = false → i.val = 0) :
    (s.continueWith (p.schedule i (pc + 1) copyoutIndex) (s.afterSchedule cfg pc i).1
      (s.afterSchedule cfg pc i).2).Ok cfg := by
  rw [Pool.schedule_eq h hidle hdone]
  refine ⟨Pool.noneReported, h.handedTo hidle hdone hcreated ⟨pc, num, rfl, hcall, hnext.symm⟩, ?_⟩
  have hnext' : p.nextCall + 1 = callsBefore cfg.prog (pc + 1) := by
    rw [hnext, callsBefore_succ_of_call hcall]
  show Place cfg (p.handedTo i (pc + 1) copyoutIndex) _ (s.afterSchedule cfg pc i).2
  unfold afterSchedule
  split
  · rename_i hasync
    rw [and_eq_true] at hasync
    refine ⟨rfl, hnext', fun hno => ?_⟩
    rw [hasync.2] at hno
    cases hno
  · split
    · rename_i hthreaded
      exact ⟨rfl, hnext', hthreaded, by simp [Pool.handedTo, Thread.assigned]⟩
    · rename_i hthreaded
      rw [not_eq_true] at hthreaded
      refine ⟨rfl, hnext', hthreaded, hzero hthreaded, by simp [Pool.handedTo, Thread.assigned],
        by simp [Pool.handedTo, Thread.assigned], fun j hj => ?_⟩
      simpa [Pool.handedTo, hj] using hunthreaded hthreaded j

theorem ok_scanThread {pc : Nat} (h : s.pool.Ok cfg.prog Pool.noneReported)
    (hplace : Place cfg s.pool Pool.noneReported (.scan pc copyoutIndex i)) :
    (s.scanThread cfg pc copyoutIndex i).Ok cfg := by
  obtain ⟨-, hnext, hunthreaded, ⟨num, hcall⟩, hzero⟩ := hplace
  -- the thread exists from here on
  obtain ⟨p, hp, hok, hcreated, hnextp, hunthreadedp⟩ : ∃ p : Pool,
      p = (if (s.pool.threads i).created then s.pool else s.pool.create i) ∧
      p.Ok cfg.prog Pool.noneReported ∧ (p.threads i).created = true ∧
      p.nextCall = s.pool.nextCall ∧ Unthreaded cfg p := by
    by_cases hc : (s.pool.threads i).created = true
    · exact ⟨s.pool, (if_pos hc).symm, h, hc, rfl, hunthreaded⟩
    refine ⟨s.pool.create i, (if_neg hc).symm, h.create (not_eq_true _ ▸ hc),
      by simp [Pool.create, Pool.setThread], rfl, fun hno j => ?_⟩
    by_cases hj : j = i
    · subst hj
      simp [Pool.create, Pool.setThread]
    · simpa [Pool.create, Pool.setThread, hj] using hunthreaded hno j
  unfold scanThread
  dsimp only
  rw [← hp]
  have hnext' : p.nextCall = callsBefore cfg.prog pc := hnextp.trans hnext
  split
  · rename_i hdone
    split
    · -- the thread has finished its previous call in the meantime
      rename_i hexec
      rcases Pool.complete_cases hok hexec hdone with hfail | hcompleted
      · rw [hfail]
        exact ⟨_, h, .inr rfl⟩
      rw [hcompleted]
      refine ok_schedule (hok.completed hexec hdone) ?_ ?_ ?_ hnext' hcall ?_ hzero
      · simp [Pool.completed, Thread.idled]
      · simpa [Pool.completed, Thread.idled] using hdone
      · simpa [Pool.completed, Thread.idled] using hcreated
      · intro hno
        rw [hunthreadedp hno i] at hexec
        cases hexec
    · rename_i hidle
      exact ok_schedule hok (not_eq_true _ ▸ hidle) hdone hcreated hnext' hcall hunthreadedp
        hzero
  · rename_i hbusy
    refine ⟨_, hok, rfl, hnext', hunthreadedp, ⟨num, hcall⟩, fun hno => ?_⟩
    exact absurd ((hok.sane i).idle hcreated (hunthreadedp hno i)) hbusy

theorem ok_finish (h : s.pool.Ok cfg.prog Pool.noneReported)
    (hnext : s.pool.nextCall = numCalls cfg.prog) : s.finish.Ok cfg := by
  unfold finish
  split
  · exact ⟨_, h.forgetLast, rfl, hnext⟩
  · rename_i hrunning
    exact ⟨_, h.of_idle (h.idle_of_running hrunning) _, rfl, hnext⟩

theorem ok_report {i : Nat} (hi : i < kMaxThreads)
    (h : s.pool.Ok cfg.prog fun j => decide (j.val < i))
    (hnext : s.pool.nextCall = numCalls cfg.prog) :
    (if (s.pool.threads ⟨i, hi⟩).executing then
      { s with pool := s.pool.reportUnfinished ⟨i, hi⟩, phase := .report (i + 1) }
      else { s with phase := .report (i + 1) } : ExecState).Ok cfg := by
  have hgrow : Function.update (fun j : ThreadId => decide (j.val < i)) ⟨i, hi⟩ true =
      fun j => decide (j.val < i + 1) := by
    funext j
    by_cases hj : j = ⟨i, hi⟩
    · subst hj
      simp
    · have hne : j.val ≠ i := fun heq => hj (Fin.ext heq)
      rw [Function.update_of_ne hj]
      exact decide_eq_decide.mpr (by omega)
  split
  · rename_i hexec
    have hok := h.reportUnfinished hexec (by simp)
    rw [hgrow] at hok
    exact ⟨_, hok, rfl, hnext⟩
  · rename_i hidle
    have hok := h.report_idle (not_eq_true _ ▸ hidle)
    rw [hgrow] at hok
    exact ⟨_, hok, rfl, hnext⟩

theorem ok_mainStep (h : s.Ok cfg) (hstep : s.mainStep cfg = some s') : s'.Ok cfg := by
  obtain ⟨reported, hpool, hplace⟩ := h
  unfold mainStep at hstep
  split at hstep
  case h_1 pc hphase =>
    rw [hphase] at hplace
    obtain ⟨rfl, hnext, hunthreaded⟩ := hplace
    split at hstep
    case h_1 hnone =>
      cases hstep
      exact ok_finish hpool (hnext.trans (callsBefore_of_none hnone))
    case h_5 num copyoutIndex hcall =>
      split at hstep
      · cases hstep
        exact ⟨_, hpool, rfl, hnext, hunthreaded, ⟨num, hcall⟩, fun _ => rfl⟩
      · cases hstep
        exact ⟨_, hpool, .inr rfl⟩
    all_goals
      rename_i hinstr
      cases hstep
      exact ⟨_, hpool, rfl, hnext.trans (callsBefore_succ_of_not_call hinstr rfl).symm,
        hunthreaded⟩
  case h_2 pc copyoutIndex i hphase =>
    rw [hphase] at hplace
    obtain ⟨rfl, hrest⟩ := hplace
    split at hstep
    · rename_i hi
      cases hstep
      exact ok_scanThread hpool ⟨rfl, hrest⟩
    · cases hstep
      exact ⟨_, hpool, .inl rfl⟩
  case h_3 pc i hphase =>
    rw [hphase] at hplace
    obtain ⟨rfl, hnext, hthreaded, hexec⟩ := hplace
    split at hstep
    · rename_i hdone
      cases hstep
      exact ok_complete hpool hpool hexec hdone ⟨rfl, hnext, hthreaded⟩
    · cases hstep
  case h_4 pc i hphase =>
    rw [hphase] at hplace
    obtain ⟨rfl, hnext, hthreaded⟩ := hplace
    split at hstep
    · cases hstep
      exact ok_completeIf hpool ⟨rfl, hnext, hthreaded⟩ ⟨rfl, hnext, hthreaded⟩
    · cases hstep
      refine ⟨_, hpool, rfl, hnext, fun hno => ?_⟩
      rw [hthreaded] at hno
      cases hno
  case h_5 i hphase =>
    rw [hphase] at hplace
    obtain ⟨rfl, hnext⟩ := hplace
    split at hstep
    · cases hstep
      exact ok_completeIf hpool ⟨rfl, hnext⟩ ⟨rfl, hnext⟩
    split at hstep
    · cases hstep
      exact ⟨_, hpool, rfl, hnext⟩
    · rename_i hrunning
      cases hstep
      exact ⟨_, hpool.of_idle (hpool.idle_of_running hrunning) _, rfl, hnext⟩
  case h_6 i hphase =>
    rw [hphase] at hplace
    obtain ⟨rfl, hnext⟩ := hplace
    split at hstep
    · rename_i hi
      have hok := ok_report hi hpool hnext
      split at hstep
      · rename_i hexec
        cases hstep
        rwa [if_pos hexec] at hok
      · rename_i hidle
        cases hstep
        rwa [if_neg hidle] at hok
    · rename_i hi
      cases hstep
      have hall : (fun j : ThreadId => decide (j.val < i)) = fun _ => true := by
        funext j
        exact decide_eq_true (by omega)
      rw [hall] at hpool
      exact ⟨_, hpool, rfl, hnext⟩
  all_goals cases hstep

theorem ok_timeoutStep (h : s.Ok cfg) (hstep : s.timeoutStep = some s') : s'.Ok cfg := by
  obtain ⟨reported, hpool, hplace⟩ := h
  unfold timeoutStep at hstep
  split at hstep
  case h_1 pc i hphase =>
    rw [hphase] at hplace
    obtain ⟨rfl, hnext, hthreaded, -⟩ := hplace
    split at hstep
    · cases hstep
    · cases hstep
      exact ⟨_, hpool, rfl, hnext, hthreaded⟩
  case h_2 i hphase =>
    rw [hphase] at hplace
    obtain ⟨rfl, hnext⟩ := hplace
    split at hstep
    · cases hstep
    split at hstep
    · cases hstep
      have hnone : Pool.noneReported = fun j : ThreadId => decide (j.val < 0) := by
        funext j
        exact (decide_eq_false (Nat.not_lt_zero _)).symm
      exact ⟨_, hpool, hnone, hnext⟩
    · rename_i hrunning
      cases hstep
      exact ⟨_, hpool.of_idle (hpool.idle_of_running hrunning) _, rfl, hnext⟩
  case h_3 => cases hstep

theorem ok_directStep {res : Int64} (h : s.Ok cfg) (hstep : s.directStep cfg res = some s') :
    s'.Ok cfg := by
  obtain ⟨reported, hpool, hplace⟩ := h
  unfold directStep at hstep
  split at hstep
  case h_1 pc i hphase =>
    rw [hphase] at hplace
    obtain ⟨rfl, hnext, hthreaded, hzero, hexec, hready, hothers⟩ := hplace
    rw [if_neg (by simp [hzero])] at hstep
    cases hstep
    obtain ⟨-, -, hworking⟩ := (hpool.sane i).ready hready
    -- the interpreter itself plays the worker
    have hok : (s.pool.setThread i { s.pool.threads i with
        ready := false, done := true, res := res }).Ok cfg.prog Pool.noneReported :=
      hpool.setThread ⟨by simp, by simp [hworking], by simp,
        by simpa using (hpool.sane i).executing⟩ rfl (by simp)
    refine ok_complete hpool hok (by simpa [Pool.setThread] using hexec)
      (by simp [Pool.setThread]) ⟨rfl, hnext, fun _ j => ?_⟩
    by_cases hj : j = i
    · subst hj
      simp [Pool.completed, Pool.setThread, Thread.idled]
    · simpa [Pool.completed, Pool.setThread, hj] using hothers j hj
  case h_2 => cases hstep

/-- A step of a worker changes neither the number of calls handed out nor who
executes. -/
theorem Place.worker {p' : Pool} {reported : ThreadId → Bool} (hthreaded : cfg.flagThreaded = true)
    (hplace : Place cfg p reported phase) (hnext : p'.nextCall = p.nextCall)
    (hexec : ∀ i, (p'.threads i).executing = (p.threads i).executing) :
    Place cfg p' reported phase := by
  have hunthreaded : Unthreaded cfg p' := fun hno => by
    rw [hthreaded] at hno
    cases hno
  cases phase with
  | fetch pc => exact ⟨hplace.1, hnext.trans hplace.2.1, hunthreaded⟩
  | scan pc copyoutIndex i =>
    exact ⟨hplace.1, hnext.trans hplace.2.1, hunthreaded, hplace.2.2.2⟩
  | wait pc i =>
    exact ⟨hplace.1, hnext.trans hplace.2.1, hthreaded, (hexec i).trans hplace.2.2.2⟩
  | check pc i => exact ⟨hplace.1, hnext.trans hplace.2.1, hthreaded⟩
  | direct pc i =>
    rw [hplace.2.2.1] at hthreaded
    cases hthreaded
  | drain i | report i | returned => exact ⟨hplace.1, hnext.trans hplace.2⟩
  | exited reason => exact hplace

theorem executing_setThread_of_eq {th : Thread} (h : th.executing = (p.threads i).executing)
    (j : ThreadId) : ((p.setThread i th).threads j).executing = (p.threads j).executing := by
  by_cases hj : j = i
  · subst hj
    simpa [Pool.setThread] using h
  · simp [Pool.setThread, hj]

theorem ok_step {l : ExecLabel} (h : s.Ok cfg) (hstep : s.step cfg l = some s') : s'.Ok cfg := by
  cases l with
  | main => exact ok_mainStep h hstep
  | timeout => exact ok_timeoutStep h hstep
  | direct res => exact ok_directStep h hstep
  | start i =>
    simp only [step] at hstep
    split at hstep
    · cases hstep
    rename_i hactive
    obtain ⟨p, hp, rfl⟩ := Option.map_eq_some_iff.mp hstep
    obtain ⟨reported, hpool, hplace⟩ := h
    refine ⟨reported, hpool.workerStart hp, ?_⟩
    unfold Pool.workerStart at hp
    split at hp
    · cases hp
      exact .worker (by simp at hactive; exact hactive.2) hplace rfl
        (executing_setThread_of_eq rfl)
    · cases hp
  | finish i res =>
    simp only [step] at hstep
    split at hstep
    · cases hstep
    rename_i hactive
    obtain ⟨p, hp, rfl⟩ := Option.map_eq_some_iff.mp hstep
    obtain ⟨reported, hpool, hplace⟩ := h
    refine ⟨reported, hpool.workerFinish hp, ?_⟩
    unfold Pool.workerFinish at hp
    split at hp
    · cases hp
      exact .worker (by simp at hactive; exact hactive.2) hplace rfl
        (executing_setThread_of_eq rfl)
    · cases hp
  | fail =>
    simp only [step] at hstep
    split at hstep
    · cases hstep
    · cases hstep
      obtain ⟨reported, hpool, -⟩ := h
      exact ⟨reported, hpool, .inr rfl⟩

theorem ok_run {labels : List ExecLabel} (h : s.Fresh)
    (hrun : StepRuns.run (step cfg) s labels = some s') : s'.Ok cfg :=
  StepRuns.invariant (fun _ _ _ hok hstep => ok_step hok hstep) h.ok hrun

/-- The executor before its first program. -/
def start : ExecState where
  pool :=
    { threads := fun _ => ⟨false, false, false, false, false, 0, 0, none, 0⟩
      running := 0, lastScheduled := none, nextCall := 0, results := fun _ => false, log := [] }
  props := noProps
  phase := .fetch 0

theorem start_fresh : start.Fresh :=
  ⟨rfl, rfl, rfl, fun _ => rfl, rfl, fun _ => ⟨rfl, rfl, rfl⟩, fun _ h => by cases h⟩

/-- A program of one call whose return value goes to slot 5. -/
def oneCall : ExecConfig := ⟨[.call 0 (some 5)], true, fun _ => true, fun _ => true⟩

/-- Thirty-three asynchronous calls. -/
def manyAsync : ExecConfig :=
  ⟨(List.replicate 33 [Instr.setprops ⟨0, true, 0⟩, .call 0 none]).flatten, true,
    fun _ => true, fun _ => true⟩

end ExecState

end Sect.Executor
