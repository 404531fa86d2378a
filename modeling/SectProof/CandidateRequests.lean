import Mathlib

/-! # Requests for candidates

`NextInput` of `pkg/fuzzer/fuzzer.go` asks for more candidates on the channel
`NeedCandidates` when fewer than `MinCandidates` are queued; the flag
`candidatesRequested`, which `AddCandidates` clears, is to make it ask once.
**`candidates_requested_once_iff`** says when it does: only if it never has to ask.
-/

open List Option

namespace Sect.Fuzzer

/-- The kind of a request, `Request.stat`. -/
inductive Stat
  | generate
  | fuzz
  | candidate
  | triage
  | minimize
  | smash
  | hint
  | seed
  | collide
  deriving DecidableEq, Repr

def candidatePrio : Int := 4

/-- `greaterThan` of two priorities. -/
def greaterThan : List Int → List Int → Bool
  | [], _ => false
  | _ :: _, [] => true
  | x :: p, y :: other => if y < x then true else if x < y then false else greaterThan p other

/-- An item of the priority queue of requests. -/
structure QueueItem where
  stat : Stat
  prio : List Int
  deriving DecidableEq, Repr

/-- The part of the fuzzer that hands out inputs.  `needCandidates` is whether the
channel, which has room for one message, is full. -/
structure InputQueue where
  nextExec : List QueueItem := []
  queuedCandidates : Int := 0
  candidatesRequested : Bool := false
  needCandidates : Bool := false

/-- What happens to the fuzzer.  `nextInput` names the item that is popped, one of
those with the highest priority, and the kind of request that is made up when there
is none; `push` is the request of a job; `receive` is the reader of the channel. -/
inductive InputLabel
  | nextInput (idx : Nat) (generated : Stat)
  | addCandidates (n : Nat)
  | push (item : QueueItem)
  | receive
  deriving DecidableEq

def InputLabel.adds : InputLabel → Bool
  | .addCandidates _ => true
  | _ => false

/-- What a call of `NextInput` does about candidates: it finds too few of them, and
it sends a message. -/
structure Asked where
  need : Bool
  sent : Bool
  deriving DecidableEq, Repr

namespace InputQueue

/-- `nextInput`: the request and the rest of the queue. -/
def tryPop (s : InputQueue) (idx : Nat) (generated : Stat) : Option (Stat × List QueueItem) :=
  if s.nextExec = [] then
    if generated = .generate ∨ generated = .fuzz then some (generated, []) else none
  else do
    let item ← s.nextExec[idx]?
    if s.nextExec.any fun other => greaterThan other.prio item.prio then none
    else return (item.stat, s.nextExec.eraseIdx idx)

/-- The end of `NextInput`, once the number of queued candidates is known. -/
def askForCandidates (minCandidates : UInt64) (s : InputQueue) : InputQueue × Asked :=
  if s.queuedCandidates < minCandidates.toInt64.toInt then
    -- `CompareAndSwap(false, true)` succeeds if the flag was not set
    let swapped := !s.candidatesRequested
    let s := { s with candidatesRequested := true }
    if !swapped ∧ s.needCandidates = false then
      ({ s with needCandidates := true }, ⟨true, true⟩)
    else (s, ⟨true, false⟩)
  else (s, ⟨false, false⟩)

/-- The number of queued candidates after a request has been taken. -/
def left (s : InputQueue) (stat : Stat) : Int :=
  if stat = .candidate then s.queuedCandidates - 1 else s.queuedCandidates

/-- `NextInput`; no result also stands for the panic that the number of queued
candidates is out of sync. -/
def next (minCandidates : UInt64) (s : InputQueue) (idx : Nat) (generated : Stat) :
    Option (InputQueue × Asked) := do
  let (stat, nextExec) ← s.tryPop idx generated
  if stat = .candidate ∧ s.queuedCandidates - 1 < 0 then none
  else
    return askForCandidates minCandidates
      { s with nextExec := nextExec, queuedCandidates := s.left stat }

/-- `AddCandidates` of `n` candidates. -/
def add (s : InputQueue) (n : Nat) : InputQueue :=
  { s with
    queuedCandidates := s.queuedCandidates + n
    nextExec := s.nextExec ++ List.replicate n ⟨.candidate, [candidatePrio]⟩
    candidatesRequested := false }

/-- One step, with what a call of `NextInput` did. -/
def step (minCandidates : UInt64) (s : InputQueue) : InputLabel → Option (InputQueue × List Asked)
  | .nextInput idx generated =>
    (s.next minCandidates idx generated).map fun r => (r.1, [r.2])
  | .addCandidates n => some (s.add n, [])
  | .push item =>
    if item.stat = .candidate then none
    else some ({ s with nextExec := s.nextExec ++ [item] }, [])
  | .receive => some ({ s with needCandidates := false }, [])

/-- The calls of `NextInput` of a run, in order. -/
def run (minCandidates : UInt64) : InputQueue → List InputLabel → Option (InputQueue × List Asked)
  | s, [] => some (s, [])
  | s, label :: labels =>
    (s.step minCandidates label).bind fun r =>
      (run minCandidates r.1 labels).map fun t => (t.1, r.2 ++ t.2)

end InputQueue

/-- **At most one message is sent, and the first call that finds too few candidates
sends it.** -/
structure RequestedOnce (asked : List Asked) : Prop where
  once : (asked.filter (·.sent)).length ≤ 1
  first : ∀ a, asked.find? (·.need) = some a → a.sent = true

namespace InputQueue

variable {minCandidates : UInt64} {s s' : InputQueue} {asked : List Asked}

variable {label : InputLabel} {idx : Nat} {generated : Stat}

theorem run_cons {labels : List InputLabel} :
    s.run minCandidates (label :: labels) = some (s', asked) ↔ ∃ s₁ here rest,
      s.step minCandidates label = some (s₁, here) ∧
      s₁.run minCandidates labels = some (s', rest) ∧ asked = here ++ rest := by
  rw [run, bind_eq_some_iff]
  constructor
  · rintro ⟨⟨s₁, here⟩, hstep, hmap⟩
    obtain ⟨⟨s₂, rest⟩, hrun, heq⟩ := map_eq_some_iff.mp hmap
    obtain ⟨rfl, rfl⟩ := Prod.mk.inj heq
    exact ⟨s₁, here, rest, hstep, hrun, rfl⟩
  · rintro ⟨s₁, here, rest, hstep, hrun, rfl⟩
    exact ⟨(s₁, here), hstep, by rw [hrun]; rfl⟩

/-- What a call of `NextInput` does about candidates. -/
theorem askForCandidates_cases (s : InputQueue) :
    (askForCandidates minCandidates s).2.need = false ∧
        (askForCandidates minCandidates s).2.sent = false ∧
        (askForCandidates minCandidates s).1.candidatesRequested = s.candidatesRequested ∨
      (askForCandidates minCandidates s).2.need = true ∧
        ((askForCandidates minCandidates s).2.sent = true → s.candidatesRequested = true) := by
  unfold askForCandidates
  split_ifs with hneed
  · by_cases hsend : (!!s.candidatesRequested) = true ∧ s.needCandidates = false
    · rw [if_pos hsend]
      exact .inr ⟨rfl, fun _ => by simpa using hsend.1⟩
    · rw [if_neg hsend]
      exact .inr ⟨rfl, nofun⟩
  · exact .inl ⟨rfl, rfl, rfl⟩

theorem next_eq_some {r : InputQueue × Asked} (h : s.next minCandidates idx generated = some r) :
    ∃ nextExec queuedCandidates, r = askForCandidates minCandidates
      { s with nextExec := nextExec, queuedCandidates := queuedCandidates } := by
  obtain ⟨⟨stat, nextExec⟩, -, hrest⟩ := bind_eq_some_iff.mp h
  dsimp only at hrest
  by_cases hpanic : stat = .candidate ∧ s.queuedCandidates - 1 < 0
  · rw [if_pos hpanic] at hrest
    cases hrest
  · rw [if_neg hpanic] at hrest
    exact ⟨_, _, (some.inj hrest).symm⟩

/-- A step inside a period: the flag is not cleared, and a first call that finds too
few candidates only sets it. -/
theorem step_cases {here : List Asked} (h : s.step minCandidates label = some (s', here))
    (hlabel : label.adds = false) :
    (∀ a ∈ here, a.need = false ∧ a.sent = false) ∧
        s'.candidatesRequested = s.candidatesRequested ∨
      ∃ sent, here = [⟨true, sent⟩] ∧ (sent = true → s.candidatesRequested = true) := by
  cases label with
  | nextInput idx generated =>
    obtain ⟨⟨s₁, a⟩, hnext, heq⟩ := map_eq_some_iff.mp h
    obtain ⟨rfl, rfl⟩ := Prod.mk.inj heq
    obtain ⟨nextExec, queued, hask⟩ := next_eq_some hnext
    rcases @askForCandidates_cases minCandidates
        { s with nextExec := nextExec, queuedCandidates := queued } with
      ⟨hneed, hsent, hflag⟩ | ⟨hneed, hsent⟩
    · rw [← hask] at hneed hsent hflag
      refine .inl ⟨?_, hflag⟩
      intro b hb
      rw [mem_singleton] at hb
      subst hb
      exact ⟨hneed, hsent⟩
    · rw [← hask] at hneed hsent
      obtain ⟨need, sent⟩ := a
      cases hneed
      exact .inr ⟨sent, rfl, hsent⟩
  | addCandidates n => cases hlabel
  | push item =>
    change (if item.stat = .candidate then none else _) = _ at h
    by_cases hstat : item.stat = .candidate
    · rw [if_pos hstat] at h
      cases h
    · rw [if_neg hstat] at h
      cases h
      exact .inl ⟨fun a ha => (by cases ha), rfl⟩
  | receive =>
    cases h
    exact .inl ⟨fun a ha => (by cases ha), rfl⟩

/-- **The first call that finds too few candidates does not ask for them.** -/
theorem first_not_sent (labels : List InputLabel) : ∀ {s : InputQueue} {asked : List Asked},
    (∀ label ∈ labels, label.adds = false) → s.candidatesRequested = false →
    s.run minCandidates labels = some (s', asked) → ∀ a, asked.find? (·.need) = some a →
    a.sent = false := by
  induction labels with
  | nil =>
    intro s asked _ _ h a ha
    cases h
    cases ha
  | cons label labels ih =>
    intro s asked hlabels hflag h a ha
    rw [forall_mem_cons] at hlabels
    obtain ⟨s₁, here, rest, hstep, hrun, rfl⟩ := run_cons.mp h
    rw [find?_append] at ha
    rcases step_cases hstep hlabels.1 with ⟨hnone, hsame⟩ | ⟨sent, rfl, hsent⟩
    · have hhere : here.find? (·.need) = none :=
        find?_eq_none.mpr fun b hb => by simp [(hnone b hb).1]
      rw [hhere, none_or] at ha
      exact ih hlabels.2 (hsame.trans hflag) hrun a ha
    · cases ha
      cases sent with
      | true => exact absurd (hsent rfl) (by rw [hflag]; nofun)
      | false => rfl

/-- A call that finds enough candidates does not send a message. -/
theorem sent_needs (labels : List InputLabel) : ∀ {s : InputQueue} {asked : List Asked},
    (∀ label ∈ labels, label.adds = false) →
    s.run minCandidates labels = some (s', asked) → ∀ a ∈ asked, a.sent = true → a.need = true := by
  induction labels with
  | nil =>
    intro s asked _ h a ha
    cases h
    cases ha
  | cons label labels ih =>
    intro s asked hlabels h a ha hsent
    rw [forall_mem_cons] at hlabels
    obtain ⟨s₁, here, rest, hstep, hrun, rfl⟩ := run_cons.mp h
    rcases mem_append.mp ha with ha | ha
    · rcases step_cases hstep hlabels.1 with ⟨hnone, -⟩ | ⟨sent, rfl, -⟩
      · rw [(hnone a ha).2] at hsent
        cases hsent
      · rw [mem_singleton.mp ha]
    · exact ih hlabels.2 hrun a ha hsent

/-! ## The number of queued candidates -/

/-- The candidates in the queue. -/
def candidates (s : InputQueue) : Nat := s.nextExec.countP (·.stat = .candidate)

theorem askForCandidates_same (s : InputQueue) :
    (askForCandidates minCandidates s).1.nextExec = s.nextExec ∧
      (askForCandidates minCandidates s).1.queuedCandidates = s.queuedCandidates := by
  unfold askForCandidates
  split_ifs with hneed
  · by_cases hsend : (!!s.candidatesRequested) = true ∧ s.needCandidates = false
    · rw [if_pos hsend]
      exact ⟨rfl, rfl⟩
    · rw [if_neg hsend]
      exact ⟨rfl, rfl⟩
  · exact ⟨rfl, rfl⟩

/-- Popping a candidate takes one away. -/
theorem tryPop_candidates {stat : Stat} {nextExec : List QueueItem}
    (h : s.tryPop idx generated = some (stat, nextExec)) :
    s.candidates = nextExec.countP (·.stat = .candidate) + if stat = .candidate then 1 else 0 := by
  unfold tryPop at h
  unfold candidates
  by_cases hnil : s.nextExec = []
  · rw [if_pos hnil] at h
    by_cases hgen : generated = .generate ∨ generated = .fuzz
    · rw [if_pos hgen] at h
      cases h
      rw [hnil]
      rcases hgen with rfl | rfl
      · rfl
      · rfl
    · rw [if_neg hgen] at h
      cases h
  · rw [if_neg hnil] at h
    obtain ⟨item, hitem, hrest⟩ := bind_eq_some_iff.mp h
    split at hrest
    · cases hrest
    cases hrest
    obtain ⟨hlt, hget⟩ := List.getElem?_eq_some_iff.mp hitem
    have hperm := (List.getElem_cons_eraseIdx_perm hlt).countP_eq
      (fun i : QueueItem => decide (i.stat = .candidate))
    rw [← hperm, countP_cons, hget]
    simp

/-- **`queuedCandidates` is the number of candidates in the queue**, so `NextInput`
never finds it out of sync. -/
theorem queuedCandidates_exact (labels : List InputLabel) : ∀ {s : InputQueue} {asked : List Asked},
    s.queuedCandidates = s.candidates → s.run minCandidates labels = some (s', asked) →
    s'.queuedCandidates = s'.candidates := by
  induction labels with
  | nil =>
    intro s asked hs h
    cases h
    exact hs
  | cons label labels ih =>
    intro s asked hs h
    obtain ⟨s₁, here, rest, hstep, hrun, rfl⟩ := run_cons.mp h
    refine ih ?_ hrun
    cases label with
    | nextInput idx generated =>
      obtain ⟨⟨s₂, a⟩, hnext, heq⟩ := map_eq_some_iff.mp hstep
      obtain ⟨rfl, rfl⟩ := Prod.mk.inj heq
      obtain ⟨⟨stat, nextExec⟩, hpop, hrest⟩ := bind_eq_some_iff.mp hnext
      dsimp only at hrest
      by_cases hpanic : stat = .candidate ∧ s.queuedCandidates - 1 < 0
      · rw [if_pos hpanic] at hrest
        cases hrest
      rw [if_neg hpanic] at hrest
      have hask := @askForCandidates_same minCandidates
        { s with nextExec := nextExec, queuedCandidates := s.left stat }
      rw [some.inj hrest] at hask
      have hcount := tryPop_candidates hpop
      unfold candidates at hcount hs ⊢
      rw [hask.1, hask.2]
      unfold left
      by_cases hstat : stat = .candidate
      · rw [if_pos hstat] at hcount ⊢
        dsimp only
        omega
      · rw [if_neg hstat] at hcount ⊢
        dsimp only
        omega
    | addCandidates n =>
      cases hstep
      unfold candidates at hs ⊢
      unfold add
      rw [countP_append, hs, countP_replicate]
      simp
    | push item =>
      change (if item.stat = .candidate then none else _) = _ at hstep
      by_cases hstat : item.stat = .candidate
      · rw [if_pos hstat] at hstep
        cases hstep
      · rw [if_neg hstat] at hstep
        cases hstep
        unfold candidates at hs ⊢
        rw [countP_append, hs]
        simp [hstat]
    | receive =>
      cases hstep
      exact hs

/-- **`NextInput` never panics**: in every state of a fuzzer the number of candidates is in
sync with the queue. -/
theorem next_in_sync {labels : List InputLabel} {asked : List Asked} {r : Stat × List QueueItem}
    (hrun : run minCandidates {} labels = some (s, asked))
    (hpop : s.tryPop idx generated = some r) :
    s.queuedCandidates = s.candidates ∧ (s.next minCandidates idx generated).isSome := by
  have hexact := queuedCandidates_exact labels rfl hrun
  have hcount := tryPop_candidates hpop
  refine ⟨hexact, ?_⟩
  rw [next, hpop]
  refine (congrArg Option.isSome (if_neg ?_)).trans rfl
  rintro ⟨hstat, hlt⟩
  rw [if_pos hstat] at hcount
  omega

/-- The last of two candidates. -/
theorem next_in_sync_two : ∃ s asked,
    run 1 {} [.addCandidates 2, .nextInput 0 .fuzz] = some (s, asked) ∧
      (s.next 1 0 .fuzz).isSome :=
  have h : run 1 {} [.addCandidates 2, .nextInput 0 .fuzz] = some _ := rfl
  ⟨_, _, h, (next_in_sync h rfl).2⟩

end InputQueue

/-- **Between two `AddCandidates` candidates are requested once exactly if every call
of `NextInput` in between finds enough of them.** -/
theorem candidates_requested_once_iff (minCandidates : UInt64) (before period : List InputLabel)
    (n : Nat) (s₀ s₁ : InputQueue) (asked₀ asked : List Asked)
    (hbefore : InputQueue.run minCandidates {} (before ++ [.addCandidates n]) = some (s₀, asked₀))
    (hperiod : ∀ label ∈ period, label.adds = false)
    (hrun : s₀.run minCandidates period = some (s₁, asked)) :
    RequestedOnce asked ↔ ∀ a ∈ asked, a.need = false := by
  have hflag : s₀.candidatesRequested = false := by
    have hlast : ∀ (labels : List InputLabel) {s : InputQueue} {asked : List Asked},
        s.run minCandidates (labels ++ [.addCandidates n]) = some (s₀, asked) →
        s₀.candidatesRequested = false := by
      intro labels
      induction labels with
      | nil =>
        intro s asked h
        obtain ⟨u, here, rest, hstep, hnil, -⟩ := InputQueue.run_cons.mp h
        cases hstep
        cases hnil
        rfl
      | cons label labels ih =>
        intro s asked h
        obtain ⟨u, here, rest, -, hrest, -⟩ := InputQueue.run_cons.mp h
        exact ih hrest
    exact hlast before hbefore
  constructor
  · intro honce a ha
    by_contra hneed
    obtain ⟨b, hb⟩ : ∃ b, asked.find? (·.need) = some b :=
      isSome_iff_exists.mp (find?_isSome.mpr ⟨a, ha, by simpa using hneed⟩)
    have hsent := honce.first b hb
    rw [InputQueue.first_not_sent period hperiod hflag hrun b hb] at hsent
    cases hsent
  · intro hnone
    have hsent : ∀ a ∈ asked, ¬ a.sent = true := by
      intro a ha hsent
      have hneed := InputQueue.sent_needs period hperiod hrun a ha hsent
      rw [hnone a ha] at hneed
      cases hneed
    refine ⟨?_, ?_⟩
    · rw [filter_eq_nil_iff.mpr hsent]
      exact Nat.zero_le _
    · intro a ha
      have hneed := find?_some ha
      rw [hnone a (mem_of_find?_eq_some ha)] at hneed
      cases hneed

/-- Three candidates, of which one must be left. -/
theorem candidates_requested_once_three : ∃ s₀ s₁ asked₀ asked,
    InputQueue.run 1 {} [.addCandidates 3] = some (s₀, asked₀) ∧
    s₀.run 1 [.nextInput 0 .fuzz, .nextInput 0 .fuzz] = some (s₁, asked) ∧
    asked.length = 2 ∧ RequestedOnce asked :=
  ⟨_, _, _, _, rfl, rfl, rfl, (candidates_requested_once_iff 1 []
    [.nextInput 0 .fuzz, .nextInput 0 .fuzz] 3 _ _ _ _ rfl (by decide) rfl).mpr (by decide)⟩

/-- **Two candidates, of which two must be left**: the first call that finds too few
does not ask for more, and both calls after it do. -/
theorem candidates_requested_twice : ∃ s₀ s₁ asked₀,
    InputQueue.run 2 {} [.addCandidates 2] = some (s₀, asked₀) ∧
    s₀.run 2 [.nextInput 0 .fuzz, .receive, .nextInput 0 .fuzz, .receive, .nextInput 0 .fuzz] =
      some (s₁, [⟨true, false⟩, ⟨true, true⟩, ⟨true, true⟩]) ∧
    ¬ RequestedOnce [⟨true, false⟩, ⟨true, true⟩, ⟨true, true⟩] := by
  refine ⟨_, _, _, rfl, rfl, fun h => ?_⟩
  have honce := h.once
  simp at honce

end Sect.Fuzzer
