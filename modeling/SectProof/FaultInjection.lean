import SectProof.Deflaking
import SectProof.DuplicatedCalls

/-! # The fault injection sweep

`smashJob.faultInjection` of `pkg/fuzzer/job.go` is to run a program once for
every fault number until the fault is no longer injected.  Every round clones the
program, sets the fault number in the clone, and hands the original program to
the executor.  **`faultInjection_iff`** says when that makes no difference.
-/

open List ErrorChecks

namespace Sect.Program

/-- `p.Calls[call].Props.FailNth = n`. -/
def Prog.setFailNth (p : Prog) (call n : Nat) : Except Panic Prog :=
  match p.calls[call]? with
  | none => throw (.badIndex call)
  | some c => pure ⟨p.calls.set call (c.setFailNth n)⟩

theorem Prog.rename_self (p : Prog) : p.rename (fun i => i) = p := by
  unfold Prog.rename
  rw [map_congr_left fun c _ => c.rename_self, map_id']

end Sect.Program

namespace Sect.Fuzzer

open Sect.Program

/-- `CallFaultInjected` of `CallFlags`. -/
def callFaultInjected : UInt32 := 8

structure SmashJob where
  p : Prog
  call : Nat

/-- The result reports the call, and no fault was injected into it. -/
def Result.noFault (result : Result) (call : Nat) : Bool :=
  match result.info with
  | none => false
  | some info => (info.calls[call]?).any fun inf => inf.flags &&& callFaultInjected = 0

/-- A result that ends the sweep. -/
def Result.Ends (result : Result) (call : Nat) : Prop :=
  result.stop = true ∨ result.noFault call = true

instance (result : Result) (call : Nat) : Decidable (result.Ends call) :=
  inferInstanceAs (Decidable (_ ∨ _))

def faultRuns : Nat := 100

/-- The loop of `faultInjection` for the `remaining` rounds from the fault number
`nth` on: the programs that are executed.  `results nth` is the result of the round. -/
def faultLoop (job : SmashJob) (results : Nat → Result) :
    Nat → Nat → Store → Except Panic (List Prog × Store)
  | 0, _, s => pure ([], s)
  | remaining + 1, nth, s => do
    let (newProg, s) ← job.p.clone s
    -- the request below has the program of the job, not the clone that was edited
    let _newProg ← newProg.setFailNth job.call nth
    if (results nth).Ends job.call then pure ([job.p], s)
    else
      let (progs, s) ← faultLoop job results remaining (nth + 1) s
      pure (job.p :: progs, s)

/-- `faultInjection`. -/
def faultInjection (s : Store) (job : SmashJob) (results : Nat → Result) :
    Except Panic (List Prog × Store) :=
  faultLoop job results faultRuns 1 s

/-- In the store `s'`, `q` is a copy of the program `p` of the store `s` with only the
fault number of one call changed. -/
structure FaultedCopy (s : Store) (p : Prog) (call nth : Nat) (s' : Store) (q : Prog) : Prop where
  copy : ∃ g : Id → Id, Function.Injective g ∧ (p.rename g).setFailNth call nth = .ok q ∧
    ∀ r ∈ p.validated, (s'.cells (g r)).bare =
      { (s.cells r).bare with res := (s.cells.res r).map g }

/-- What a sweep is to do, given the programs it executes in turn. -/
structure Swept (s : Store) (job : SmashJob) (results : Nat → Result) (progs : List Prog)
    (s' : Store) : Prop where
  faulted : ∀ k q, progs[k]? = some q → FaultedCopy s job.p job.call (k + 1) s' q
  unchanged : ∀ i < s.next, s'.cells i = s.cells i
  some : progs ≠ []
  goesOn : ∀ k, 1 ≤ k → k < progs.length → ¬ (results k).Ends job.call
  ends : (results progs.length).Ends job.call ∨ progs.length = faultRuns

section Sweep

variable {s s' : Store} {job : SmashJob} {results : Nat → Result} {progs : List Prog}

/-- A round: the clone is made and the program of the job is executed. -/
theorem faultLoop_succ_eq_ok {remaining nth : Nat} :
    faultLoop job results (remaining + 1) nth s = .ok (progs, s') ↔
      ∃ q s₁ q', job.p.clone s = .ok (q, s₁) ∧ q.setFailNth job.call nth = .ok q' ∧
        ((results nth).Ends job.call ∧ progs = [job.p] ∧ s' = s₁ ∨
          ¬ (results nth).Ends job.call ∧ ∃ rest,
            faultLoop job results remaining (nth + 1) s₁ = .ok (rest, s') ∧
            progs = job.p :: rest) := by
  rw [faultLoop, bind_eq_ok]
  constructor
  · rintro ⟨⟨q, s₁⟩, hclone, hrest⟩
    obtain ⟨q', hset, hrest⟩ := bind_eq_ok.mp hrest
    refine ⟨q, s₁, q', hclone, hset, ?_⟩
    by_cases hends : (results nth).Ends job.call
    · rw [if_pos hends] at hrest
      obtain ⟨rfl, rfl⟩ := Prod.mk.inj (pure_eq_ok.mp hrest)
      exact Or.inl ⟨hends, rfl, rfl⟩
    · rw [if_neg hends] at hrest
      obtain ⟨⟨rest, s₂⟩, hloop, hpure⟩ := bind_eq_ok.mp hrest
      obtain ⟨rfl, rfl⟩ := Prod.mk.inj (pure_eq_ok.mp hpure)
      exact Or.inr ⟨hends, rest, hloop, rfl⟩
  · rintro ⟨q, s₁, q', hclone, hset, hrest⟩
    refine ⟨(q, s₁), hclone, bind_eq_ok.mpr ⟨q', hset, ?_⟩⟩
    rcases hrest with ⟨hends, rfl, rfl⟩ | ⟨hends, rest, hloop, rfl⟩
    · rw [if_pos hends]
      rfl
    · rw [if_neg hends]
      exact bind_eq_ok.mpr ⟨(rest, s'), hloop, rfl⟩

/-- Only the program of the job is executed. -/
theorem faultLoop_executes (remaining : Nat) : ∀ {nth : Nat} {s : Store} {progs : List Prog},
    faultLoop job results remaining nth s = .ok (progs, s') → ∀ q ∈ progs, q = job.p := by
  induction remaining with
  | zero =>
    intro nth s progs h q hq
    cases h
    cases hq
  | succ remaining ih =>
    intro nth s progs h q hq
    obtain ⟨_, s₁, _, -, -, hrest⟩ := faultLoop_succ_eq_ok.mp h
    rcases hrest with ⟨-, rfl, -⟩ | ⟨-, rest, hloop, rfl⟩
    · exact mem_singleton.mp hq
    · rcases mem_cons.mp hq with rfl | hq
      · rfl
      · exact ih hloop q hq

/-- The fault number of the call in a faulted copy. -/
theorem FaultedCopy.failNth {p q : Prog} {call nth : Nat} (h : FaultedCopy s p call nth s' q) :
    ∃ c, q.calls[call]? = some c ∧ c.props.failNth = nth := by
  obtain ⟨g, -, hset, -⟩ := h.copy
  unfold Prog.setFailNth at hset
  cases hc : (p.rename g).calls[call]? with
  | none =>
    rw [hc] at hset
    cases hset
  | some c =>
    rw [hc] at hset
    cases hset
    refine ⟨c.setFailNth nth, ?_, rfl⟩
    have hlt := (List.getElem?_eq_some_iff.mp hc).1
    exact getElem?_set_self hlt

/-- The program itself is a faulted copy if its call has the fault number. -/
theorem FaultedCopy.self {p : Prog} {call nth : Nat} {c : Call}
    (hlive : ∀ i ∈ p.ids, i < s.next) (hold : ∀ i < s.next, s'.cells i = s.cells i)
    (hc : p.calls[call]? = some c) (hnth : c.props.failNth = nth) :
    FaultedCopy s p call nth s' p := by
  refine ⟨fun i => i, fun _ _ h => h, ?_, ?_⟩
  · rw [Prog.rename_self]
    unfold Prog.setFailNth
    rw [hc]
    have hsame : c.setFailNth nth = c := by
      subst hnth
      rfl
    obtain ⟨hlt, hget⟩ := List.getElem?_eq_some_iff.mp hc
    dsimp only
    rw [hsame, ← hget, List.set_getElem_self]
    rfl
  · intro r hr
    rw [hold r (hlive r (p.validated_sublist_ids.subset hr)), Option.map_id']
    rfl

end Sweep

/-- **The sweep is as it should be exactly if it needs one round only and the program
already has the fault number of that round.** -/
theorem faultInjection_iff (s : Store) (job : SmashJob) (results : Nat → Result)
    (hlive : ∀ i ∈ job.p.ids, i < s.next) :
    (∃ progs s', faultInjection s job results = .ok (progs, s') ∧ Swept s job results progs s') ↔
      (∃ out, job.p.clone s = .ok out) ∧
      (∃ c, job.p.calls[job.call]? = some c ∧ c.props.failNth = 1) ∧
      (results 1).Ends job.call := by
  constructor
  · rintro ⟨progs, s', hok, hswept⟩
    have hexec := faultLoop_executes _ hok
    have hfail : ∀ k q, progs[k]? = some q →
        ∃ c, job.p.calls[job.call]? = some c ∧ c.props.failNth = k + 1 := by
      intro k q hq
      obtain rfl := hexec q (mem_of_getElem? hq)
      exact (hswept.faulted k _ hq).failNth
    obtain ⟨q₀, hq₀⟩ : ∃ q, progs[0]? = some q := by
      obtain ⟨q, rest, rfl⟩ := exists_cons_of_ne_nil hswept.some
      exact ⟨q, rfl⟩
    obtain ⟨c, hc, hone⟩ := hfail 0 q₀ hq₀
    -- a second round would need another fault number
    have hlen : progs.length = 1 := by
      have hpos : 0 < progs.length := length_pos_iff.mpr hswept.some
      by_contra hne
      have hlt : 1 < progs.length := by omega
      obtain ⟨c', hc', htwo⟩ := hfail 1 _ (getElem?_eq_getElem hlt)
      rw [hc] at hc'
      cases hc'
      omega
    obtain ⟨q, s₁, _, hclone, -, -⟩ := faultLoop_succ_eq_ok.mp hok
    refine ⟨⟨_, hclone⟩, ⟨c, hc, hone⟩, ?_⟩
    rcases hswept.ends with hends | hruns
    · rwa [hlen] at hends
    · rw [hlen] at hruns
      cases hruns
  · rintro ⟨⟨⟨q, s₁⟩, hclone⟩, ⟨c, hc, hone⟩, hends⟩
    have hold := Prog.old_of_clone hclone
    have hq : q = job.p.rename (s.next + ·) := by
      obtain ⟨st, -, hpure⟩ := bind_eq_ok.mp hclone
      exact (Prod.mk.inj (pure_eq_ok.mp hpure)).1.symm
    obtain ⟨q', hset⟩ : ∃ q', q.setFailNth job.call 1 = .ok q' := by
      unfold Prog.setFailNth
      have hcopy : q.calls[job.call]? = some (c.rename (s.next + ·)) := by
        rw [hq]
        unfold Prog.rename
        rw [getElem?_map, hc]
        rfl
      rw [hcopy]
      exact ⟨_, rfl⟩
    refine ⟨[job.p], s₁, faultLoop_succ_eq_ok.mpr
      ⟨q, s₁, q', hclone, hset, Or.inl ⟨hends, rfl, rfl⟩⟩, ?_, hold, cons_ne_nil _ _, ?_, ?_⟩
    · intro k p' hp'
      obtain ⟨hk, hget⟩ := List.getElem?_eq_some_iff.mp hp'
      obtain rfl : k = 0 := by
        simp only [List.length_singleton] at hk
        omega
      obtain rfl : job.p = p' := hget
      exact FaultedCopy.self hlive hold hc hone
    · intro k hk hlt
      simp only [length_singleton] at hlt
      omega
    · exact Or.inl hends

namespace FaultSample

/-- One call with a fault number. -/
def job (failNth : Nat) : SmashJob where
  p := ⟨[{ syscall := { id := 0, name := "getpid", args := [], ret := none }, args := [],
           ret := none, props := { failNth := failNth } }]⟩
  call := 0

def store : Store := ⟨DeflakeSample.cells, 0⟩

/-- The call is reported, and no fault was injected. -/
def results : Nat → Result := fun _ => DeflakeSample.executed

end FaultSample

open FaultSample in
/-- A program that already has the fault number 1. -/
theorem faultInjection_alreadySet : ∃ progs s',
    faultInjection store (job 1) results = .ok (progs, s') ∧
      Swept store (job 1) results progs s' :=
  (faultInjection_iff store (job 1) results (by decide)).mpr
    ⟨⟨_, rfl⟩, ⟨_, rfl, rfl⟩, by decide⟩

open FaultSample in
/-- **A program without a fault number**: it is executed as it is. -/
theorem faultInjection_notSet : ¬ ∃ progs s',
    faultInjection store (job 0) results = .ok (progs, s') ∧
      Swept store (job 0) results progs s' := by
  rintro ⟨progs, s', hok, hswept⟩
  obtain ⟨q, rest, rfl⟩ := exists_cons_of_ne_nil hswept.some
  obtain rfl := faultLoop_executes _ hok q mem_cons_self
  obtain ⟨c, hc, hone⟩ := (hswept.faulted 0 _ rfl).failNth
  cases hc
  cases hone

end Sect.Fuzzer
