import SectProof.CandidateRequests
import SectProof.StepRuns

/-! # The order of requests

`pkg/fuzzer/prio_queue.go` keeps the requests in a heap ordered by `greaterThan`; all
requests of a job have the priority that it got when it was started. -/

open List Option

namespace Sect.Fuzzer

/-- `greaterThan` is the lexicographic order. -/
theorem greaterThan_iff (p other : List Int) : greaterThan p other = true ↔ other < p := by
  induction p generalizing other with
  | nil => simp [greaterThan]
  | cons x p ih =>
    cases other with
    | nil => simp [greaterThan]
    | cons y other =>
      rw [greaterThan, cons_lt_cons_iff, ← ih]
      split_ifs <;> grind

def newJobPriority (base : Int) : List Int := [base]

def saveID (prio : List Int) (id : Int) : List Int := prio ++ [id]

structure PriorityQueueItem (T : Type) where
  value : T
  prio : List Int

/-- The queue, the priorities of the jobs in the order of their starts, and what has been
pushed and returned. -/
structure Requests (T : Type) where
  nextJobID : Nat := 0
  jobs : List (List Int) := []
  nextExec : List (PriorityQueueItem T) := []
  pushed : List (PriorityQueueItem T) := []
  returned : List (PriorityQueueItem T) := []

/-- `tryPop` names the item that the heap returns. -/
inductive RequestLabel (T : Type)
  | startJob (base : Int)
  | push (item : PriorityQueueItem T)
  | tryPop (idx : Nat)

namespace Requests
variable {T : Type} {s u : Requests T} {idx : Nat}

/-- One operation; the heap returns an item that none of the queue precedes. -/
def step (s : Requests T) : RequestLabel T → Option (Requests T)
  | .startJob base =>
    some { s with
      nextJobID := s.nextJobID + 1
      jobs := s.jobs ++ [saveID (newJobPriority base) (-(s.nextJobID + 1 : Int))] }
  | .push item =>
    some { s with nextExec := s.nextExec ++ [item], pushed := s.pushed ++ [item] }
  | .tryPop idx =>
    if s.nextExec = [] then some s
    else do
      let item ← s.nextExec[idx]?
      if s.nextExec.any fun other => greaterThan other.prio item.prio then none
      else some { s with
        nextExec := s.nextExec.eraseIdx idx, returned := s.returned ++ [item] }

/-- Nothing is lost or duplicated, and the jobs are numbered. -/
structure Kept (s : Requests T) : Prop where
  perm : s.pushed ~ s.returned ++ s.nextExec
  number : s.nextJobID = s.jobs.length
  jobs : ∀ (i : Nat) prio, s.jobs[i]? = some prio → ∃ base, prio = [base, -(i + 1 : Int)]

/-- What a pop from a queue that is not empty does. -/
theorem tryPop_cases (hne : s.nextExec ≠ []) (h : s.step (.tryPop idx) = some u) :
    ∃ item, s.nextExec ~ item :: s.nextExec.eraseIdx idx ∧
      (∀ other ∈ s.nextExec, greaterThan other.prio item.prio = false) ∧
      u = { s with nextExec := s.nextExec.eraseIdx idx, returned := s.returned ++ [item] } := by
  rw [step, if_neg hne] at h
  obtain ⟨item, hitem, h⟩ := bind_eq_some_iff.mp h
  obtain ⟨hidx, rfl⟩ := List.getElem?_eq_some_iff.mp hitem
  obtain ⟨hmax, h⟩ := ite_none_left_eq_some.mp h
  cases h
  exact ⟨_, (getElem_cons_eraseIdx_perm hidx).symm, by simpa using hmax, rfl⟩

theorem Kept.step {label : RequestLabel T} (h : s.Kept) (hstep : s.step label = some u) :
    u.Kept := by
  cases label with
  | startJob base =>
    cases hstep
    refine ⟨h.perm, by simp [h.number], fun i prio hi => ?_⟩
    rcases lt_or_ge i s.jobs.length with hlt | hge
    · rw [getElem?_append_left hlt] at hi
      exact h.jobs i prio hi
    · rw [getElem?_append_right hge, getElem?_singleton, ite_none_right_eq_some] at hi
      have hlast : i = s.nextJobID := by
        rw [h.number]
        exact le_antisymm (Nat.sub_eq_zero_iff_le.mp hi.1) hge
      exact ⟨base, hlast ▸ (some.inj hi.2).symm⟩
  | push item =>
    cases hstep
    exact ⟨append_assoc .. ▸ h.perm.append_right [item], h.number, h.jobs⟩
  | tryPop idx =>
    by_cases hne : s.nextExec = []
    · rw [Requests.step, if_pos hne] at hstep
      cases hstep
      exact h
    · obtain ⟨item, hitem, -, rfl⟩ := tryPop_cases hne hstep
      exact ⟨h.perm.trans (append_assoc .. ▸ hitem.append_left _), h.number, h.jobs⟩

/-- The heap always has an item to return. -/
theorem exists_tryPop (s : Requests T) : ∃ idx, (s.step (.tryPop idx)).isSome := by
  by_cases hne : s.nextExec = []
  · exact ⟨0, by rw [step, if_pos hne]; rfl⟩
  obtain ⟨item, hitem, hmax⟩ := Set.exists_max_image {x | x ∈ s.nextExec} (·.prio)
    (finite_toSet _) (exists_mem_of_ne_nil _ hne)
  obtain ⟨idx, hidx⟩ := mem_iff_getElem?.mp hitem
  have hnot : ¬ (s.nextExec.any fun other => greaterThan other.prio item.prio) = true := by
    simp only [List.any_eq_true, greaterThan_iff, not_exists, not_and, not_lt]
    exact hmax
  exact ⟨idx, by rw [step, if_neg hne, hidx, bind_eq_bind, bind_some, if_neg hnot]; rfl⟩

end Requests

end Sect.Fuzzer
