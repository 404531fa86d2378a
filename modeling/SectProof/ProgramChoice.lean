import SectProof.CorpusSignals

/-! # The choice of a program to mutate

`Save` accumulates the priorities of the stored programs, and `chooseProgram` looks a
random value up among them.  The value is drawn from `0` to the sum, both included, so
there is one more value than the sum: it goes to the first program. -/

open List Nat

namespace Sect.Fuzzer.Corpus
variable {P S : Type} [DecidableEq S]

/-- The arguments of a call of `Save`. -/
structure SaveCall (P S : Type) where
  prog : P
  signal : Signal
  sig : S

def saveAll (c : Corpus P S) (calls : List (SaveCall P S)) : Corpus P S :=
  calls.foldl (fun c call => c.save call.prog call.signal call.sig) c

/-- The calls that store their program: those with a new hash. -/
def storing (hashes : Finset S) : List (SaveCall P S) → List (SaveCall P S)
  | [] => []
  | call :: calls =>
    if call.sig ∈ hashes then storing hashes calls
    else call :: storing (insert call.sig hashes) calls

/-- The priorities of the programs that `calls` store. -/
def prios (calls : List (SaveCall P S)) : List Nat := calls.map fun call => max 1 call.signal.size

/-- The sums of the first priorities, on top of `sum`. -/
def accumulate : Nat → List Nat → List Nat
  | _, [] => []
  | sum, prio :: prios => (sum + prio) :: accumulate (sum + prio) prios

theorem length_accumulate (sum : Nat) (prios : List Nat) :
    (accumulate sum prios).length = prios.length := by
  induction prios generalizing sum with
  | nil => rfl
  | cons prio prios ih => rw [accumulate, length_cons, ih, length_cons]

theorem getElem?_accumulate {sum i : Nat} {prios : List Nat} (hi : i < prios.length) :
    (accumulate sum prios)[i]? = some (sum + (prios.take (i + 1)).sum) := by
  induction prios generalizing sum i with
  | nil => cases hi
  | cons prio prios ih =>
    cases i with
    | zero => simp [accumulate]
    | succ i =>
      rw [accumulate, getElem?_cons_succ, ih (lt_of_succ_lt_succ hi), take_succ_cons, sum_cons,
        add_assoc]

theorem savePrio_eq (signal : Signal) : savePrio signal = max 1 signal.size := by
  rw [savePrio]
  split <;> omega

/-- What a sequence of `Save` calls stores. -/
theorem saveAll_stores (calls : List (SaveCall P S)) (c : Corpus P S) :
    (c.saveAll calls).progs = c.progs ++ (storing c.hashes calls).map SaveCall.prog ∧
      (c.saveAll calls).sumPrios = c.sumPrios + (prios (storing c.hashes calls)).sum ∧
      (c.saveAll calls).accPrios =
        c.accPrios ++ accumulate c.sumPrios (prios (storing c.hashes calls)) := by
  induction calls generalizing c with
  | nil => exact ⟨(append_nil _).symm, rfl, (append_nil _).symm⟩
  | cons call calls ih =>
    obtain ⟨hprogs, hsum, hacc⟩ := ih (c.save call.prog call.signal call.sig)
    rw [saveAll, foldl_cons, ← saveAll, hprogs, hsum, hacc, storing]
    by_cases hsig : call.sig ∈ c.hashes
    · simp only [save, store, if_pos hsig, and_self]
    · simp only [save, store, if_neg hsig, savePrio_eq, map_cons, prios, sum_cons, accumulate,
        append_assoc, singleton_append, add_assoc, and_self]

theorem sum_take_mono (prios : List Nat) {i j : Nat} (h : i ≤ j) :
    (prios.take i).sum ≤ (prios.take j).sum := by
  rw [← Nat.add_sub_cancel' h, take_add, List.sum_append]
  exact Nat.le_add_right _ _

section Draws
variable {c : Corpus P S} {ps : List Nat} {i : Nat} (hsum : c.sumPrios = ps.sum)
  (hacc : c.accPrios = accumulate 0 ps) (hi : i < ps.length)
include hsum hacc hi

omit [DecidableEq S] in
/-- The index is the first one whose accumulated priority reaches the value. -/
theorem chooseIndex_eq_iff {v : Nat} (hv : v ≤ ps.sum) :
    c.chooseIndex v = i ↔ v ≤ (ps.take (i + 1)).sum ∧ ∀ k < i, (ps.take (k + 1)).sum < v := by
  rw [chooseIndex, hsum, mod_eq_of_lt (lt_succ_of_le hv), hacc, length_accumulate]
  generalize hf : (fun k : Nat => ((accumulate 0 ps)[k]?).any (v ≤ ·)) = f
  have hreach : ∀ {k}, k < ps.length → (f k = true ↔ v ≤ (ps.take (k + 1)).sum) := by
    intro k hk
    rw [← hf]
    dsimp only
    rw [getElem?_accumulate hk, Option.any_some, decide_eq_true_iff, zero_add]
  obtain ⟨-, hbefore, hfrom⟩ := sortSearch_spec (n := ps.length) (f := f)
    fun a b hab hb ha => (hreach hb).mpr (((hreach (lt_of_le_of_lt hab hb)).mp ha).trans
      (sum_take_mono _ (succ_le_succ hab)))
  constructor
  · rintro rfl
    refine ⟨(hreach hi).mp (hfrom _ (le_refl _) hi), fun k hk => ?_⟩
    rw [← not_le, ← hreach (hk.trans hi), hbefore k hk]
    exact Bool.false_ne_true
  · rintro ⟨hle, hlt⟩
    refine Nat.le_antisymm (Nat.le_of_not_lt fun hgt => ?_) (Nat.le_of_not_lt fun hgt => ?_)
    · have hnot := hbefore i hgt
      rw [(hreach hi).mpr hle] at hnot
      cases hnot
    · have hk := hfrom _ (Nat.le_refl _) (hgt.trans hi)
      exact absurd ((hreach (hgt.trans hi)).mp hk) (Nat.not_le.mpr (hlt _ hgt))

omit [DecidableEq S] in
/-- The values from one accumulated priority to the next. -/
theorem card_chooseIndex :
    ((Finset.range (c.sumPrios + 1)).filter fun v => c.chooseIndex v = i).card =
      ps.get ⟨i, hi⟩ + if i = 0 then 1 else 0 := by
  have hle : (ps.take (i + 1)).sum ≤ ps.sum :=
    (take_sublist _ _).sum_le_sum fun _ _ => zero_le _
  have hlast : (ps.take (i + 1)).sum = (ps.take i).sum + ps.get ⟨i, hi⟩ := by
    rw [take_succ_eq_append_getElem hi, List.sum_append, sum_singleton]
    rfl
  have hmem : ∀ v, (v ∈ (Finset.range (c.sumPrios + 1)).filter fun v => c.chooseIndex v = i) ↔
      v ≤ (ps.take (i + 1)).sum ∧ ∀ k < i, (ps.take (k + 1)).sum < v := by
    intro v
    rw [Finset.mem_filter, Finset.mem_range, hsum, Nat.lt_succ_iff]
    constructor
    · exact fun h => (chooseIndex_eq_iff hsum hacc hi h.1).mp h.2
    · exact fun h => ⟨h.1.trans hle, (chooseIndex_eq_iff hsum hacc hi (h.1.trans hle)).mpr h⟩
  cases i with
  | zero =>
    have hset : ((Finset.range (c.sumPrios + 1)).filter fun v => c.chooseIndex v = 0) =
        Finset.range (ps.get ⟨0, hi⟩ + 1) := by
      ext v
      rw [hmem, hlast, Finset.mem_range, Nat.lt_succ_iff, take_zero, sum_nil, Nat.zero_add]
      exact and_iff_left fun k hk => absurd hk (not_lt_zero k)
    rw [hset, Finset.card_range, if_pos rfl]
  | succ i =>
    have hset : ((Finset.range (c.sumPrios + 1)).filter fun v => c.chooseIndex v = i + 1) =
        Finset.Ioc (ps.take (i + 1)).sum ((ps.take (i + 1)).sum + ps.get ⟨i + 1, hi⟩) := by
      ext v
      rw [hmem, hlast, Finset.mem_Ioc, and_comm]
      refine and_congr_left fun _ => ⟨fun h => h i (lt_succ_self i), fun h k hk => ?_⟩
      exact lt_of_le_of_lt (sum_take_mono ps hk) h
    rw [hset, card_Ioc, if_neg (succ_ne_zero i)]
    omega

end Draws

end Sect.Fuzzer.Corpus
