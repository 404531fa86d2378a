import SectProof.CorpusCarriesSignal

/-! # Minimization in any order

`signal.Minimize` ranges over three maps: the signal of each input, the best input of
each element, and the set of indices to keep.  An element is taken from a later input
only if its priority is greater, so the best input of an element depends on no order;
the order of the indices is the order of the result. -/

open List

namespace Sect.Rpc

open PrioMap
open Sect.Fuzzer (Signal)
variable {C : Type}

/-- The orders in which `Minimize` ranges over the signal of the `i`-th input and over
the set of indices. -/
structure MinimizeOrder where
  signals : Nat → Signal.RangeOrder
  indices : Finset Nat → List Nat
  nodup : ∀ s, (indices s).Nodup
  mem : ∀ s i, i ∈ indices s ↔ i ∈ s

/-- `coverInputs`, with the elements of an input in the given order. -/
def coverInputsIn (order : MinimizeOrder) : Nat → List (Signal × C) → Covered → Covered
  | _, [], covered => covered
  | i, inp :: rest, covered =>
    coverInputsIn order (i + 1) rest
      (((order.signals i).list inp.1).foldl (coverElem i) covered)

/-- The indices of the inputs that are best for some element. -/
def coveringIndices (order : MinimizeOrder) (corpus : List (Signal × C)) : Finset Nat :=
  ((coverInputsIn order 0 corpus ∅).toList.map fun cp => cp.2.2).toFinset

/-- `signal.Minimize`. -/
def minimizeIn (order : MinimizeOrder) (corpus : List (Signal × C)) : List C :=
  (order.indices (coveringIndices order corpus)).filterMap fun idx => corpus[idx]?.map Prod.snd

theorem getElem?_coverElem (i : Nat) (covered : Covered) (d : UInt32 × Int8) (k : UInt32) :
    (coverElem i covered d)[k]? = if d.1 = k then
      (if covered.best.prio d.1 < d.2 then some (d.2, i) else covered[d.1]?) else covered[k]? := by
  rw [coverElem_eq]
  by_cases heq : d.1 = k
  · split <;> simp_all
  · split
    · rw [Std.ExtTreeMap.getElem?_insert,
        if_neg fun h => heq (Std.LawfulEqOrd.compare_eq_iff_eq.mp h)]
    · rfl

/-- Elements of one signal can be covered in either order. -/
theorem coverElem_comm {s : Signal} {d d' : UInt32 × Int8} (hd : d ∈ s.toList)
    (hd' : d' ∈ s.toList) (i : Nat) (covered : Covered) :
    coverElem i (coverElem i covered d) d' = coverElem i (coverElem i covered d') d := by
  by_cases heq : d.1 = d'.1
  · have hprio := prio_of_mem_toList hd
    rw [heq, prio_of_mem_toList hd'] at hprio
    rw [Prod.ext heq (WithBot.coe_inj.mp hprio).symm]
  refine Std.ExtTreeMap.ext_getElem? fun k => ?_
  have hprio : ∀ {d d' : UInt32 × Int8}, d.1 ≠ d'.1 →
      (coverElem i covered d).best.prio d'.1 = covered.best.prio d'.1 := by
    intro d d' hne
    rw [Covered.prio_best, getElem?_coverElem, if_neg hne, ← Covered.prio_best]
  simp only [getElem?_coverElem, hprio heq, hprio (Ne.symm heq)]
  grind

theorem coverInputsIn_eq (order : MinimizeOrder) (i : Nat) (inputs : List (Signal × C))
    (covered : Covered) : coverInputsIn order i inputs covered = coverInputs i inputs covered := by
  induction inputs generalizing i covered with
  | nil => rfl
  | cons inp rest ih =>
    have hperm := (order.signals i).perm inp.1
    rw [coverInputsIn, coverInputs, ih, hperm.foldl_eq' fun d hd d' hd' covered =>
      coverElem_comm (hperm.mem_iff.mp hd) (hperm.mem_iff.mp hd') i covered]

theorem filterMap_range_getElem? {A : Type} (l : List A) :
    (range l.length).filterMap (fun i => l[i]?) = l := by
  induction l with
  | nil => rfl
  | cons a l ih =>
    rw [length_cons, range_succ_eq_map, filterMap_cons, filterMap_map, getElem?_cons_zero]
    exact congrArg _ ih

/-- Distinct indices pick distinct members. -/
theorem filterMap_getElem?_subperm {A : Type} {ids : List Nat} (h : ids.Nodup) (l : List A) :
    ids.filterMap (fun i => l[i]?) <+~ l := by
  have hfilter : ids.filterMap (fun i => l[i]?) =
      (ids.filter (· < l.length)).filterMap (fun i => l[i]?) := by
    rw [filterMap_filter]
    refine filterMap_congr fun i _ => ?_
    split
    · rfl
    · exact getElem?_eq_none (Nat.le_of_not_lt fun hi => absurd (decide_eq_true hi) ‹_›)
  obtain ⟨l', hperm, hsub⟩ := (h.filter (· < l.length)).subperm fun i hi =>
    mem_range.mpr (of_decide_eq_true (mem_filter.mp hi).2)
  rw [hfilter]
  refine ⟨l'.filterMap (fun i => l[i]?), hperm.filterMap _, ?_⟩
  have hall := hsub.filterMap (fun i => l[i]?)
  rwa [filterMap_range_getElem?] at hall

/-- **Minimization loses no signal**: of distinct inputs it keeps, one has every element
with its greatest priority; and it keeps the same ones in every order. -/
theorem minimizeIn_keeps_signal (order order' : MinimizeOrder) (corpus : List (Signal × C)) :
    (∃ kept, kept <+~ corpus ∧ minimizeIn order corpus = kept.map Prod.snd ∧
      ∀ inp ∈ corpus, ∀ (e : UInt32) (p : Int8), inp.1[e]? = some p → ∃ inp' ∈ kept, ∃ q : Int8,
        inp'.1[e]? = some q ∧ ∀ other ∈ corpus, ∀ r, other.1[e]? = some r → r ≤ q) ∧
      minimizeIn order corpus ~ minimizeIn order' corpus := by
  have hsame : coveringIndices order corpus = coveringIndices order' corpus := by
    rw [coveringIndices, coveringIndices, coverInputsIn_eq, coverInputsIn_eq]
  refine ⟨⟨(order.indices (coveringIndices order corpus)).filterMap (corpus[·]?), ?_, ?_, ?_⟩, ?_⟩
  · exact filterMap_getElem?_subperm (order.nodup _) corpus
  · rw [minimizeIn, map_filterMap]
  · intro inp hinp e p hp
    have hle := le_sup (mem_map_of_mem (f := Prod.fst) hinp) e
    rw [prio_of_some hp] at hle
    rcases coverInputs_best corpus e with hbot | ⟨c, best, hc, hbest, hprio⟩
    · rw [hbot] at hle
      exact absurd hle (WithBot.not_coe_le_bot p)
    obtain ⟨q, hq⟩ := WithBot.ne_bot_iff_exists.mp
      (ne_bot_of_le_ne_bot (WithBot.coe_ne_bot) hle)
    rw [← hq] at hprio
    refine ⟨best, mem_filterMap.mpr ⟨c.2, (order.mem _ _).mpr ?_, hbest⟩, q,
      prio_eq_coe.mp hprio, fun other hother r hr => ?_⟩
    · rw [coveringIndices, coverInputsIn_eq, mem_toFinset]
      exact mem_map.mpr ⟨(e, c), hc, rfl⟩
    · have hr' := le_sup (mem_map_of_mem (f := Prod.fst) hother) e
      rw [prio_of_some hr, ← hq] at hr'
      exact WithBot.coe_le_coe.mp hr'
  · rw [minimizeIn, minimizeIn, hsame]
    have hids : ∀ s, order.indices s ~ order'.indices s := fun s =>
      (perm_ext_iff_of_nodup (order.nodup s) (order'.nodup s)).mpr fun i => by
        rw [order.mem, order'.mem]
    exact (hids _).filterMap _

end Sect.Rpc
