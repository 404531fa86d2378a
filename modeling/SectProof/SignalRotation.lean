import SectProof.ManagerServer

/-! # Rotation of the signal

`selectInputs` of the RPC server forgets the signal of the programs that it drops
and, by `Split`, "also 10% of the remaining signal".  The number of elements to
split off may be 0, and then `Split` takes everything.
-/

open List PrioMap

namespace Sect.Fuzzer.Signal

/-- The number of elements that the loop of `Split` moves. -/
def taken (n len : Nat) : Nat := if n = 0 then len else min n len

theorem size_splitLoop : ∀ {l : List (UInt32 × Int8)} {n : Nat} {s c : Signal},
    (l.map Prod.fst).Nodup → (∀ e ∈ l, e.1 ∈ s ∧ e.1 ∉ c) →
      (splitLoop l n s c).1.size = s.size - taken n l.length ∧
        (splitLoop l n s c).2.size = c.size + taken n l.length
  | [], n, s, c, _, _ => by simp [splitLoop, taken]
  | (e, p) :: rest, n, s, c, hnodup, hl => by
    obtain ⟨hnew, hnodup⟩ := nodup_cons.mp hnodup
    obtain ⟨hs : e ∈ s, hc : e ∉ c⟩ := hl (e, p) mem_cons_self
    have hrest : (s.erase e).size = s.size - 1 ∧ (c.insert e p).size = c.size + 1 := by
      simp [Std.ExtTreeMap.size_erase, Std.ExtTreeMap.size_insert, hs, hc]
    rw [splitLoop]
    split_ifs with hn
    · simp [hrest, hn, taken]
    have ih := size_splitLoop hnodup (n := n - 1) (s := s.erase e) (c := c.insert e p)
      fun d hd => by
        have hne : e ≠ d.1 := by
          rintro rfl
          exact hnew (mem_map.mpr ⟨d, hd, rfl⟩)
        have hd := hl d (mem_cons_of_mem _ hd)
        simp [hd, hne]
    rw [ih.1, ih.2, hrest.1, hrest.2]
    simp only [taken, length_cons]
    split_ifs <;> omega

theorem size_split (order : RangeOrder) (n : Nat) (s : Signal) :
    (s.split order n).1.size = s.size - taken n s.size ∧
      (s.split order n).2.size = taken n s.size := by
  have hlen : (order.list s).length = s.size := by
    rw [(order.perm s).length_eq, Std.ExtTreeMap.length_toList]
  have h := size_splitLoop (n := n) (s := s) (c := ∅)
    (((order.perm s).map Prod.fst).nodup_iff.mpr (nodup_keys_toList s)) fun e he => by
      have := Std.ExtTreeMap.mem_toList_iff_getElem?_eq_some.mp ((order.perm s).mem_iff.mp he)
      exact ⟨Std.ExtTreeMap.mem_iff_isSome_getElem?.mpr (by rw [this]; rfl), by simp⟩
  rw [hlen] at h
  simpa [split] using h

/-- `Split` returns a part of the asked size, and the rest stays. -/
def SplitsExactly (order : RangeOrder) (n : Nat) (s : Signal) : Prop :=
  (s.split order n).2.size = min n s.size ∧ Parted s (s.split order n).1 (s.split order n).2

theorem splitsExactly_iff (order : RangeOrder) (n : Nat) (s : Signal) :
    SplitsExactly order n s ↔ 1 ≤ n ∨ s.size = 0 := by
  rw [SplitsExactly, and_iff_left (parted_split order n s), (size_split order n s).2, taken]
  split_ifs <;> omega

end Sect.Fuzzer.Signal

namespace Sect.Rpc
open Sect.Fuzzer (Signal)

variable {P H : Type}

/-- The elements of a signal that belong to none of the dropped programs. -/
def spared (dropped : List (Input P)) (signal : Signal) : Signal :=
  signal.filter fun e _ => ∀ inp ∈ dropped, e ∉ inp.signal.map Prod.fst

theorem prio_spared (dropped : List (Input P)) (signal : Signal) (e : UInt32) :
    (spared dropped signal).prio e =
      if ∀ inp ∈ dropped, e ∉ inp.signal.map Prod.fst then signal.prio e else ⊥ :=
  prio_filter signal (fun e _ => ∀ inp ∈ dropped, e ∉ inp.signal.map Prod.fst) e

theorem spared_nil (signal : Signal) : spared ([] : List (Input P)) signal = signal :=
  ext_prio fun e => by simp [prio_spared]

theorem spared_cons (inp : Input P) (dropped : List (Input P)) (signal : Signal) :
    spared (inp :: dropped) signal =
      spared dropped (inp.signal.foldl (fun s e => s.erase e.1) signal) := by
  have herase : ∀ (l : List (UInt32 × Int8)) (s : Signal) (k : UInt32),
      prio (l.foldl (fun s e => s.erase e.1) s) k = if k ∈ l.map Prod.fst then ⊥ else s.prio k := by
    intro l
    induction l with
    | nil => simp
    | cons x l ih =>
      intro s k
      rw [foldl_cons, ih, prio_erase]
      by_cases hk : k ∈ l.map Prod.fst <;> by_cases hx : k = x.1 <;> simp [hk, hx]
  refine ext_prio fun e => ?_
  rw [prio_spared, prio_spared, herase]
  by_cases he : e ∈ inp.signal.map Prod.fst
  · rw [if_neg fun h => h inp mem_cons_self he, if_pos he, ite_self]
  · simp only [forall_mem_cons, he, not_false_eq_true, true_and, if_false]

/-- **The loop of `selectInputs` divides the programs into those it returns and those
it drops, and keeps the signal that the latter do not have.** -/
theorem selectInputs_eq (T : Target P H) (selected : List String) {inputs : List (Input P)} :
    ∀ {drops signal kept left}, Server.selectInputs T selected drops inputs signal =
      some (kept, left) → ∃ dropped, inputs.Perm (kept ++ dropped) ∧ left = spared dropped signal := by
  induction inputs with
  | nil =>
    intro drops signal kept left h
    cases h
    exact ⟨[], .nil, (spared_nil signal).symm⟩
  | cons inp rest ih =>
    intro drops signal kept left h
    have hdrop : ∀ {ds}, Server.selectInputs T selected ds rest
        (inp.signal.foldl (fun s e => s.erase e.1) signal) = some (kept, left) →
        ∃ dropped, (inp :: rest).Perm (kept ++ dropped) ∧ left = spared dropped signal := by
      intro ds h
      obtain ⟨dropped, hperm, heq⟩ := ih h
      exact ⟨inp :: dropped, (hperm.cons inp).trans perm_middle.symm,
        heq.trans (spared_cons ..).symm⟩
    obtain ⟨calls, _, h⟩ := Option.bind_eq_some_iff.mp h
    split_ifs at h
    · exact hdrop h
    · obtain ⟨r, hrest, heq⟩ := Option.map_eq_some_iff.mp h
      obtain ⟨dropped, hperm, hleft⟩ := ih hrest
      cases heq
      exact ⟨dropped, hperm.cons inp, hleft⟩
    · exact hdrop h

/-- The signal that `selectInputs` returns, after its call of `Split`. -/
abbrev rotatedPart (order : Signal.RangeOrder) (signal : Signal) : Signal :=
  (signal.split order (signal.size / 10)).1

/-- `selectInputs` returns programs of the corpus and a part of the signal, in which
nothing of the other programs is left. -/
structure Selects (inputs dropped kept : List (Input P)) (signal rest : Signal) : Prop where
  programs : inputs.Perm (kept ++ dropped)
  part : ∀ e, rest.prio e = ⊥ ∨ rest.prio e = signal.prio e
  gone : ∀ inp ∈ dropped, ∀ e ∈ inp.signal, rest.prio e.1 = ⊥

/-- A signal with one element. -/
def single : Signal := (∅ : Signal).insert 1 2

theorem size_single : single.size = 1 := by
  simp [single, Std.ExtTreeMap.size_insert]

end Sect.Rpc
