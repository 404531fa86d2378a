import SectProof.PriorityMaps

/-! # Feedback signals

`pkg/signal/signal.go`: a signal is a map from coverage elements to the priority
with which they were seen.  The operations are stated at an element, in the
order of priorities with `⊥` for an element that is absent.
-/

namespace Sect.Fuzzer

open PrioMap

instance instLinearOrderInt8 : LinearOrder Int8 where
  le_refl := Int8.le_refl
  le_trans := fun _ _ _ => Int8.le_trans
  lt_iff_le_not_ge := fun a b => by
    rw [Int8.not_le]
    exact ⟨fun h => ⟨Int8.le_of_lt h, h⟩, fun h => h.2⟩
  le_antisymm := fun _ _ => Int8.le_antisymm
  le_total := Int8.le_total
  toDecidableLE := inferInstance

/-- `signal.Signal`; a nil map is an empty one. -/
abbrev Signal := PrioMap UInt32 Int8

namespace Signal

/-- `FromRaw`. -/
def fromRaw (raw : List UInt32) (prio : UInt8) : Signal :=
  raw.foldl (fun s e => s.insert e prio.toInt8) ∅

/-- `DiffRaw`: the elements that `s` does not have with this priority yet. -/
def diffRaw (s : Signal) (raw : List UInt32) (prio : UInt8) : Signal :=
  raw.foldl (fun res e =>
    if (s[e]?).any (prio.toInt8 ≤ ·) then res else res.insert e prio.toInt8) ∅

/-- `Intersection`. -/
def intersection (s s1 : Signal) : Signal := if s1.isEmpty then ∅ else s.inter s1

/-- `Merge`. -/
def merge (s s1 : Signal) : Signal := if s1.isEmpty then s else PrioMap.merge s s1

/-- `Diff`. -/
def diff (s s1 : Signal) : Signal := PrioMap.news s s1

/-- `Deserialize`, from the elements of a `Serial` with their priorities; of an
element that occurs twice the last priority stays. -/
def deserialize (ser : List (UInt32 × Int8)) : Signal :=
  ser.foldl (fun s e => s.insert e.1 e.2) ∅

/-- An order in which a loop over a signal visits its elements. -/
structure RangeOrder where
  list : Signal → List (UInt32 × Int8)
  perm : ∀ s, (list s).Perm s.toList

/-- `Serialize`. -/
def serialize (order : RangeOrder) (s : Signal) : List (UInt32 × Int8) := order.list s

/-- The loop of `Split`: the remaining elements and those split off.  A negative
count never becomes 0, so a loop that starts with 0 takes everything. -/
def splitLoop : List (UInt32 × Int8) → Nat → Signal → Signal → Signal × Signal
  | [], _, s, c => (s, c)
  | (e, p) :: rest, n, s, c =>
    if n = 1 then (s.erase e, c.insert e p)
    else splitLoop rest (n - 1) (s.erase e) (c.insert e p)

/-- `Split`. -/
def split (order : RangeOrder) (n : Nat) (s : Signal) : Signal × Signal :=
  splitLoop (order.list s) n s ∅

/-- The test of `DiffRaw`. -/
theorem any_le_iff {s : Signal} {e : UInt32} {p : Int8} :
    (s[e]?).any (p ≤ ·) = true ↔ (p : WithBot Int8) ≤ s.prio e := by
  cases h : s[e]? with
  | none => simp [prio_of_none h]
  | some q => simp [prio_of_some h]

/-- **`DiffRaw` returns exactly the raw elements that are improved.** -/
theorem prio_diffRaw (s : Signal) (raw : List UInt32) (prio : UInt8) (e : UInt32) :
    (s.diffRaw raw prio).prio e =
      if e ∈ raw ∧ s.prio e < prio.toInt8 then (prio.toInt8 : WithBot Int8) else ⊥ := by
  have hfold : ∀ (l : List UInt32) (res : Signal),
      PrioMap.prio (l.foldl (fun res e =>
        if (s[e]?).any (prio.toInt8 ≤ ·) then res else res.insert e prio.toInt8) res) e =
        if e ∈ l ∧ s.prio e < prio.toInt8 then (prio.toInt8 : WithBot Int8) else res.prio e := by
    intro l
    induction l with
    | nil =>
      intro res
      rfl
    | cons x l ih =>
      intro res
      rw [List.foldl_cons, ih]
      by_cases hl : e ∈ l ∧ s.prio e < prio.toInt8
      · rw [if_pos hl, if_pos ⟨List.mem_cons_of_mem _ hl.1, hl.2⟩]
      rw [if_neg hl]
      by_cases hx : e = x
      · subst hx
        by_cases hle : (prio.toInt8 : WithBot Int8) ≤ s.prio e
        · rw [if_pos (any_le_iff.mpr hle), if_neg fun h => (not_lt.mpr hle) h.2]
        · rw [if_neg fun h => hle (any_le_iff.mp h), prio_insert, if_pos rfl,
            if_pos ⟨List.mem_cons_self, not_le.mp hle⟩]
      · have hcons : ¬ (e ∈ x :: l ∧ s.prio e < prio.toInt8) := fun h =>
          hl ⟨(List.mem_cons.mp h.1).resolve_left hx, h.2⟩
        rw [if_neg hcons]
        by_cases hle : (s[x]?).any (prio.toInt8 ≤ ·) = true
        · rw [if_pos hle]
        · rw [if_neg hle, prio_insert, if_neg hx]
  exact (hfold raw ∅).trans (by rw [prio_empty])

@[simp] theorem prio_merge (s s1 : Signal) (e : UInt32) :
    (s.merge s1).prio e = s.prio e ⊔ s1.prio e := by
  unfold merge
  split_ifs with h
  · rw [isEmpty_iff.mp h e, sup_bot_eq]
  · rw [PrioMap.prio_merge]

theorem prio_diff (s s1 : Signal) (e : UInt32) :
    (s.diff s1).prio e = if s.prio e < s1.prio e then s1.prio e else ⊥ := by
  rw [diff]
  convert prio_news s s1 e

/-- **Merging what is new is merging everything.** -/
theorem prio_merge_diff (s s1 : Signal) (e : UInt32) :
    s.prio e ⊔ (s.diff s1).prio e = s.prio e ⊔ s1.prio e := by
  rw [prio_diff]
  by_cases hlt : s.prio e < s1.prio e
  · rw [if_pos hlt]
  · rw [if_neg hlt, sup_bot_eq, sup_eq_left.mpr (not_lt.mp hlt)]

/-- What is sent is what arrives. -/
theorem deserialize_serialize (order : RangeOrder) (s : Signal) :
    deserialize (s.serialize order) = s :=
  foldl_insert_of_perm (order.perm s)

theorem parted_splitLoop {s0 : Signal} : ∀ {l : List (UInt32 × Int8)} {n : Nat} {s c : Signal},
    (∀ e ∈ l, s0.prio e.1 = e.2) → PrioMap.Parted s0 s c →
      PrioMap.Parted s0 (splitLoop l n s c).1 (splitLoop l n s c).2
  | [], _, _, _, _, hparted => hparted
  | (e, p) :: rest, n, s, c, hl, hparted => by
    have hmoved := hparted.move (hl (e, p) List.mem_cons_self)
    rw [splitLoop]
    split_ifs with hn
    · exact hmoved
    · exact parted_splitLoop (fun d hd => hl d (List.mem_cons_of_mem _ hd)) hmoved

/-- **`Split` distributes the elements over two signals.** -/
theorem parted_split (order : RangeOrder) (n : Nat) (s : Signal) :
    PrioMap.Parted s (s.split order n).1 (s.split order n).2 :=
  parted_splitLoop (fun _ he => prio_of_mem_toList ((order.perm s).mem_iff.mp he))
    fun e => Or.inl ⟨rfl, prio_empty e⟩

theorem intersection_eq (s s1 : Signal) : s.intersection s1 = s.inter s1 := by
  unfold intersection
  by_cases h : s1.isEmpty = true
  · rw [if_pos h]
    refine ext_prio fun e => ?_
    rw [prio_inter, isEmpty_iff.mp h e, prio_empty]
    by_cases hle : s.prio e ≤ ⊥
    · rw [if_pos hle, le_bot_iff.mp hle]
    · rw [if_neg hle]
  · rw [if_neg h]

/-- **An element survives an intersection if the other signal has it with at least
its priority.** -/
theorem prio_intersection_eq_coe {s s1 : Signal} {e : UInt32} {p : Int8} :
    (s.intersection s1).prio e = p ↔ s.prio e = p ∧ p ≤ s1.prio e := by
  rw [intersection_eq]
  exact prio_inter_eq_coe

end Signal

end Sect.Fuzzer
