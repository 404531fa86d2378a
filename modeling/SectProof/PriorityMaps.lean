import Mathlib

/-! # Maps from keys to priorities

A finite map to a linear order is read pointwise: a key that is absent has the
priority `⊥`.  Merging two maps takes the pointwise maximum, and intersecting a
map with another keeps the keys to which the other gives at least the same
priority.  The lemmas say what each operation does at a key, so a client
reasons in the lattice `WithBot P` and never about entries.
-/

open List Std.ExtTreeMap

/-- A finite map from keys to priorities. -/
abbrev PrioMap (K P : Type) [Ord K] := Std.ExtTreeMap K P

namespace PrioMap

variable {K P : Type} [Ord K] [Std.TransOrd K]

/-- The priority of a key. -/
def prio (m : PrioMap K P) (k : K) : WithBot P := (m[k]?).elim ⊥ (↑)

variable {m n : PrioMap K P} {k : K} {p : P} {l : List (K × P)}

theorem prio_of_some (h : m[k]? = some p) : m.prio k = p := by
  rw [prio, h, Option.elim_some]

theorem prio_of_none (h : m[k]? = none) : m.prio k = ⊥ := by
  rw [prio, h, Option.elim_none]

theorem prio_eq_coe : m.prio k = p ↔ m[k]? = some p := by
  cases h : m[k]? with
  | none => simp [prio_of_none h]
  | some q => simp [prio_of_some h]

theorem prio_eq_bot : m.prio k = ⊥ ↔ m[k]? = none := by
  cases h : m[k]? with
  | none => simp [prio_of_none h]
  | some q => simp [prio_of_some h]

@[simp] theorem prio_empty (k : K) : prio (∅ : PrioMap K P) k = ⊥ :=
  prio_of_none getElem?_empty

variable [Std.LawfulEqOrd K]

theorem ext_prio (h : ∀ k, m.prio k = n.prio k) : m = n := by
  refine ext_getElem? fun k => ?_
  cases hn : n[k]? with
  | none => exact prio_eq_bot.mp ((h k).trans (prio_of_none hn))
  | some p => exact prio_eq_coe.mp ((h k).trans (prio_of_some hn))

theorem prio_insert [DecidableEq K] (m : PrioMap K P) (k j : K) (p : P) :
    prio (m.insert k p) j = if j = k then (p : WithBot P) else m.prio j := by
  by_cases h : j = k
  · subst h
    rw [if_pos rfl]
    exact prio_of_some getElem?_insert_self
  · have hcmp : ¬ compare k j = .eq := fun hcmp => h (Std.LawfulEqOrd.compare_eq_iff_eq.mp hcmp).symm
    rw [if_neg h, prio, Std.ExtTreeMap.getElem?_insert, if_neg hcmp]
    rfl

theorem prio_erase [DecidableEq K] (m : PrioMap K P) (k j : K) :
    prio (m.erase k) j = if j = k then ⊥ else m.prio j := by
  by_cases h : j = k
  · subst h
    rw [if_pos rfl]
    exact prio_of_none getElem?_erase_self
  · have hcmp : ¬ compare k j = .eq := fun hcmp => h (Std.LawfulEqOrd.compare_eq_iff_eq.mp hcmp).symm
    rw [if_neg h, prio, getElem?_erase, if_neg hcmp]
    rfl

theorem nodup_keys_toList (m : PrioMap K P) : (m.toList.map Prod.fst).Nodup := by
  refine pairwise_map.mpr (distinct_keys_toList.imp fun hcmp heq => hcmp ?_)
  rw [heq]
  exact Std.ReflCmp.compare_self

variable {e : K × P} {rest part : PrioMap K P} {ms : List (PrioMap K P)}

theorem prio_of_mem_toList (h : e ∈ m.toList) : m.prio e.1 = e.2 :=
  prio_of_some (mem_toList_iff_getElem?_eq_some.mp h)

theorem prio_foldl_insert_of_notMem [DecidableEq K] (h : k ∉ l.map Prod.fst) (m : PrioMap K P) :
    prio (l.foldl (fun m e => m.insert e.1 e.2) m) k = m.prio k := by
  induction l generalizing m with
  | nil => rfl
  | cons e l ih =>
    rw [map_cons, mem_cons, not_or] at h
    rw [foldl_cons, ih h.2, prio_insert, if_neg h.1]

/-- Inserting entries with distinct keys gives every key its entry. -/
theorem prio_foldl_insert_of_mem [DecidableEq K] (hnodup : (l.map Prod.fst).Nodup) (h : e ∈ l)
    (m : PrioMap K P) : prio (l.foldl (fun m e => m.insert e.1 e.2) m) e.1 = e.2 := by
  induction l generalizing m with
  | nil => cases h
  | cons d l ih =>
    rw [map_cons, nodup_cons] at hnodup
    rw [foldl_cons]
    rcases mem_cons.mp h with rfl | hmem
    · rw [prio_foldl_insert_of_notMem hnodup.1, prio_insert, if_pos rfl]
    · exact ih hnodup.2 hmem _

/-- A map is what is filled from its entries, in any order. -/
theorem foldl_insert_of_perm [DecidableEq K] (h : l.Perm m.toList) :
    l.foldl (fun m e => m.insert e.1 e.2) (∅ : PrioMap K P) = m := by
  have hnodup : (l.map Prod.fst).Nodup :=
    (h.map Prod.fst).nodup_iff.mpr (nodup_keys_toList m)
  refine ext_prio fun k => ?_
  cases hk : m[k]? with
  | none =>
    have hnotMem : k ∉ l.map Prod.fst := by
      intro hmem
      obtain ⟨e, he, rfl⟩ := mem_map.mp hmem
      have hsome := prio_of_mem_toList (h.mem_iff.mp he)
      rw [prio_of_none hk] at hsome
      exact absurd hsome WithBot.bot_ne_coe
    rw [prio_foldl_insert_of_notMem hnotMem, prio_empty, prio_of_none hk]
  | some p =>
    have hmem : (k, p) ∈ l :=
      h.mem_iff.mpr (mem_toList_iff_getElem?_eq_some.mpr hk)
    rw [prio_of_some hk]
    exact prio_foldl_insert_of_mem hnodup hmem ∅

/-- Every key is in one of two parts of a map, with its priority. -/
def Parted (m rest part : PrioMap K P) : Prop :=
  ∀ k, (rest.prio k = m.prio k ∧ part.prio k = ⊥) ∨ (rest.prio k = ⊥ ∧ part.prio k = m.prio k)

/-- Moving an entry of the map from one part to the other. -/
theorem Parted.move [DecidableEq K] (h : Parted m rest part) (hk : m.prio k = p) :
    Parted m (rest.erase k) (part.insert k p) := by
  intro j
  rw [prio_erase, prio_insert]
  by_cases hj : j = k
  · rw [if_pos hj, if_pos hj, hj]
    exact .inr ⟨rfl, hk.symm⟩
  · rw [if_neg hj, if_neg hj]
    exact h j

/-- A map is empty if no key has a priority. -/
theorem isEmpty_iff : m.isEmpty = true ↔ ∀ k, m.prio k = ⊥ := by
  rw [Std.ExtTreeMap.isEmpty_iff]
  constructor
  · rintro rfl k
    exact prio_empty k
  · intro h
    exact ext_prio fun k => (h k).trans (prio_empty k).symm

variable [LinearOrder P]

section Merge

variable [DecidableEq K]

/-- One entry of the second map is merged into the first. -/
def raise (m : PrioMap K P) (k : K) (p : P) : PrioMap K P :=
  if m.prio k < p then m.insert k p else m

theorem prio_raise (m : PrioMap K P) (k j : K) (p : P) :
    (m.raise k p).prio j = if j = k then m.prio j ⊔ p else m.prio j := by
  unfold raise
  by_cases hlt : m.prio k < p
  · rw [if_pos hlt, prio_insert]
    by_cases hjk : j = k
    · subst hjk
      rw [if_pos rfl, if_pos rfl, sup_eq_right.mpr hlt.le]
    · rw [if_neg hjk, if_neg hjk]
  · rw [if_neg hlt]
    by_cases hjk : j = k
    · subst hjk
      rw [if_pos rfl, sup_eq_left.mpr (not_lt.mp hlt)]
    · rw [if_neg hjk]

/-- The pointwise maximum of two maps. -/
def merge (m n : PrioMap K P) : PrioMap K P := n.toList.foldl (fun m e => m.raise e.1 e.2) m

/-- Merging a list of entries: a key gets the greatest of its priorities. -/
theorem prio_foldl_raise (l : List (K × P)) (m : PrioMap K P) (k : K) :
    prio (l.foldl (fun m e => m.raise e.1 e.2) m) k =
      m.prio k ⊔ ((l.filter (·.1 = k)).map fun e => (e.2 : WithBot P)).foldr (· ⊔ ·) ⊥ := by
  induction l generalizing m with
  | nil => rw [foldl_nil, filter_nil, map_nil, foldr_nil, sup_bot_eq]
  | cons e l ih =>
    rw [foldl_cons, ih, prio_raise]
    by_cases h : e.1 = k
    · rw [if_pos h.symm, filter_cons_of_pos (by simpa using h), map_cons,
        foldr_cons, sup_assoc]
    · rw [if_neg fun hk => h hk.symm, filter_cons_of_neg (by simpa using h)]

/-- The entries of a map under one key. -/
theorem filter_toList (n : PrioMap K P) (k : K) :
    ((n.toList.filter (·.1 = k)).map fun e => (e.2 : WithBot P)).foldr (· ⊔ ·) ⊥ = n.prio k := by
  have hmem : ∀ x ∈ (n.toList.filter (·.1 = k)).map fun e => (e.2 : WithBot P), x = n.prio k := by
    intro x hx
    obtain ⟨e, he, rfl⟩ := mem_map.mp hx
    obtain ⟨hlist, hkey⟩ := mem_filter.mp he
    obtain rfl : e.1 = k := by simpa using hkey
    exact (prio_eq_coe.mpr (mem_toList_iff_getElem?_eq_some.mp hlist)).symm
  have hfold : ∀ l : List (WithBot P), (∀ x ∈ l, x = n.prio k) →
      l.foldr (· ⊔ ·) ⊥ = ⊥ ∧ l = [] ∨ l.foldr (· ⊔ ·) ⊥ = n.prio k ∧ l ≠ [] := by
    intro l hl
    induction l with
    | nil => exact .inl ⟨rfl, rfl⟩
    | cons x l ih =>
      rw [forall_mem_cons] at hl
      refine .inr ⟨?_, cons_ne_nil _ _⟩
      rw [foldr_cons, hl.1]
      rcases ih hl.2 with ⟨hbot, -⟩ | ⟨hprio, -⟩
      · rw [hbot, sup_bot_eq]
      · rw [hprio, sup_idem]
  rcases hfold _ hmem with ⟨hbot, hnil⟩ | ⟨hprio, -⟩
  · rw [hbot]
    -- without an entry the key is absent
    rw [map_eq_nil_iff, filter_eq_nil_iff] at hnil
    cases hk : n.prio k with
    | bot => rfl
    | coe p => exact absurd (by simp) (hnil (k, p)
        (mem_toList_iff_getElem?_eq_some.mpr (prio_eq_coe.mp hk)))
  · exact hprio

@[simp] theorem prio_merge (m n : PrioMap K P) (k : K) :
    (m.merge n).prio k = m.prio k ⊔ n.prio k := by
  unfold merge
  rw [prio_foldl_raise, filter_toList]

end Merge

omit [LinearOrder P] in
/-- Filtering by the key and its priority. -/
theorem prio_filter (m : PrioMap K P) (keep : K → WithBot P → Prop) [∀ k p, Decidable (keep k p)]
    (k : K) :
    prio (m.filter fun k (p : P) => keep k p) k = if keep k (m.prio k) then m.prio k else ⊥ := by
  cases hk : m[k]? with
  | none =>
    rw [prio_of_none hk, ite_self]
    exact prio_of_none (by rw [getElem?_filter', hk, Option.filter_none])
  | some p =>
    rw [prio_of_some hk]
    split_ifs with hkeep
    · exact prio_of_some (by
        rw [getElem?_filter', hk, Option.filter_some, decide_eq_true hkeep,
          if_pos rfl])
    · exact prio_of_none (by
        rw [getElem?_filter', hk, Option.filter_some, decide_eq_false hkeep,
          if_neg Bool.false_ne_true])

/-- The keys to which `n` gives at least the priority of `m`. -/
def inter (m n : PrioMap K P) : PrioMap K P := m.filter fun k p => p ≤ n.prio k

theorem prio_inter (m n : PrioMap K P) (k : K) :
    (m.inter n).prio k = if m.prio k ≤ n.prio k then m.prio k else ⊥ :=
  prio_filter m (fun k p => p ≤ n.prio k) k

/-- The entries of `n` that `m` does not have with at least their priority. -/
def news (m n : PrioMap K P) : PrioMap K P := n.filter fun k p => ¬ p ≤ m.prio k

theorem prio_news (m n : PrioMap K P) (k : K) :
    (m.news n).prio k = if m.prio k < n.prio k then n.prio k else ⊥ := by
  simp only [← not_le]
  exact prio_filter n (fun k p => ¬ p ≤ m.prio k) k

/-- Nothing is new iff the second map is pointwise below the first. -/
theorem news_isEmpty_iff : (m.news n).isEmpty = true ↔ ∀ k, n.prio k ≤ m.prio k := by
  rw [isEmpty_iff]
  refine forall_congr' fun k => ?_
  rw [prio_news]
  split_ifs with hlt
  · exact ⟨fun hbot => absurd (hbot ▸ hlt) not_lt_bot, fun hle => absurd hlt (not_lt.mpr hle)⟩
  · exact ⟨fun _ => not_lt.mp hlt, fun _ => rfl⟩

/-- A key survives an intersection with its priority if both maps allow it. -/
theorem prio_inter_eq_coe : (m.inter n).prio k = p ↔ m.prio k = p ∧ p ≤ n.prio k := by
  rw [prio_inter]
  constructor
  · intro h
    by_cases hle : m.prio k ≤ n.prio k
    · rw [if_pos hle] at h
      exact ⟨h, h ▸ hle⟩
    · rw [if_neg hle] at h
      exact absurd h (WithBot.bot_ne_coe)
  · rintro ⟨hm, hle⟩
    rw [hm, if_pos hle]

omit [Std.LawfulEqOrd K] in
theorem Parted.sup_eq (h : Parted m rest part) (k : K) : part.prio k ⊔ rest.prio k = m.prio k := by
  rcases h k with ⟨hrest, hpart⟩ | ⟨hrest, hpart⟩
  · rw [hrest, hpart, bot_sup_eq]
  · rw [hrest, hpart, sup_bot_eq]

/-- The pointwise maximum of a list of maps. -/
def sup (ms : List (PrioMap K P)) (k : K) : WithBot P := (ms.map fun m => m.prio k).foldr (· ⊔ ·) ⊥

omit [Std.LawfulEqOrd K] in
@[simp] theorem sup_nil (k : K) : sup ([] : List (PrioMap K P)) k = ⊥ := rfl

omit [Std.LawfulEqOrd K] in
@[simp] theorem sup_cons (m : PrioMap K P) (ms : List (PrioMap K P)) (k : K) :
    sup (m :: ms) k = m.prio k ⊔ sup ms k := rfl

omit [Std.LawfulEqOrd K] in
theorem sup_le_iff_forall {x : WithBot P} : sup ms k ≤ x ↔ ∀ m ∈ ms, m.prio k ≤ x := by
  induction ms with
  | nil => simp
  | cons n ms ih => rw [sup_cons, sup_le_iff, ih, forall_mem_cons]

omit [Std.LawfulEqOrd K] in
theorem le_sup (h : m ∈ ms) (k : K) : m.prio k ≤ sup ms k := by
  induction ms with
  | nil => cases h
  | cons n ms ih =>
    rcases mem_cons.mp h with rfl | hmem
    · exact le_sup_left
    · exact (ih hmem).trans le_sup_right

omit [Std.LawfulEqOrd K] in
theorem sup_append (ms ns : List (PrioMap K P)) (k : K) :
    sup (ms ++ ns) k = sup ms k ⊔ sup ns k := by
  induction ms with
  | nil => rw [nil_append, sup_nil, bot_sup_eq]
  | cons m ms ih => rw [cons_append, sup_cons, sup_cons, ih, sup_assoc]

section Headroom
variable [Finite K] [Finite P]

/-- How much the priorities can still be raised. -/
noncomputable def headroom (m : PrioMap K P) : Nat :=
  Set.ncard {x : K × P | m.prio x.1 < x.2}

omit [Std.LawfulEqOrd K] in
/-- **Raising a priority uses up headroom**, so it cannot go on for ever. -/
theorem headroom_lt {m n : PrioMap K P} (hle : ∀ k, m.prio k ≤ n.prio k) {k : K}
    (hlt : m.prio k < n.prio k) : n.headroom < m.headroom := by
  obtain ⟨p, hp⟩ := WithBot.ne_bot_iff_exists.mp (ne_bot_of_gt hlt)
  refine Set.ncard_lt_ncard ⟨fun x hx => (hle x.1).trans_lt hx, fun hsub => ?_⟩
  rw [← hp] at hlt
  have hraised : n.prio k < p := @hsub (k, p) hlt
  exact hraised.ne' hp

end Headroom

end PrioMap
