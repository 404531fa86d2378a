import Mathlib

/-! # Finite tables with unique keys

A `Table K V` is a finite list of key/value entries whose keys are pairwise
distinct; the invariant is a field, so no operation can produce a table with a
key stored twice.  The module gives the operations of a hash map (`lookup`,
`modify`, `insert`, `erase`) and a traversal that threads a state through the
values (`forEach`), each with the lemma saying what `lookup` finds after it.

`count P` is the number of entries satisfying `P`.  It depends on a table only
through `lookup`, so a client never reasons about the order of entries: two
tables whose lookups satisfy `P` at the same keys have the same count
(`count_congr`), and when they differ at one key only, the counts differ by what
that key contributes (`count_move`).
-/

open List Finset

/-- A finite table; no key is stored twice. -/
structure Table (K V : Type) where
  entries : List (K × V)
  nodup : (entries.map Prod.fst).Nodup

namespace Table
variable {K V σ : Type}

/-- The table with no entries. -/
def empty : Table K V := ⟨[], nodup_nil⟩

/-- The number of entries. -/
def size (t : Table K V) : Nat := t.entries.length

/-- The number of entries satisfying `P`. -/
def count (P : K → V → Bool) (t : Table K V) : Nat :=
  t.entries.countP fun e => P e.1 e.2

/-- The entries satisfying `P`. -/
def filter (P : K → V → Bool) (t : Table K V) : Table K V where
  entries := t.entries.filter fun e => P e.1 e.2
  nodup := t.nodup.sublist (filter_sublist.map _)

/-- An order in which a loop over a table visits its entries. -/
structure RangeOrder (K V : Type) where
  list : Table K V → List (K × V)
  perm : ∀ t, (list t).Perm t.entries

/-- The order in which the entries were put in. -/
def RangeOrder.inOrder : RangeOrder K V := ⟨fun t => t.entries, fun _ => .refl _⟩

/-- Every value is rewritten by `g`; the keys stay. -/
def mapValues (g : K → V → V) (t : Table K V) : Table K V where
  entries := t.entries.map fun e => (e.1, g e.1 e.2)
  nodup := by
    have hkeys : (t.entries.map fun e => (e.1, g e.1 e.2)).map Prod.fst
        = t.entries.map Prod.fst := by
      rw [List.map_map]; rfl
    rw [hkeys]; exact t.nodup

/-- Walk over the entries, threading a state. -/
def forEachList (f : σ → K → V → V × σ) : σ → List (K × V) → List (K × V) × σ
  | st, [] => ([], st)
  | st, (k, v) :: rest =>
    let r := f st k v
    let tail := forEachList f r.2 rest
    ((k, r.1) :: tail.1, tail.2)

theorem forEachList_keys (f : σ → K → V → V × σ) (st : σ) (l : List (K × V)) :
    (forEachList f st l).1.map Prod.fst = l.map Prod.fst := by
  induction l generalizing st with
  | nil => rfl
  | cons e rest ih =>
    obtain ⟨k, v⟩ := e
    simp [forEachList, ih]

/-- The map iterator: a callback rewrites each value in turn, threading a state. -/
def forEach (f : σ → K → V → V × σ) (st : σ) (t : Table K V) : Table K V × σ :=
  (⟨(forEachList f st t.entries).1, by rw [forEachList_keys]; exact t.nodup⟩,
    (forEachList f st t.entries).2)

section Keys
variable [DecidableEq K]

/-- The value stored under `k`. -/
def lookup (k : K) (t : Table K V) : Option V := t.entries.lookup k

/-- The value under `k`, if any, is rewritten in place. -/
def modify (k : K) (f : V → V) (t : Table K V) : Table K V :=
  t.mapValues fun j v => if j = k then f v else v

/-- The entry under `k`, if any, is removed. -/
def erase (k : K) (t : Table K V) : Table K V where
  entries := t.entries.filter fun e => e.1 ≠ k
  nodup := t.nodup.sublist (filter_sublist.map _)

theorem mem_keys_iff (k : K) (t : Table K V) :
    k ∈ t.entries.map Prod.fst ↔ t.lookup k ≠ none := by
  rw [lookup, Ne, lookup_eq_none_iff]
  constructor
  · intro h hall
    obtain ⟨e, he, rfl⟩ := mem_map.mp h
    simpa using hall e he
  · intro h
    by_contra hk
    refine h fun e he => ?_
    have hne : k ≠ e.1 := fun heq => hk (mem_map.mpr ⟨e, he, heq.symm⟩)
    simpa using hne

/-- `k` is stored with `v`, overwriting what was there; a new key goes last. -/
def insert (k : K) (v : V) (t : Table K V) : Table K V :=
  if h : t.lookup k = none then
    { entries := t.entries ++ [(k, v)]
      nodup := by
        rw [map_append]
        refine nodup_append.mpr ⟨t.nodup, by simp, ?_⟩
        intro a ha b hb hab
        rw [List.map_cons, map_nil, List.mem_singleton] at hb
        subst hab
        subst hb
        exact (mem_keys_iff _ t).mp ha h }
  else t.modify k fun _ => v

variable {k : K} {A : Type}

variable {v : V} {t : Table K V} {j : K} {l : List A}

/-- Entries are exactly what `lookup` finds. -/
theorem mem_entries_iff : (k, v) ∈ t.entries ↔ t.lookup k = some v := by
  obtain ⟨l, hl⟩ := t
  simp only [lookup]
  induction l with
  | nil => simp
  | cons e rest ih =>
    obtain ⟨j, w⟩ := e
    rw [List.map_cons, nodup_cons] at hl
    have ih := ih hl.2
    by_cases hjk : k = j
    · subst hjk
      have habs : ∀ u, (k, u) ∉ rest := fun u hu => hl.1 (mem_map.mpr ⟨_, hu, rfl⟩)
      simp [habs, eq_comm]
    · have hbeq : (k == j) = false := by simpa using hjk
      simp [lookup_cons, hbeq, hjk, ih]

theorem mem_list_iff {order : RangeOrder K V} : (k, v) ∈ order.list t ↔ t.lookup k = some v := by
  rw [(order.perm t).mem_iff, mem_entries_iff]

/-- A key that satisfies `P` with its value stays. -/
theorem lookup_filter (P : K → V → Bool) (k : K) (t : Table K V) :
    (t.filter P).lookup k = (t.lookup k).filter (P k) := by
  refine Option.ext fun v => ?_
  rw [← mem_entries_iff, Option.filter_eq_some_iff, ← mem_entries_iff]
  exact mem_filter

@[simp] theorem lookup_empty (k : K) : (empty : Table K V).lookup k = none := rfl

@[simp] theorem lookup_mapValues (g : K → V → V) (k : K) (t : Table K V) :
    (t.mapValues g).lookup k = (t.lookup k).map (g k) := by
  obtain ⟨l, hl⟩ := t
  simp only [lookup, mapValues]
  clear hl
  induction l with
  | nil => rfl
  | cons e rest ih =>
    obtain ⟨j, w⟩ := e
    by_cases hjk : k = j
    · subst hjk; simp
    · have hbeq : (k == j) = false := by simpa using hjk
      simp [lookup_cons, hbeq, ih]

theorem lookup_modify (k j : K) (f : V → V) (t : Table K V) :
    (t.modify k f).lookup j = if j = k then (t.lookup j).map f else t.lookup j := by
  rw [modify, lookup_mapValues]
  split <;> simp_all

@[simp] theorem lookup_modify_self (k : K) (f : V → V) (t : Table K V) :
    (t.modify k f).lookup k = (t.lookup k).map f := by
  rw [lookup_modify, if_pos rfl]

theorem lookup_modify_of_ne (h : j ≠ k) (f : V → V) (t : Table K V) :
    (t.modify k f).lookup j = t.lookup j := by
  rw [lookup_modify, if_neg h]

theorem lookup_erase (k j : K) (t : Table K V) :
    (t.erase k).lookup j = if j = k then none else t.lookup j := by
  obtain ⟨l, hl⟩ := t
  simp only [lookup, erase]
  clear hl
  induction l with
  | nil => simp
  | cons e rest ih =>
    obtain ⟨i, w⟩ := e
    by_cases hik : i = k
    · subst hik
      rw [filter_cons_of_neg (by simp), ih]
      split
      · rfl
      · rename_i hji
        have hbeq : (j == i) = false := by simpa using hji
        rw [lookup_cons, hbeq]
    · rw [List.filter_cons_of_pos (by simpa using hik), lookup_cons, lookup_cons, ih]
      by_cases hji : j = i
      · subst hji; simp [hik]
      · have hbeq : (j == i) = false := by simpa using hji
        simp [hbeq]

@[simp] theorem lookup_erase_self (k : K) (t : Table K V) : (t.erase k).lookup k = none := by
  rw [lookup_erase, if_pos rfl]

theorem lookup_insert (k j : K) (v : V) (t : Table K V) :
    (t.insert k v).lookup j = if j = k then some v else t.lookup j := by
  rw [insert]
  split
  · rename_i h
    rw [lookup] at h
    simp only [lookup, lookup_append, lookup_cons, lookup_nil]
    by_cases hjk : j = k
    · subst hjk; simp [h]
    · have hbeq : (j == k) = false := by simpa using hjk
      simp [hbeq, hjk]
  · rename_i h
    rw [lookup_modify]
    split
    · rename_i hjk
      subst hjk
      obtain ⟨w, hw⟩ := Option.ne_none_iff_exists'.mp h
      rw [hw]; rfl
    · rfl

@[simp] theorem lookup_insert_self (k : K) (v : V) (t : Table K V) :
    (t.insert k v).lookup k = some v := by
  rw [lookup_insert, if_pos rfl]

theorem lookup_insert_of_ne (h : j ≠ k) (v : V) (t : Table K V) :
    (t.insert k v).lookup j = t.lookup j := by
  rw [lookup_insert, if_neg h]

/-- Filling a table from a list: the last element with a key gives its value. -/
theorem lookup_foldl_insert (key : A → K) (val : A → V) (l : List A) (t : Table K V) (k : K) :
    (l.foldl (fun t a => t.insert (key a) (val a)) t).lookup k =
      ((l.reverse.find? fun a => key a = k).map val).or (t.lookup k) := by
  induction l generalizing t with
  | nil => rfl
  | cons a l ih =>
    rw [foldl_cons, ih, reverse_cons, find?_append]
    cases hfind : l.reverse.find? fun a => key a = k with
    | some b => rfl
    | none =>
      rw [lookup_insert]
      by_cases hk : key a = k
      · simp [hk]
      · simp [hk, Ne.symm hk]

/-- An element whose key no other element has gives the value of its key. -/
theorem lookup_foldl_insert_of_mem (key : A → K) (val : A → V) {a : A} (ha : a ∈ l)
    (honly : ∀ b ∈ l, key b = key a → b = a) (t : Table K V) :
    (l.foldl (fun t a => t.insert (key a) (val a)) t).lookup (key a) = some (val a) := by
  have hfound : (l.reverse.find? fun b => key b = key a).isSome :=
    find?_isSome.mpr ⟨a, mem_reverse.mpr ha, by simp⟩
  obtain ⟨b, hb⟩ := Option.isSome_iff_exists.mp hfound
  have hkey := find?_some hb
  have hmem := mem_reverse.mp (mem_of_find?_eq_some hb)
  rw [lookup_foldl_insert, hb, honly b hmem (of_decide_eq_true hkey)]
  rfl

/-- Removing the keys of a list leaves the other entries. -/
theorem lookup_foldl_erase_of_notMem (key : A → K) (h : ∀ a ∈ l, key a ≠ k) (t : Table K V) :
    (l.foldl (fun t a => t.erase (key a)) t).lookup k = t.lookup k := by
  induction l generalizing t with
  | nil => rfl
  | cons a l ih =>
    rw [List.forall_mem_cons] at h
    rw [foldl_cons, ih h.2, lookup_erase, if_neg (Ne.symm h.1)]

/-- A traversal updates each entry by the callback, in some state it passed. -/
theorem lookup_forEach (f : σ → K → V → V × σ) (st : σ) (t : Table K V) (k : K) :
    ∃ st', (t.forEach f st).1.lookup k = (t.lookup k).map fun v => (f st' k v).1 := by
  simp only [lookup, forEach]
  induction t.entries generalizing st with
  | nil => exact ⟨st, rfl⟩
  | cons e rest ih =>
    obtain ⟨j, v⟩ := e
    simp only [forEachList, lookup_cons]
    cases hkj : k == j with
    | true =>
      rw [eq_of_beq hkj]
      exact ⟨st, rfl⟩
    | false => exact ih _

/-- What no callback of a traversal changes, the traversal does not change. -/
theorem lookup_forEach_map {W : Type} (h : V → W) (f : σ → K → V → V × σ)
    (hf : ∀ st k v, h (f st k v).1 = h v) (st : σ) (t : Table K V) (k : K) :
    ((t.forEach f st).1.lookup k).map h = (t.lookup k).map h := by
  obtain ⟨st', hst⟩ := lookup_forEach f st t k
  rw [hst, Option.map_map]
  exact congrArg (fun g => Option.map g _) (funext fun v => hf st' k v)

end Keys

/-! ## Counting entries -/

section Count
variable [DecidableEq K] {t u : Table K V} {P Q : K → V → Bool}

/-- The value stored under `k`, if any, satisfies `P`. -/
def holdsAt (P : K → V → Bool) (t : Table K V) (k : K) : Bool := (t.lookup k).any (P k)

variable {k : K} {F : Finset K}

theorem holdsAt_eq_true : t.holdsAt P k = true ↔ ∃ v, t.lookup k = some v ∧ P k v = true := by
  rw [holdsAt, Option.any_eq_true]

/-- The keys whose value satisfies `P`. -/
def keysWhere (P : K → V → Bool) (t : Table K V) : Finset K where
  val := ((t.entries.filter fun e => P e.1 e.2).map Prod.fst : List K)
  nodup := Multiset.coe_nodup.mpr (t.nodup.sublist (filter_sublist.map _))

theorem mem_keysWhere : k ∈ t.keysWhere P ↔ t.holdsAt P k = true := by
  rw [holdsAt_eq_true]
  show k ∈ ((t.entries.filter fun e => P e.1 e.2).map Prod.fst : List K) ↔ _
  rw [List.mem_map]
  constructor
  · rintro ⟨⟨j, v⟩, he, rfl⟩
    obtain ⟨hmem, hp⟩ := mem_filter.mp he
    exact ⟨v, mem_entries_iff.mp hmem, hp⟩
  · rintro ⟨v, hv, hp⟩
    exact ⟨(k, v), mem_filter.mpr ⟨mem_entries_iff.mpr hv, hp⟩, rfl⟩

omit [DecidableEq K] in
theorem card_keysWhere : (t.keysWhere P).card = t.count P := by
  show ((t.entries.filter fun e => P e.1 e.2).map Prod.fst : List K).length = _
  rw [length_map, count, countP_eq_length_filter]

/-- A table has no more entries than there are keys to choose from. -/
theorem size_le_card (h : ∀ k, (t.lookup k).isSome → k ∈ F) : t.size ≤ F.card := by
  have hcount : t.size = t.count fun _ _ => true := by
    rw [size, count, countP_true]
  rw [hcount, ← card_keysWhere]
  refine card_le_card fun k hk => h k ?_
  rw [mem_keysWhere, holdsAt_eq_true] at hk
  obtain ⟨v, hv, _⟩ := hk
  rw [hv]
  rfl

/-- A key that may be there and is not leaves room for itself. -/
theorem size_lt_card (h : ∀ k, (t.lookup k).isSome → k ∈ F) (hk : k ∈ F)
    (hnone : t.lookup k = none) : t.size < F.card := by
  have hle : t.size ≤ (F.erase k).card := by
    refine size_le_card fun j hj => mem_erase.mpr ⟨?_, h j hj⟩
    rintro rfl
    rw [hnone] at hj
    cases hj
  rw [card_erase_of_mem hk] at hle
  have hpos := card_pos.mpr ⟨k, hk⟩
  omega

/-- A count only depends on which keys satisfy the predicate. -/
theorem count_congr (h : ∀ k, u.holdsAt Q k = t.holdsAt P k) : u.count Q = t.count P := by
  rw [← card_keysWhere, ← card_keysWhere]
  congr 1
  ext k
  rw [mem_keysWhere, mem_keysWhere, h k]

/-- When only the key `p` changes, the counts differ by what `p` contributes. -/
theorem count_move (p : K) (h : ∀ k, k ≠ p → u.holdsAt Q k = t.holdsAt P k) :
    u.count Q + (t.holdsAt P p).toNat = t.count P + (u.holdsAt Q p).toNat := by
  have hrest : (u.keysWhere Q).erase p = (t.keysWhere P).erase p := by
    ext k
    simp only [mem_erase, mem_keysWhere]
    constructor <;> rintro ⟨hk, hh⟩ <;> exact ⟨hk, by rw [← hh, h k hk]⟩
  have hcard : ∀ (w : Table K V) (R : K → V → Bool),
      w.count R = ((w.keysWhere R).erase p).card + (w.holdsAt R p).toNat := by
    intro w R
    rw [← card_keysWhere]
    cases hp : w.holdsAt R p with
    | true =>
      have := card_erase_add_one (mem_keysWhere.mpr hp)
      simpa using this.symm
    | false =>
      have hnot : p ∉ w.keysWhere R := by rw [mem_keysWhere, hp]; simp
      rw [erase_eq_of_notMem hnot]; simp
  rw [hcard u Q, hcard t P, hrest]
  omega

theorem count_pos : 0 < t.count P ↔ ∃ k, t.holdsAt P k = true := by
  rw [← card_keysWhere, card_pos]
  exact exists_congr fun k => mem_keysWhere

/-- At most one key satisfies a predicate counted at most once. -/
theorem eq_of_count_le_one (h : t.count P ≤ 1) {j : K} (hj : t.holdsAt P j = true)
    (hk : t.holdsAt P k = true) : j = k := by
  rw [← card_keysWhere] at h
  exact card_le_one.mp h j (mem_keysWhere.mpr hj) k (mem_keysWhere.mpr hk)

omit [DecidableEq K] in

omit [DecidableEq K] in
/-- A count is the sum of the counts of its classes. -/
theorem count_eq_sum {ι : Type} [DecidableEq ι] [Fintype ι] (f : K → V → ι) (P : K → V → Bool)
    (t : Table K V) : t.count P = ∑ i, t.count fun k v => P k v && decide (f k v = i) := by
  obtain ⟨l, hl⟩ := t
  simp only [count]
  clear hl
  induction l with
  | nil => simp
  | cons e rest ih =>
    simp only [countP_cons, sum_add_distrib, ih]
    cases P e.1 e.2 <;> simp

end Count

end Table
