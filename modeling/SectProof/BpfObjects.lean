import SectProof.KeyedTable

/-! # Kernel objects a BPF scheduler works with

Bounded hash maps with the kernel's update flags, the LRU variant, the bounded
FIFO map, and the vtime-ordered dispatch queue.  A map of `max` entries is a
`Table` together with its bound at the point of use, as the bound is a property
of the map definition and not of its contents. -/

/-- The flags of a map update. -/
inductive UpdateFlag
  | any      -- create or replace
  | noexist  -- create only
  | exist    -- replace only; for a queue, make room by dropping the oldest
  deriving DecidableEq, Repr

/-- The errors a map update can return. -/
inductive MapError
  | e2big
  | eexist
  | enoent
  deriving DecidableEq, Repr

namespace Table
variable {K V : Type} [DecidableEq K]

/-- Hash map update: the flag is checked against what is there, and a new key
needs a free slot. -/
def updateElem (max : Nat) (flag : UpdateFlag) (k : K) (v : V) (t : Table K V) :
    Except MapError (Table K V) :=
  match t.lookup k with
  | some _ => if flag = .noexist then .error .eexist else .ok (t.insert k v)
  | none =>
    if flag = .exist then .error .enoent
    else if max ≤ t.size then .error .e2big
    else .ok (t.insert k v)

/-- LRU hash map update: a full map makes room by dropping its oldest entry
instead of failing. -/
def updateElemLru (max : Nat) (flag : UpdateFlag) (k : K) (v : V) (t : Table K V) :
    Except MapError (Table K V) :=
  match t.lookup k with
  | some _ => if flag = .noexist then .error .eexist else .ok (t.insert k v)
  | none =>
    if flag = .exist then .error .enoent
    else if max ≤ t.size then
      match t.entries.head? with
      | some e => .ok ((t.erase e.1).insert k v)
      | none => .ok (t.insert k v)
    else .ok (t.insert k v)

variable {max : Nat} {k : K} {v : V} {t : Table K V}

theorem updateElem_noexist_none (h : t.lookup k = none) :
    t.updateElem max .noexist k v =
      if max ≤ t.size then .error .e2big else .ok (t.insert k v) := by
  simp [updateElem, h]

/-- A map whose keys come from a set that fits it has room for each of them. -/
theorem updateElem_of_keys {F : Finset K} (h : ∀ j, (t.lookup j).isSome → j ∈ F) (hk : k ∈ F)
    (hcard : F.card ≤ max) (v : V) : t.updateElem max .any k v = .ok (t.insert k v) := by
  unfold updateElem
  cases hlook : t.lookup k with
  | some w => rfl
  | none =>
    have hlt := size_lt_card h hk hlook
    dsimp only
    rw [if_neg (by simp), if_neg (by omega)]

variable {flag : UpdateFlag} {u : Table K V}

/-- An update that succeeds stores the value under its key and nothing else. -/
theorem lookup_of_updateElem (h : t.updateElem max flag k v = .ok u) (j : K) :
    u.lookup j = if j = k then some v else t.lookup j := by
  have hu : u = t.insert k v := by
    simp only [updateElem] at h
    split at h <;> split at h <;> try split at h
    all_goals first | cases h; done | (cases h; rfl)
  rw [hu, lookup_insert]

/-- An LRU update adds no key but its own. -/
theorem isSome_of_updateElemLru {j : K} (h : t.updateElemLru max flag k v = .ok u)
    (hj : (u.lookup j).isSome) : j = k ∨ (t.lookup j).isSome := by
  have hinsert : ∀ w : Table K V, ((w.insert k v).lookup j).isSome → j = k ∨ (w.lookup j).isSome := by
    intro w hw
    rw [lookup_insert] at hw
    split at hw
    · exact .inl ‹j = k›
    · exact .inr hw
  have hu : u = t.insert k v ∨ ∃ e : K × V, u = (t.erase e.1).insert k v := by
    simp only [updateElemLru] at h
    split at h
    · split at h
      · cases h
      · cases h; exact .inl rfl
    split at h
    · cases h
    split at h
    · split at h
      · rename_i e _
        cases h; exact .inr ⟨e, rfl⟩
      · cases h; exact .inl rfl
    · cases h; exact .inl rfl
  rcases hu with rfl | ⟨e, rfl⟩
  · exact hinsert t hj
  · refine (hinsert _ hj).imp_right fun hw => ?_
    rw [lookup_erase] at hw
    split at hw
    · cases hw
    · exact hw

end Table

/-! ## The bounded FIFO map -/

namespace BoundedQueue
variable {α : Type}

/-- Push at the tail.  A full queue refuses the element, unless the flag asks to
drop the oldest one. -/
def pushElem (max : Nat) (flag : UpdateFlag) (x : α) (q : List α) : Except MapError (List α) :=
  if max ≤ q.length then
    if flag = .exist then .ok (q.tail ++ [x]) else .error .e2big
  else .ok (q ++ [x])

/-- Pop from the head. -/
def popElem (q : List α) : Option (α × List α) :=
  match q with
  | [] => none
  | x :: rest => some (x, rest)

/-- A push that may drop the oldest element never fails. -/
theorem pushElem_exist (max : Nat) (x : α) (q : List α) :
    pushElem max .exist x q = .ok ((if max ≤ q.length then q.tail else q) ++ [x]) := by
  unfold pushElem
  split <;> simp

end BoundedQueue

/-! ## The vtime-ordered dispatch queue -/

namespace VtimeQueue
variable {α : Type}

/-- Insert keyed by vtime: before the first element of a larger vtime, so that
equal vtimes keep their insertion order. -/
def insert (vtime : Nat) (x : α) : List (Nat × α) → List (Nat × α)
  | [] => [(vtime, x)]
  | e :: rest => if vtime < e.1 then (vtime, x) :: e :: rest else e :: insert vtime x rest

/-- Drop every occurrence of `x`. -/
def remove [DecidableEq α] (x : α) (q : List (Nat × α)) : List (Nat × α) :=
  q.filter fun e => e.2 ≠ x

/-- The queue is ordered by vtime. -/
def Sorted (q : List (Nat × α)) : Prop := q.Pairwise fun a b => a.1 ≤ b.1

variable {q : List (Nat × α)}

theorem mem_insert {vtime : Nat} {x : α} {e : Nat × α} :
    e ∈ insert vtime x q ↔ e = (vtime, x) ∨ e ∈ q := by
  induction q with
  | nil => simp [insert]
  | cons d rest ih =>
    simp only [insert]
    split
    · simp
    · simp only [List.mem_cons, ih]; tauto

theorem perm_insert (vtime : Nat) (x : α) (q : List (Nat × α)) :
    (insert vtime x q).Perm ((vtime, x) :: q) := by
  induction q with
  | nil => exact .refl _
  | cons d rest ih =>
    simp only [insert]
    split
    · exact .refl _
    · exact (ih.cons d).trans (.swap _ _ _)

theorem Sorted.insert (h : Sorted q) (vtime : Nat) (x : α) :
    Sorted (VtimeQueue.insert vtime x q) := by
  induction q with
  | nil => exact List.pairwise_singleton _ _
  | cons d rest ih =>
    obtain ⟨hd, hrest⟩ := List.pairwise_cons.mp h
    simp only [VtimeQueue.insert]
    split
    · rename_i hlt
      refine List.pairwise_cons.mpr ⟨fun e he => ?_, h⟩
      rcases List.mem_cons.mp he with rfl | he
      · exact Nat.le_of_lt hlt
      · exact Nat.le_trans (Nat.le_of_lt hlt) (hd e he)
    · rename_i hge
      refine List.pairwise_cons.mpr ⟨fun e he => ?_, ih hrest⟩
      rcases mem_insert.mp he with rfl | he
      · exact Nat.le_of_not_lt hge
      · exact hd e he

/-- The head of an ordered queue has the least vtime. -/
theorem Sorted.head_le {e : Nat × α} (h : Sorted (e :: q)) : ∀ d ∈ q, e.1 ≤ d.1 :=
  (List.pairwise_cons.mp h).1

end VtimeQueue
