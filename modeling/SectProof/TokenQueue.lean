import SectProof.KeyedTable

/-! # Token queues with pending flags

A bounded FIFO of tokens, with a flag for each owner that says whether its token
is queued.  A push is skipped when the flag is up; a full queue makes room by
dropping its oldest token; a pop takes the oldest token and lowers its owner's
flag.  The flag of an owner is *exact* when it says how many of its tokens are
queued.

A push keeps its own owner exact even when the queue is full (the dropped token
is somebody else's), and everybody exact when there is room.  When everybody is
exact no owner has two tokens, so a queue with more room than owners is never
full. -/

open List Function

/-- The queue, and the flag of every owner. -/
structure Tokens (α : Type) where
  queue : List α
  pending : α → Bool

namespace Tokens
variable {α : Type} [DecidableEq α] {cap : Nat} {a b : α} {t : Tokens α}

/-- Queue `a`'s token, unless its flag is up. -/
def push (cap : Nat) (a : α) (t : Tokens α) : Tokens α :=
  if t.pending a then t
  else ⟨(if cap ≤ t.queue.length then t.queue.tail else t.queue) ++ [a],
    Function.update t.pending a true⟩

/-- Take the oldest token and lower its owner's flag. -/
def pop (t : Tokens α) : Tokens α :=
  match t.queue with
  | [] => t
  | a :: rest => ⟨rest, Function.update t.pending a false⟩

/-- Lower `a`'s flag without taking its token. -/
def clear (a : α) (t : Tokens α) : Tokens α := ⟨t.queue, Function.update t.pending a false⟩

/-- The flag of `a` says how many of its tokens are queued. -/
def Exact (t : Tokens α) (a : α) : Prop := t.queue.count a = (t.pending a).toNat

theorem Exact.pending_of_mem (h : t.Exact a) (hmem : a ∈ t.queue) : t.pending a = true := by
  have hpos := count_pos_iff.mpr hmem
  rw [h] at hpos
  cases hp : t.pending a with
  | true => rfl
  | false => rw [hp] at hpos; exact absurd hpos (by simp)

theorem Exact.mem_iff (h : t.Exact a) : a ∈ t.queue ↔ t.pending a = true := by
  refine ⟨h.pending_of_mem, fun hp => count_pos_iff.mp ?_⟩
  rw [h, hp]
  exact Nat.one_pos

/-- A push keeps its own owner exact: the token a full queue drops is another's. -/
theorem Exact.push_self (h : t.Exact a) : (t.push cap a).Exact a := by
  unfold push
  split
  · exact h
  rename_i hp
  rw [Bool.not_eq_true] at hp
  have hzero : t.queue.count a = 0 := by rw [h, hp]; rfl
  have htail : t.queue.tail.count a = 0 := by
    have := (tail_sublist t.queue).count_le a
    omega
  unfold Exact
  split <;> simp [hzero, htail]

/-- A push with room keeps everybody exact. -/
theorem Exact.push (h : t.Exact b) (hroom : t.queue.length < cap) : (t.push cap a).Exact b := by
  by_cases hab : b = a
  · subst hab
    exact h.push_self
  unfold Tokens.push
  split
  · exact h
  · unfold Exact
    dsimp only
    rw [if_neg (by omega), update_of_ne hab, count_append, ← h]
    simp [Ne.symm hab]

theorem Exact.pop (h : t.Exact a) : t.pop.Exact a := by
  unfold Tokens.pop
  cases hq : t.queue with
  | nil => exact h
  | cons b rest =>
    unfold Exact at h ⊢
    rw [hq, count_cons] at h
    dsimp only
    by_cases hab : a = b
    · subst hab
      rw [update_self]
      rw [if_pos (by simp)] at h
      have := Bool.toNat_le (t.pending a)
      show rest.count a = 0
      omega
    · rw [update_of_ne hab]
      rwa [if_neg (by simpa using Ne.symm hab)] at h

/-- Lowering flags that are down changes nothing. -/
theorem Exact.clear (h : t.Exact b) (hp : t.pending a = false) : (t.clear a).Exact b := by
  unfold Exact Tokens.clear
  dsimp only
  by_cases hab : b = a
  · subst hab
    rw [update_self, h, hp]
  · rw [update_of_ne hab]
    exact h

theorem mem_push {c : α} (h : c ∈ (t.push cap a).queue) : c ∈ t.queue ∨ c = a := by
  unfold push at h
  split at h
  · exact .inl h
  · rw [mem_append, mem_singleton] at h
    refine h.imp (fun hmem => ?_) id
    split at hmem
    · exact mem_of_mem_tail hmem
    · exact hmem

theorem length_push_le (h : t.queue.length ≤ cap) (hcap : 0 < cap) :
    (t.push cap a).queue.length ≤ cap := by
  unfold push
  split
  · exact h
  · rw [length_append, length_singleton]
    split
    · rw [length_tail]
      omega
    · omega

theorem length_pop_le : t.pop.queue.length ≤ t.queue.length - 1 := by
  unfold pop
  cases hq : t.queue with
  | nil => simp [hq]
  | cons b rest => simp

/-- When every flag is exact, there are no more tokens than owners. -/
theorem length_le_card (h : ∀ a, t.Exact a) (owners : Finset α) (hin : ∀ a ∈ t.queue, a ∈ owners) :
    t.queue.length ≤ owners.card := by
  have hnodup : t.queue.Nodup := nodup_iff_count_le_one.mpr fun a => by
    rw [h a]; exact Bool.toNat_le _
  rw [← toFinset_card_of_nodup hnodup]
  exact Finset.card_le_card fun a ha => hin a (mem_toFinset.mp ha)

end Tokens
