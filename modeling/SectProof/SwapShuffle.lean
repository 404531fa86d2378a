import Mathlib

/-! # Shuffles made of exchanges

The permutation that a Fisher-Yates shuffle makes out of its choices: the place `n` is
exchanged with a chosen one not above it, then `n - 1`, and so on.  **Every permutation
comes from exactly one sequence of choices.** -/

namespace SwapShuffle

open Equiv

/-- The choices from the place `n` downwards: the `k`-th one is not above `n - k`, and
there is none after the last place. -/
def Choices (n : Nat) : Set (Nat → Nat) := {c | ∀ k, c k ≤ n - k}

def perm : Nat → (Nat → Nat) → Perm Nat
  | 0, _ => 1
  | n + 1, c => swap (n + 1) (c 0) * perm n fun k => c (k + 1)

theorem perm_zero (c : Nat → Nat) : perm 0 c = 1 := rfl

theorem perm_succ (n : Nat) (c : Nat → Nat) :
    perm (n + 1) c = swap (n + 1) (c 0) * perm n fun k => c (k + 1) := rfl

-- a place is a large number in use
attribute [irreducible] perm

variable {n d : Nat} {c c' : Nat → Nat} {σ : Perm Nat}

theorem tail_mem (hc : c ∈ Choices (n + 1)) : (fun k => c (k + 1)) ∈ Choices n := fun k =>
  (hc (k + 1)).trans (by omega)

/-- Places above the first one stay. -/
theorem perm_of_lt (hc : c ∈ Choices n) (hd : n < d) : perm n c d = d := by
  induction n generalizing c with
  | zero => rw [perm_zero, Perm.one_apply]
  | succ n ih =>
    have hhead := hc 0
    rw [perm_succ, Perm.mul_apply, ih (tail_mem hc) (by omega)]
    exact swap_apply_of_ne_of_ne (by omega) (by omega)

theorem perm_le (hc : c ∈ Choices n) (hd : d ≤ n) : perm n c d ≤ n := by
  by_contra hlt
  have hfix := (perm n c).injective (perm_of_lt hc (not_le.mp hlt))
  exact hlt (hfix.le.trans hd)

/-- The first choice is the value at the first place. -/
theorem perm_succ_self (hc : c ∈ Choices (n + 1)) : perm (n + 1) c (n + 1) = c 0 := by
  rw [perm_succ, Perm.mul_apply, perm_of_lt (tail_mem hc) (Nat.lt_succ_self n), swap_apply_left]

theorem perm_injOn (hc : c ∈ Choices n) (hc' : c' ∈ Choices n) (h : perm n c = perm n c') :
    c = c' := by
  induction n generalizing c c' with
  | zero =>
    funext k
    have hk := hc k
    have hk' := hc' k
    omega
  | succ n ih =>
    have hhead : c 0 = c' 0 := by rw [← perm_succ_self hc, h, perm_succ_self hc']
    rw [perm_succ, perm_succ, hhead] at h
    have htail := ih (tail_mem hc) (tail_mem hc') (mul_left_cancel h)
    funext k
    cases k with
    | zero => exact hhead
    | succ k => exact congrFun htail k

theorem exists_perm_eq (hσ : ∀ d, n < d → σ d = d) : ∃ c ∈ Choices n, perm n c = σ := by
  induction n generalizing σ with
  | zero =>
    refine ⟨fun _ => 0, fun k => Nat.zero_le _, Equiv.ext fun d => ?_⟩
    rw [perm_zero, Perm.one_apply]
    cases d with
    | zero =>
      by_contra hne
      exact hne (σ.injective (hσ _ (Nat.pos_of_ne_zero (Ne.symm hne)))).symm
    | succ d => exact (hσ _ (Nat.succ_pos d)).symm
  | succ n ih =>
    -- the value at the last place is chosen, and the rest of the permutation stays below
    have hrest : ∀ d, n < d → (swap (n + 1) (σ (n + 1)) * σ) d = d := by
      intro d hd
      rw [Perm.mul_apply]
      by_cases hlast : d = n + 1
      · rw [hlast, swap_apply_right]
      · rw [hσ d (by omega)]
        refine swap_apply_of_ne_of_ne hlast fun heq => hlast (σ.injective ?_)
        rw [hσ d (by omega), heq]
    obtain ⟨c, hc, hperm⟩ := ih hrest
    refine ⟨fun k => Nat.casesOn k (σ (n + 1)) c, fun k => ?_, ?_⟩
    · cases k with
      | zero =>
        by_contra hlt
        have hfix : σ (n + 1) = n + 1 := σ.injective (hσ _ (not_le.mp hlt))
        exact hlt hfix.le
      | succ k => exact (hc k).trans (by omega)
    · rw [perm_succ, hperm, ← mul_assoc]
      exact congrArg (· * σ) (swap_mul_self _ _)

end SwapShuffle
