import Mathlib

/-! # Checks that reject

Code that goes through a list of conditions and returns at the first one that is
violated succeeds exactly if none is: the lemmas turn such a run into the
conjunction of its checks.
-/

namespace ErrorChecks

universe u v

variable {ε ε' : Type u} {α β : Type v}

/-- Returns the error `e` if `bad` holds. -/
def reject (bad : Prop) [Decidable bad] (e : ε) : Except ε Unit :=
  if bad then .error e else .ok ()

variable {e : ε} {a b : α} {k : α → Except ε β} {x : Except ε α}

@[simp] theorem reject_eq_ok {bad : Prop} [Decidable bad] {u : Unit} :
    reject bad e = .ok u ↔ ¬ bad := by
  unfold reject
  split
  · rename_i h
    simp [h]
  · rename_i h
    simp [h]

theorem ok_bind : (Except.ok a >>= k) = k a := rfl

theorem error_bind : (Except.error e >>= k) = .error e := rfl

theorem bind_eq_ok {f : α → Except ε β} {b : β} :
    (x >>= f) = .ok b ↔ ∃ a, x = .ok a ∧ f a = .ok b := by
  cases x with
  | error e =>
    constructor
    · intro h
      cases h
    · rintro ⟨a, h, -⟩
      cases h
  | ok a =>
    constructor
    · intro h
      exact ⟨a, rfl, h⟩
    · rintro ⟨a', h, hb⟩
      cases h
      exact hb

theorem pure_eq_ok : (pure a : Except ε α) = .ok b ↔ a = b := by
  constructor
  · intro h
    cases h
    rfl
  · rintro rfl
    rfl

theorem throw_ne_ok : (throw e : Except ε α) = .ok b ↔ False := by
  constructor
  · intro h
    cases h
  · exact False.elim

theorem mapError_eq_ok {f : ε → ε'} : x.mapError f = .ok a ↔ x = .ok a := by
  cases x <;> simp [Except.mapError]

theorem forM_eq_ok {l : List α} {f : α → Except ε PUnit} {u : PUnit} :
    l.forM f = .ok u ↔ ∀ a ∈ l, f a = .ok u := by
  induction l with
  | nil =>
    constructor
    · intro _ a ha
      cases ha
    · intro _
      rfl
  | cons a l ih =>
    rw [List.forall_mem_cons]
    change (f a >>= fun _ => l.forM f) = .ok u ↔ _
    rw [bind_eq_ok]
    constructor
    · rintro ⟨_, ha, hl⟩
      exact ⟨ha, ih.mp hl⟩
    · rintro ⟨ha, hl⟩
      exact ⟨u, ha, ih.mpr hl⟩

section Fold
variable {σ τ : Type v} {step : σ → α → Except ε σ}

/-- What every step of a loop keeps holds after the loop. -/
theorem foldlM_invariant {I : σ → Prop} {l : List α}
    (hstep : ∀ a ∈ l, ∀ {s s'}, I s → step s a = .ok s' → I s') {s s' : σ} (hs : I s)
    (hok : l.foldlM step s = .ok s') : I s' := by
  induction l generalizing s with
  | nil =>
    cases hok
    exact hs
  | cons a l ih =>
    rw [List.forall_mem_cons] at hstep
    obtain ⟨s₁, hone, hrest⟩ := bind_eq_ok.mp hok
    exact ih hstep.2 (hstep.1 hs hone) hrest

/-- A loop over images whose steps follow those of another loop follows that loop. -/
theorem foldlM_map_of {step' : τ → β → Except ε τ} {r : σ → τ} {g : α → β} {l : List α}
    (hstep : ∀ a ∈ l, ∀ s, step' (r s) (g a) = r <$> step s a) (s : σ) :
    (l.map g).foldlM step' (r s) = r <$> l.foldlM step s := by
  induction l generalizing s with
  | nil => rfl
  | cons a l ih =>
    rw [List.forall_mem_cons] at hstep
    rw [List.map_cons, List.foldlM_cons, List.foldlM_cons, hstep.1]
    cases step s a with
    | error e => rfl
    | ok s => exact ih hstep.2 s

end Fold

end ErrorChecks
