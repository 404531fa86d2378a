import SectProof.KeyedTable

/-! # Runs of a partial step function

A system is a function `step : S → A → Option S`: `none` when the label is not
enabled.  `run` iterates it over a list of labels, `Along` says that a condition
on (state, label) holds at every step of a run, and the rules below turn what
one step preserves into what every run preserves. -/

namespace StepRuns
variable {S A : Type} (step : S → A → Option S)

/-- The state after the labels, if every one of them is enabled in turn. -/
def run : S → List A → Option S
  | s, [] => some s
  | s, a :: as => (step s a).bind fun s' => run s' as

/-- Every step of the run from `s` meets the condition `G`. -/
def Along (G : S → A → Prop) : S → List A → Prop
  | _, [] => True
  | s, a :: as => G s a ∧ ∀ s', step s a = some s' → Along G s' as

/-- The same for a condition that can be computed. -/
def check (g : S → A → Bool) : S → List A → Bool
  | _, [] => true
  | s, a :: as => g s a && (step s a).all fun s' => check g s' as

variable {step}

@[simp] theorem run_nil (s : S) : run step s [] = some s := rfl

variable {s u : S} {as : List A} {G : S → A → Prop}

theorem run_cons_some {a : A} (h : run step s (a :: as) = some u) :
    ∃ s', step s a = some s' ∧ run step s' as = some u :=
  Option.bind_eq_some_iff.mp h

theorem run_append (s : S) (as bs : List A) :
    run step s (as ++ bs) = (run step s as).bind fun u => run step u bs := by
  induction as generalizing s with
  | nil => rfl
  | cons a as ih =>
    show (step s a).bind _ = Option.bind (Option.bind (step s a) _) _
    rw [Option.bind_assoc]
    exact congrArg _ (funext fun s' => ih s')

theorem Along.of_forall (h : ∀ s a, G s a) (s : S) (as : List A) : Along step G s as := by
  induction as generalizing s with
  | nil => trivial
  | cons a as ih => exact ⟨h s a, fun s' _ => ih s'⟩

theorem Along.and {H : S → A → Prop} (hG : Along step G s as) (hH : Along step H s as) :
    Along step (fun s a => G s a ∧ H s a) s as := by
  induction as generalizing s with
  | nil => trivial
  | cons a as ih => exact ⟨⟨hG.1, hH.1⟩, fun s' hs => ih (hG.2 s' hs) (hH.2 s' hs)⟩

theorem Along.append {bs : List A} (h : Along step G s (as ++ bs)) :
    Along step G s as ∧ ∀ u, run step s as = some u → Along step G u bs := by
  induction as generalizing s with
  | nil =>
    refine ⟨trivial, fun u hu => ?_⟩
    rw [run_nil, Option.some.injEq] at hu
    exact hu ▸ h
  | cons a as ih =>
    refine ⟨⟨h.1, fun s' hs => (ih (h.2 s' hs)).1⟩, fun u hu => ?_⟩
    obtain ⟨s', hs', hrest⟩ := run_cons_some hu
    exact (ih (h.2 s' hs')).2 u hrest

theorem Along.of_check {g : S → A → Bool} (h : ∀ s a, g s a = true → G s a)
    (hcheck : check step g s as = true) : Along step G s as := by
  induction as generalizing s with
  | nil => trivial
  | cons a as ih =>
    rw [check, Bool.and_eq_true] at hcheck
    refine ⟨h s a hcheck.1, fun s' hs => ih ?_⟩
    have hrest := hcheck.2
    rwa [hs, Option.all_some] at hrest

/-- **The invariant rule.**  What every step meeting `G` preserves holds at the
end of every run whose steps all meet `G`. -/
theorem invariant_along {I : S → Prop} (hstep : ∀ s a s', I s → G s a → step s a = some s' → I s')
    (hs : I s) (hG : Along step G s as) (hrun : run step s as = some u) : I u := by
  induction as generalizing s with
  | nil =>
    rw [run_nil, Option.some.injEq] at hrun
    exact hrun ▸ hs
  | cons a as ih =>
    obtain ⟨s', hs', hrun⟩ := run_cons_some hrun
    exact ih (hstep s a s' hs hG.1 hs') (hG.2 s' hs') hrun

/-- The rule when every step preserves the invariant. -/
theorem invariant {I : S → Prop} (hstep : ∀ s a s', I s → step s a = some s' → I s') (hs : I s)
    (hrun : run step s as = some u) : I u :=
  invariant_along (G := fun _ _ => True) (fun s a s' hI _ h => hstep s a s' hI h) hs
    (Along.of_forall (fun _ _ => trivial) s as) hrun

/-- **The simulation rule.**  If every step is matched by one of another system, then so
is every run. -/
theorem simulation {T B : Type} {tstep : T → B → Option T} {f : S → T} {I : S → Prop}
    (hstep : ∀ s a s', I s → step s a = some s' → I s' ∧ ∃ b, tstep (f s) b = some (f s'))
    (hs : I s) (hrun : run step s as = some u) : ∃ bs, run tstep (f s) bs = some (f u) := by
  induction as generalizing s with
  | nil => exact ⟨[], congrArg (some ∘ f) (Option.some.inj hrun)⟩
  | cons a as ih =>
    obtain ⟨s', hs', hrun⟩ := run_cons_some hrun
    obtain ⟨hI, b, hb⟩ := hstep s a s' hs hs'
    obtain ⟨bs, hbs⟩ := ih hI hrun
    refine ⟨b :: bs, ?_⟩
    rw [run, hb]
    exact hbs

end StepRuns
