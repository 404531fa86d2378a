import SectProof.ErrorChecks
import SectProof.WellLinked

/-! # Cloning a program

`Clone` copies the results of a program in the order of `ForeachArg`, redirects
the references between them to the copies and enters every copy into the uses of
the copy it refers to.  **`Prog.WellLinked.clone`** says that the copy is a well
linked program of the same shape, made of new objects only, and that the
original does not change.
-/

open List ErrorChecks Nat Option

namespace Sect.Program

open RefGraph

/-! ## Other identities -/

theorem Arg.renameList_eq (f : Id → Id) (as : List Arg) :
    Arg.rename.renameList f as = as.map (Arg.rename f) := by
  induction as with
  | nil => rfl
  | cons a as ih => rw [Arg.rename.renameList, ih, map_cons]

theorem flatMap_map_congr {α β : Type} {f : α → α} {g : α → List β} {h : β → β}
    {l : List α} (hl : ∀ a ∈ l, g (f a) = (g a).map h) :
    (l.map f).flatMap g = (l.flatMap g).map h := by
  rw [flatMap_map, map_flatMap]
  exact flatMap_congr hl

theorem Arg.results_rename (f : Id → Id) (a : Arg) : (a.rename f).results = a.results.map f := by
  induction a using Arg.induct with
  | pointer id c addr n res ih => simpa [Arg.rename] using ih
  | group id c inner ih =>
    rw [Arg.rename, Arg.renameList_eq, results_group, results_group]
    exact flatMap_map_congr ih
  | union id c option index transient ih => simpa [Arg.rename] using ih
  | _ => rfl

theorem Arg.ids_rename (f : Id → Id) (a : Arg) : (a.rename f).ids = a.ids.map f := by
  induction a using Arg.induct with
  | pointer id c addr n res ih => simpa [Arg.rename] using ih
  | group id c inner ih =>
    rw [Arg.rename, Arg.renameList_eq, ids_group, ids_group, map_cons]
    exact congrArg (f id :: ·) (flatMap_map_congr ih)
  | union id c option index transient ih => simpa [Arg.rename] using ih
  | _ => rfl

theorem toList_map {α β : Type} (f : α → β) (o : Option α) : (o.map f).toList = o.toList.map f := by
  cases o <;> rfl

theorem Call.validated_rename (f : Id → Id) (c : Call) :
    (c.rename f).validated = c.validated.map f := by
  unfold Call.validated Call.argResults Call.rename
  rw [map_append, toList_map, flatMap_map_congr fun a _ => a.results_rename f]

theorem Call.ids_rename (f : Id → Id) (c : Call) : (c.rename f).ids = c.ids.map f := by
  unfold Call.ids Call.rename
  rw [map_append, toList_map, flatMap_map_congr fun a _ => a.ids_rename f]

theorem Prog.validated_rename (f : Id → Id) (p : Prog) :
    (p.rename f).validated = p.validated.map f :=
  flatMap_map_congr fun c _ => c.validated_rename f

theorem Prog.ids_rename (f : Id → Id) (p : Prog) : (p.rename f).ids = p.ids.map f :=
  flatMap_map_congr fun c _ => c.ids_rename f

/-! ## The order of cloning -/

theorem Call.results_perm (c : Call) : c.results.Perm c.validated := perm_append_comm

theorem flatMap_results_perm (calls : List Call) :
    (calls.flatMap Call.results).Perm (calls.flatMap Call.validated) := by
  induction calls with
  | nil => exact .refl _
  | cons c calls ih => exact c.results_perm.append ih

variable {a : Id} {s : Store} {p : Prog} {out : Prog × Store}

/-- A result visited before an argument by `validate` is also cloned before it;
only a return value comes earlier when cloning. -/
theorem pair_sublist_results {r : Id} {calls : List Call} (hret : ∀ c ∈ calls, a ∉ c.ret)
    (hnodup : (calls.flatMap Call.validated).Nodup)
    (h : [r, a].Sublist (calls.flatMap Call.validated)) :
    [r, a].Sublist (calls.flatMap Call.results) := by
  induction calls with
  | nil => exact h
  | cons c calls ih =>
    rw [forall_mem_cons] at hret
    have hnodup' := nodup_append.mp hnodup
    by_cases hr : r ∈ c.validated
    · by_cases ha : a ∈ c.validated
      · have hboth := pair_sublist_left h fun ha' => hnodup'.2.2 a ha a ha' rfl
        have hargs : [r, a].Sublist c.argResults :=
          pair_sublist_left hboth (by simpa [mem_toList] using hret.1)
        exact (hargs.trans (sublist_append_right _ _)).trans (sublist_append_left _ _)
      · have ha' : a ∈ calls.flatMap Call.validated := by
          have : a ∈ c.validated ++ calls.flatMap Call.validated := h.subset (by simp)
          exact (mem_append.mp this).resolve_left ha
        exact (singleton_sublist.mpr (c.results_perm.mem_iff.mpr hr)).append
          (singleton_sublist.mpr ((flatMap_results_perm calls).mem_iff.mpr ha'))
    · exact (ih hret.2 hnodup'.2.1 (pair_sublist_right h hr)).trans (sublist_append_right _ _)

/-! ## Copying the results -/

/-- The copies that exist after the results `done` have been cloned. -/
structure Cloned (s : Store) (done : List Id) (st : List Id × Cells) : Prop where
  seen : ∀ x, x ∈ st.1 ↔ x ∈ done
  old : ∀ i < s.next, st.2 i = s.cells i
  copy : ∀ a ∈ done, { st.2 (s.next + a) with uses := [] } =
    { s.cells a with res := (s.cells.res a).map (s.next + ·), uses := [] }
  uses : ∀ a ∈ done, ∀ z, z ∈ st.2.uses (s.next + a) ↔
    ∃ x ∈ done, s.cells.res x = some a ∧ z = s.next + x
  closed : ∀ x ∈ done, ∀ r, s.cells.res x = some r → r ∈ done

section Step

variable {s : Store} {done : List Id} {st : List Id × Cells} {a : Id}

/-- A further copy: besides it, only the uses of the copy that it refers to change. -/
theorem Cloned.add (h : Cloned s done st) (hnew : a ∉ done)
    (href : ∀ r, s.cells.res a = some r → r ∈ done) {cells : Cells}
    (hold : ∀ i < s.next, cells i = s.cells i)
    (hcopy : ∀ b, { cells (s.next + b) with uses := [] } = { st.2 (s.next + b) with uses := [] })
    (huses : ∀ b z, z ∈ cells.uses (s.next + b) ↔
      z ∈ st.2.uses (s.next + b) ∨ s.cells.res a = some b ∧ z = s.next + a) :
    Cloned s (done ++ [a]) (a :: st.1, cells.set (s.next + a)
      { s.cells a with res := (s.cells.res a).map (s.next + ·), uses := [] }) := by
  have hne : ∀ b ∈ done, s.next + b ≠ s.next + a := by
    intro b hb heq
    exact hnew (add_left_cancel heq ▸ hb)
  refine ⟨?_, ?_, ?_, ?_, ?_⟩
  · intro x
    rw [mem_cons, h.seen, mem_append, mem_singleton]
    exact or_comm
  · intro i hi
    dsimp only
    rw [Cells.set_apply, if_neg (Nat.ne_of_lt (Nat.lt_add_right a hi)), hold i hi]
  · intro b hb
    dsimp only
    rw [Cells.set_apply]
    rcases mem_append.mp hb with hb | hb
    · rw [if_neg (hne b hb)]
      exact (hcopy b).trans (h.copy b hb)
    · rw [mem_singleton.mp hb, if_pos rfl]
  · intro b hb z
    rw [Cells.uses_set]
    rcases mem_append.mp hb with hb | hb
    · rw [if_neg (hne b hb), huses, h.uses b hb]
      simp
    rw [mem_singleton.mp hb, if_pos rfl]
    refine iff_of_false (by simp) ?_
    rintro ⟨x, hx, hxa, -⟩
    rcases mem_append.mp hx with hx | hx
    · exact hnew (h.closed x hx a hxa)
    · exact hnew (href a (mem_singleton.mp hx ▸ hxa))
  · intro x hx r hxr
    rcases mem_append.mp hx with hx | hx
    · exact mem_append_left _ (h.closed x hx r hxr)
    · exact mem_append_left _ (href r (mem_singleton.mp hx ▸ hxr))

theorem Cloned.step (h : Cloned s done st) (hlive : a < s.next) (hnew : a ∉ done)
    (href : ∀ r, s.cells.res a = some r → r ∈ done) :
    ∃ st', cloneResult s.next st a = .ok st' ∧ Cloned s (done ++ [a]) st' := by
  have hold : (s.cells a).res = s.cells.res a := rfl
  rw [cloneResult, h.old a hlive, hold]
  cases hres : s.cells.res a with
  | none =>
    refine ⟨_, rfl, ?_⟩
    have hadd := h.add hnew href h.old (fun _ => rfl) fun b z => by simp [hres]
    rwa [hres, map_none, ← hres] at hadd
  | some r =>
    dsimp only
    rw [if_pos ((h.seen r).mpr (href r hres))]
    refine ⟨_, rfl, ?_⟩
    have hadd := @Cloned.add s done st a h hnew href
      (st.2.modifyUses (s.next + r) (·.insert (s.next + a))) (fun i hi => ?_) (fun b => ?_)
      fun b z => ?_
    · rwa [hres, map_some] at hadd
    · rw [Cells.modifyUses, Cells.set_apply, if_neg (Nat.ne_of_lt (Nat.lt_add_right r hi)), h.old i hi]
    · rw [Cells.modifyUses, Cells.set_apply]
      split
      · rename_i heq
        rw [heq]
      · rfl
    · rw [Cells.uses_modifyUses, hres, some.injEq]
      split
      · rename_i heq
        rw [mem_insert_iff, heq, add_left_cancel heq]
        tauto
      · rename_i heq
        have hbr : r ≠ b := fun hrb => heq (by rw [hrb])
        tauto

end Step

/-- All results of a list are cloned, if each comes after the one it refers to. -/
theorem Cloned.run (rest : List Id) :
    ∀ {done : List Id} {st : List Id × Cells},
    Cloned s done st → (done ++ rest).Nodup → (∀ a ∈ rest, a < s.next) →
    (∀ a ∈ rest, ∀ r, s.cells.res a = some r → [r, a].Sublist (done ++ rest)) →
    ∃ st', rest.foldlM (cloneResult s.next) st = .ok st' ∧ Cloned s (done ++ rest) st' := by
  induction rest with
  | nil =>
    intro done st h _ _ _
    exact ⟨st, rfl, by rwa [append_nil]⟩
  | cons a rest ih =>
    intro done st h hnodup hlive hbefore
    rw [forall_mem_cons] at hlive hbefore
    have hnew : a ∉ done := fun ha =>
      (nodup_append.mp hnodup).2.2 a ha a mem_cons_self rfl
    obtain ⟨st₁, hstep, h₁⟩ := h.step hlive.1 hnew fun r hr =>
      (pair_sublist_split hnodup).mp (hbefore.1 r hr)
    have hassoc : done ++ a :: rest = done ++ [a] ++ rest := by simp
    rw [hassoc] at hnodup hbefore
    obtain ⟨st', hrun, h'⟩ := ih h₁ hnodup hlive.2 hbefore.2
    refine ⟨st', ?_, by rwa [hassoc]⟩
    rw [foldlM_cons, hstep]
    exact hrun

/-- **`Clone` of a well linked program** succeeds.  The copy is well linked and of
the same shape, all of its objects are new, and no old object changes. -/
theorem Prog.WellLinked.clone (h : p.WellLinked s) :
    ∃ s', p.clone s = .ok (p.rename (s.next + ·), s') ∧
      (p.rename (s.next + ·)).WellLinked s' ∧
      (∀ i ∈ (p.rename (s.next + ·)).ids, s.next ≤ i) ∧
      (∀ i < s.next, s'.cells i = s.cells i) ∧
      ∀ a ∈ p.validated, { s'.cells (s.next + a) with uses := [] } =
        { s.cells a with res := (s.cells.res a).map (s.next + ·), uses := [] } := by
  have hperm : (p.calls.flatMap Call.results).Perm p.validated := flatMap_results_perm p.calls
  have hlive : ∀ a ∈ p.validated, a < s.next := fun a ha =>
    h.live a (p.validated_sublist_ids.subset ha)
  obtain ⟨st, hrun, hst⟩ := @Cloned.run s (p.calls.flatMap Call.results) [] ([], s.cells)
    ⟨by simp, fun i _ => rfl, by simp, by simp, by simp⟩
    (by rw [nil_append, hperm.nodup_iff]; exact h.nodup)
    (fun a ha => hlive a (hperm.mem_iff.mp ha))
    (fun a ha r hr => by
      have ha' := hperm.mem_iff.mp ha
      refine pair_sublist_results ?_ h.nodup (h.linked.before a ha' r hr)
      intro c hc hret
      rw [h.ret c hc a hret] at hr
      cases hr)
  rw [nil_append] at hst
  refine ⟨⟨st.2, s.next + s.next⟩, ?_, ⟨?_, ?_, ?_, ?_⟩, ?_, hst.old, ?_⟩
  · unfold Prog.clone
    rw [hrun]
    rfl
  · rw [Prog.ids_rename]
    exact h.tree.map fun x y hxy => add_left_cancel hxy
  · intro i hi
    rw [Prog.ids_rename] at hi
    obtain ⟨j, hj, rfl⟩ := mem_map.mp hi
    exact Nat.add_lt_add_left (h.live j hj) _
  · intro c hc r hr
    obtain ⟨c, hc', rfl⟩ := mem_map.mp hc
    obtain ⟨r, hr', rfl⟩ := map_eq_some_iff.mp (mem_def.mp hr)
    have hmem : r ∈ p.validated := by
      refine mem_flatMap.mpr ⟨c, hc', ?_⟩
      unfold Call.validated
      rw [hr']
      simp
    have hcopy := congrArg ResultArg.res (hst.copy r (hperm.mem_iff.mpr hmem))
    rwa [h.ret c hc' r hr'] at hcopy
  · rw [Prog.validated_rename]
    refine h.linked.image (fun x y hxy => add_left_cancel hxy) ?_ ?_
    · intro a ha
      exact congrArg ResultArg.res (hst.copy a (hperm.mem_iff.mpr ha))
    · intro y hy z
      rw [hst.uses y (hperm.mem_iff.mpr hy)]
      simp only [hperm.mem_iff]
  · intro i hi
    rw [Prog.ids_rename] at hi
    obtain ⟨j, -, rfl⟩ := mem_map.mp hi
    exact le_add_right _ _
  · intro a ha
    exact hst.copy a (hperm.mem_iff.mpr ha)

/-- The copies are used by the copies of the users. -/
theorem Prog.WellLinked.uses_copy {s' : Store} (h : p.WellLinked s)
    (h' : (p.rename (s.next + ·)).WellLinked s')
    (hcopy : ∀ a ∈ p.validated, s'.cells.res (s.next + a) = (s.cells.res a).map (s.next + ·))
    (ha : a ∈ p.validated) (z : Id) :
    z ∈ s'.cells.uses (s.next + a) ↔ ∃ x ∈ s.cells.uses a, z = s.next + x := by
  have hmem : ∀ {x}, x ∈ p.validated → s.next + x ∈ (p.rename (s.next + ·)).validated := by
    intro x hx
    rw [Prog.validated_rename]
    exact mem_map_of_mem hx
  constructor
  · intro hz
    obtain ⟨hz', hres⟩ := h'.linked.consistent.bwd _ (hmem ha) z hz
    have hz'' : z ∈ (p.rename (s.next + ·)).validated := hz'
    rw [Prog.validated_rename] at hz''
    obtain ⟨x, hx, rfl⟩ := mem_map.mp hz''
    rw [hcopy x hx, map_eq_some_iff] at hres
    obtain ⟨b, hb, hba⟩ := hres
    rw [add_left_cancel hba] at hb
    exact ⟨x, (h.linked.consistent.fwd x hx a hb).2, rfl⟩
  · rintro ⟨x, hx, rfl⟩
    obtain ⟨hx', hres⟩ := h.linked.consistent.bwd a ha x hx
    refine (h'.linked.consistent.fwd _ (hmem hx') (s.next + a) ?_).2
    rw [hcopy x hx', hres]
    rfl

/-! ## Programs that cannot be cloned -/

theorem cloneResult_ok {st st' : List Id × Cells} (hold : ∀ i < s.next, st.2 i = s.cells i)
    (h : cloneResult s.next st a = .ok st') :
    st'.1 = a :: st.1 ∧ (∀ i < s.next, st'.2 i = s.cells i) ∧
      ∀ r, (st.2 a).res = some r → r ∈ st.1 := by
  have hset : ∀ (cells : Cells) (b : Id) (x : ResultArg), (∀ i < s.next, cells i = s.cells i) →
      ∀ i < s.next, cells.set (s.next + b) x i = s.cells i := by
    intro cells b x hcells i hi
    have hne : i ≠ s.next + b := Nat.ne_of_lt (Nat.lt_of_lt_of_le hi (Nat.le_add_right _ _))
    rw [Cells.set_apply, if_neg hne, hcells i hi]
  unfold cloneResult at h
  cases hres : (st.2 a).res with
  | none =>
    rw [hres] at h
    cases h
    exact ⟨rfl, hset _ a _ hold, nofun⟩
  | some r =>
    rw [hres] at h
    dsimp only at h
    split at h
    · rename_i hr
      cases h
      refine ⟨rfl, hset _ a _ (hset _ r _ hold), ?_⟩
      rintro _ ⟨⟩
      exact hr
    · cases h

/-- **Cloning does not change an object that exists.** -/
theorem Prog.old_of_clone (h : p.clone s = .ok out) : ∀ i < s.next, out.2.cells i = s.cells i := by
  obtain ⟨st, hrun, hpure⟩ := bind_eq_ok.mp h
  rw [← pure_eq_ok.mp hpure]
  exact foldlM_invariant (I := fun st => ∀ i < s.next, st.2 i = s.cells i)
    (fun _ _ _ _ hold hstep => (cloneResult_ok hold hstep).2.1) (fun i _ => rfl) hrun

/-- A reference that is cloned refers to a result cloned before. -/
theorem cloneResults_before (list : List Id) :
    ∀ {done : List Id}
    {st st' : List Id × Cells}, (∀ x, x ∈ st.1 ↔ x ∈ done) → (∀ i < s.next, st.2 i = s.cells i) →
    (∀ a ∈ list, a < s.next) → list.foldlM (cloneResult s.next) st = .ok st' →
    ∀ l a r, list = l ++ a :: r → ∀ y, s.cells.res a = some y → y ∈ done ++ l := by
  induction list with
  | nil =>
    intro done st st' _ _ _ _ l a r heq
    simp at heq
  | cons b list ih =>
    intro done st st' hseen hold hlive hok l a r heq y hy
    rw [foldlM_cons, bind_eq_ok] at hok
    obtain ⟨st₁, hstep, hrest⟩ := hok
    obtain ⟨hseen₁, hold₁, hbefore⟩ := cloneResult_ok hold hstep
    rw [forall_mem_cons] at hlive
    cases l with
    | nil =>
      cases heq
      rw [append_nil, ← hseen]
      refine hbefore y ?_
      rw [hold b hlive.1]
      exact hy
    | cons b' l =>
      cases heq
      rw [append_cons]
      refine ih ?_ hold₁ hlive.2 hrest l a r rfl y hy
      intro x
      rw [hseen₁, mem_cons, mem_append, mem_singleton, hseen]
      exact or_comm

/-- **A program is cloned only if every reference points backwards** in the order
in which the results are copied. -/
theorem Prog.refs_before_of_clone (hlive : ∀ i ∈ p.ids, i < s.next) (hok : p.clone s = .ok out)
    {l r : List Id} {x : Id} (hsplit : p.calls.flatMap Call.results = l ++ x :: r) {y : Id}
    (hxy : s.cells.res x = some y) : y ∈ l := by
  have hperm := flatMap_results_perm p.calls
  unfold Prog.clone at hok
  rw [bind_eq_ok] at hok
  obtain ⟨st, hfold, -⟩ := hok
  have hmem : y ∈ [] ++ l := cloneResults_before (p.calls.flatMap Call.results)
    (fun _ => .rfl) (fun _ _ => rfl)
    (fun a ha => hlive a (p.validated_sublist_ids.subset (hperm.mem_iff.mp ha))) hfold l x r hsplit
    y hxy
  exact hmem

/-- A program with a result that refers to itself cannot be cloned: the map of
copies has no entry for it yet. -/
theorem Prog.res_ne_self_of_clone (hnodup : p.validated.Nodup) (hlive : ∀ i ∈ p.ids, i < s.next)
    (hok : p.clone s = .ok out) : ∀ x ∈ p.validated, s.cells.res x ≠ some x := by
  intro x hx hself
  have hperm := flatMap_results_perm p.calls
  obtain ⟨l, r, hsplit⟩ := append_of_mem (hperm.mem_iff.mpr hx)
  have hmem : x ∈ l := Prog.refs_before_of_clone hlive hok hsplit hself
  have hnodup' : (p.calls.flatMap Call.results).Nodup := hperm.nodup_iff.mpr hnodup
  rw [hsplit] at hnodup'
  exact (nodup_append.mp hnodup').2.2 x hmem x mem_cons_self rfl

end Sect.Program
