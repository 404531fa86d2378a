import SectProof.ProgEdits
import SectProof.ReferenceGraph

/-! # The links between results

`Prog.WellLinked` is the invariant of the double links between the results of a
program.  The operations of `ProgEdits` are described by what they do to the
references (`Cells.res`) and to the uses (`Cells.uses`), and keep the invariant
by the rules for reference graphs.
-/

namespace Sect.Program

open RefGraph

namespace Cells

variable (cells : Cells)

def res (i : Id) : Option Id := (cells i).res

def uses (i : Id) : List Id := (cells i).uses

theorem set_apply (i : Id) (a : ResultArg) (x : Id) :
    cells.set i a x = if x = i then a else cells x :=
  Function.update_apply cells i a x

theorem res_set (i : Id) (a : ResultArg) (x : Id) :
    (cells.set i a).res x = if x = i then a.res else cells.res x := by
  unfold res
  rw [set_apply, apply_ite ResultArg.res]

theorem uses_set (i : Id) (a : ResultArg) (y : Id) :
    (cells.set i a).uses y = if y = i then a.uses else cells.uses y := by
  unfold uses
  rw [set_apply, apply_ite ResultArg.uses]

theorem res_modifyUses (i : Id) (f : List Id → List Id) :
    (cells.modifyUses i f).res = cells.res := by
  funext x
  unfold modifyUses
  rw [res_set]
  split
  · rename_i h
    rw [h]
    rfl
  · rfl

theorem uses_modifyUses (i : Id) (f : List Id → List Id) (y : Id) :
    (cells.modifyUses i f).uses y = if y = i then f (cells.uses i) else cells.uses y :=
  cells.uses_set i _ y

theorem res_dropUse (a : Id) : (cells.dropUse a).res = cells.res := by
  unfold dropUse
  split
  · exact cells.res_modifyUses _ _
  · rfl

theorem mem_uses_dropUse (a x y : Id) :
    x ∈ (cells.dropUse a).uses y ↔ x ∈ cells.uses y ∧ ¬ (x = a ∧ cells.res a = some y) := by
  unfold dropUse
  split
  · rename_i r hr
    have hres : cells.res a = some r := hr
    rw [uses_modifyUses, hres]
    split
    · rename_i hy
      subst hy
      simp
    · rename_i hy
      simp [Ne.symm hy]
  · rename_i hr
    have hres : cells.res a = none := hr
    rw [hres]
    simp

/-- The references after `replaceResultArg`: only that of `arg` changes. -/
theorem res_replaceResultArg (arg arg1 : Id) (contents : ResultArg) (x : Id) :
    (cells.replaceResultArg arg arg1 contents).res x =
      if x = arg then contents.res else cells.res x := by
  unfold replaceResultArg
  split
  · rw [res_modifyUses, res_set, res_dropUse]
  · rw [res_set, res_dropUse]

theorem mem_uses_replaceResultArg (arg arg1 : Id) (contents : ResultArg) (x y : Id) :
    x ∈ (cells.replaceResultArg arg arg1 contents).uses y ↔
      (contents.res = some y ∧ x = arg) ∨
      (x ∈ cells.uses y ∧ ¬ (x = arg ∧ cells.res arg = some y) ∧
        ¬ (contents.res = some y ∧ x = arg1)) := by
  have hkept : ∀ c : Cells, (c.set arg { contents with uses := (c arg).uses }).uses y = c.uses y := by
    intro c
    rw [uses_set]
    split
    · rename_i hy
      subst hy
      rfl
    · rfl
  unfold replaceResultArg
  split
  · rename_i r hr
    rw [uses_modifyUses]
    split
    · rename_i hy
      subst hy
      rw [List.mem_insert_iff, hkept, List.mem_filter, mem_uses_dropUse, hr]
      simp only [true_and, decide_eq_true_eq]
      tauto
    · rename_i hy
      have hne : contents.res ≠ some y := by
        rw [hr]
        exact fun h => hy (Option.some.inj h).symm
      rw [hkept, mem_uses_dropUse]
      tauto
  · rename_i hr
    have hne : contents.res ≠ some y := by
      rw [hr]
      exact (Option.some_ne_none y).symm
    rw [hkept, mem_uses_dropUse]
    tauto

/-- The references and uses after all the arguments in `us` have been reset. -/
theorem links_resets (target : Target) (us : List Id) (cells : Cells) (x : Id) :
    (us.foldl (reset target) cells).res x = (if x ∈ us then none else cells.res x) ∧
      ∀ y, x ∈ (us.foldl (reset target) cells).uses y ↔
        x ∈ cells.uses y ∧ ¬ (x ∈ us ∧ cells.res x = some y) := by
  induction us generalizing cells with
  | nil => simp
  | cons u us ih =>
    obtain ⟨hres, huses⟩ := ih (cells.reset target u)
    have hres' : (cells.reset target u).res x = if x = u then none else cells.res x :=
      cells.res_replaceResultArg u u _ x
    rw [List.foldl_cons]
    constructor
    · rw [hres, hres']
      by_cases hu : x = u <;> simp [hu]
    intro y
    rw [huses, hres']
    have huses' : x ∈ (cells.reset target u).uses y ↔
        x ∈ cells.uses y ∧ ¬ (x = u ∧ cells.res u = some y) := by
      unfold reset
      rw [mem_uses_replaceResultArg]
      simp [ResultArg.default]
    rw [huses']
    by_cases hu : x = u
    · subst hu
      simp
    · simp [hu]

end Cells

/-! ## Removal -/

section Removal

variable (target : Target) {cells : Cells} {S : Set Id}

/-- What `removeArg` does at one result. -/
theorem removeResult_ok (h : Consistent cells.res cells.uses S) {a : Id} (ha : a ∈ S) :
    ∃ cells', removeResult target cells a = .ok cells' ∧
      (∀ x, cells'.res x = if x ∈ cells.uses a then none else cells.res x) ∧
      ∀ x y, x ∈ cells'.uses y ↔ x ∈ cells.uses y ∧ ¬ (x = a ∧ cells.res a = some y) ∧
        ¬ (x ∈ cells.uses a ∧ cells.res x = some y) := by
  unfold removeResult
  cases hres : (cells a).res with
  | none =>
    refine ⟨_, rfl, fun x => (Cells.links_resets target _ cells x).1, ?_⟩
    intro x y
    rw [(Cells.links_resets target _ cells x).2 y]
    have hne : cells.res a ≠ some y := by
      rw [show cells.res a = none from hres]
      exact (Option.some_ne_none y).symm
    have huses : (cells a).uses = cells.uses a := rfl
    tauto
  | some r =>
    have hr : cells.res a = some r := hres
    have hmem := (h.fwd a ha r hr).2
    have har : a ≠ r := by
      rintro rfl
      exact h.irrefl a ha hr
    dsimp only
    rw [if_pos (show a ∈ (cells r).uses from hmem)]
    have huses : ((cells.modifyUses r (·.filter (· ≠ a))) a).uses = cells.uses a := by
      have := cells.uses_modifyUses r (·.filter (· ≠ a)) a
      rwa [if_neg har] at this
    rw [huses]
    refine ⟨_, rfl, ?_, ?_⟩
    · intro x
      rw [(Cells.links_resets target _ _ x).1, Cells.res_modifyUses]
    intro x y
    rw [(Cells.links_resets target _ _ x).2 y, Cells.res_modifyUses, Cells.uses_modifyUses, hr]
    split
    · rename_i hy
      subst hy
      rw [List.mem_filter]
      simp only [decide_eq_true_eq]
      tauto
    · rename_i hy
      have hne : some r ≠ some y := fun heq => hy (Option.some.inj heq).symm
      tauto

/-- **Removing a result unlinks it** from the others, which stay consistent,
lose their references to it and keep all others. -/
theorem removeResult_consistent (h : Consistent cells.res cells.uses S) {a : Id} (ha : a ∈ S) :
    ∃ cells', removeResult target cells a = .ok cells' ∧
      Consistent cells'.res cells'.uses (S \ {a}) ∧
      (∀ x ∈ S, ∀ y, cells'.res x = some y ↔ cells.res x = some y ∧ y ≠ a) ∧
      (∀ x y, cells'.res x = some y → cells.res x = some y) ∧
      ∀ x y, x ∈ cells'.uses y → x ∈ cells.uses y := by
  obtain ⟨cells', hok, hres, huses⟩ := removeResult_ok target h ha
  have hres' : ∀ x y, cells'.res x = some y ↔ x ∉ cells.uses a ∧ cells.res x = some y := by
    intro x y
    rw [hres]
    split <;> simp_all
  have hkept : ∀ x ∈ S, ∀ y, cells'.res x = some y ↔ cells.res x = some y ∧ y ≠ a := by
    intro x hx y
    rw [hres']
    constructor
    · rintro ⟨hnot, hxy⟩
      refine ⟨hxy, ?_⟩
      rintro rfl
      exact hnot (h.fwd x hx y hxy).2
    · rintro ⟨hxy, hya⟩
      refine ⟨?_, hxy⟩
      intro hmem
      have := (h.bwd a ha x hmem).2
      rw [hxy] at this
      exact hya (Option.some.inj this)
  refine ⟨cells', hok, h.remove (fun x hx _ => hkept x hx) ?_, hkept,
    fun x y hxy => ((hres' x y).mp hxy).2, fun x y hxy => ((huses x y).mp hxy).1⟩
  intro y hy hya x
  rw [huses]
  constructor
  · rintro ⟨hmem, hxa, -⟩
    refine ⟨hmem, ?_⟩
    rintro rfl
    exact hxa ⟨rfl, (h.bwd y hy x hmem).2⟩
  · rintro ⟨hmem, hxa⟩
    refine ⟨hmem, fun hcon => hxa hcon.1, ?_⟩
    rintro ⟨hxa', hxy⟩
    have := (h.bwd a ha x hxa').2
    rw [hxy] at this
    exact hya (Option.some.inj this)

/-- Removing several results, one after the other. -/
theorem removeResults_consistent (rs : List Id) :
    ∀ {cells : Cells} {S : Set Id}, Consistent cells.res cells.uses S → rs.Nodup →
      (∀ a ∈ rs, a ∈ S) →
      ∃ cells', rs.foldlM (removeResult target) cells = .ok cells' ∧
        Consistent cells'.res cells'.uses (S \ {x | x ∈ rs}) ∧
        ∀ x y, cells'.res x = some y → cells.res x = some y := by
  induction rs with
  | nil =>
    intro cells S h _ _
    refine ⟨cells, rfl, ?_, fun _ _ h => h⟩
    have hset : S \ {x | x ∈ ([] : List Id)} = S := by
      ext x
      simp
    rwa [hset]
  | cons a rs ih =>
    intro cells S h hnodup hmem
    rw [List.nodup_cons] at hnodup
    rw [List.forall_mem_cons] at hmem
    obtain ⟨cells₁, hok₁, hcons₁, -, hres₁, -⟩ := removeResult_consistent target h hmem.1
    obtain ⟨cells₂, hok₂, hcons₂, hres₂⟩ := ih hcons₁ hnodup.2 (fun b hb => by
      refine ⟨hmem.2 b hb, ?_⟩
      rintro rfl
      exact hnodup.1 hb)
    refine ⟨cells₂, ?_, ?_, fun x y hxy => hres₁ x y (hres₂ x y hxy)⟩
    · rw [List.foldlM_cons, hok₁]
      exact hok₂
    · have hset : (S \ {a}) \ {x | x ∈ rs} = S \ {x | x ∈ a :: rs} := by
        ext x
        simp only [Set.mem_sdiff, Set.mem_singleton_iff, Set.mem_ofPred_eq, List.mem_cons]
        tauto
      rwa [hset] at hcons₂

end Removal

end Sect.Program
