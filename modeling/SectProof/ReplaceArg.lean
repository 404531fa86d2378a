import SectProof.WellLinked

/-! # Replacing an argument

`replaceArg` changes a tree and the links of the results in it.  The new tree
(`Arg.replaced`) and the list of changes to the links (`Arg.replaceSteps`) depend
on the two trees only.  A pointer is overwritten without a look at its old
pointee: the results in there (`Arg.lost`) leave the tree with their links.
-/

open List

namespace Sect.Program

open RefGraph

/-- A change to the links: `arg` takes the place of `arg1`, or is removed. -/
inductive LinkStep
  | move (arg arg1 : Id)
  | drop (arg : Id)
  deriving DecidableEq

namespace LinkStep

/-- The old argument a step is about. -/
def old : LinkStep → Id
  | move arg _ | drop arg => arg

def moved? : LinkStep → Option Id
  | move arg _ => some arg
  | drop _ => none

def new? : LinkStep → Option Id
  | move _ arg1 => some arg1
  | drop _ => none

def dropped? : LinkStep → Option Id
  | move _ _ => none
  | drop arg => some arg

end LinkStep

def LinkStep.run (target : Target) (cells : Cells) : LinkStep → Except Panic Cells
  | move arg arg1 => pure (cells.replaceResultArg arg arg1 (cells arg1))
  | drop arg => removeResult target cells arg

namespace Arg

/-- The arguments are of the same kind, as arguments of the same type are. -/
def sameKind (target : Target) : Arg → Arg → Bool
  | const .., const .. | data .., data .. | union .., union .. | result _, result _ => true
  | address .., b | pointer .., b => b.isPointer
  | group _ c inner, group _ _ inner1 =>
    (!(target.types c.ref).isStruct || inner.length == inner1.length) && sameKindList inner inner1
  | _, _ => false
where
  sameKindList : List Arg → List Arg → Bool
    | a :: as, b :: bs => a.sameKind target b && sameKindList as bs
    | _, _ => true

/-- The tree `replaceArg` makes of `a`. -/
def replaced : Arg → Arg → Arg
  | group id _ inner, group _ c1 inner1 =>
    group id c1 (replacedList inner inner1 ++ inner1.drop inner.length)
  | a, b => b.setId a.id
where
  replacedList : List Arg → List Arg → List Arg
    | a :: as, b :: bs => a.replaced b :: replacedList as bs
    | _, _ => []

/-- What `replaceArg` does to the links. -/
def replaceSteps : Arg → Arg → List LinkStep
  | result i, result j => [.move i j]
  | union _ _ option _ _, _ => option.results.map .drop
  | group _ _ inner, group _ _ inner1 =>
    stepsList inner inner1 ++
      (inner.drop inner1.length).reverse.flatMap fun a => a.results.map .drop
  | _, _ => []
where
  stepsList : List Arg → List Arg → List LinkStep
    | a :: as, b :: bs => a.replaceSteps b ++ stepsList as bs
    | _, _ => []

/-- The results behind the pointers that are overwritten. -/
def lost : Arg → Arg → List Id
  | pointer _ _ _ _ res, _ => res.results
  | group _ _ inner, group _ _ inner1 => lostList inner inner1
  | _, _ => []
where
  lostList : List Arg → List Arg → List Id
    | a :: as, b :: bs => a.lost b ++ lostList as bs
    | _, _ => []

/-- The results of the new argument that enter the tree as they are. -/
def taken : Arg → Arg → List Id
  | result _, _ => []
  | group _ _ inner, group _ _ inner1 =>
    takenList inner inner1 ++ (inner1.drop inner.length).flatMap results
  | _, b => b.results
where
  takenList : List Arg → List Arg → List Id
    | a :: as, b :: bs => a.taken b ++ takenList as bs
    | _, _ => []

end Arg

theorem foldlM_drop (target : Target) (rs : List Id) (cells : Cells) :
    (rs.map LinkStep.drop).foldlM (LinkStep.run target) cells =
      rs.foldlM (removeResult target) cells := by
  induction rs generalizing cells with
  | nil => rfl
  | cons r rs ih =>
    exact bind_congr fun cells => ih cells

theorem foldlM_dropArgs (target : Target) (as : List Arg) (cells : Cells) :
    (as.flatMap fun a => a.results.map LinkStep.drop).foldlM (LinkStep.run target) cells =
      removeArgs target cells as := by
  rw [removeArgs_eq, ← map_flatMap, foldlM_drop]

/-- The same for the elements that two groups have in common. -/
theorem replaceArgs_eq (target : Target) (as : List Arg)
    (ih : ∀ a ∈ as, ∀ (b : Arg) (cells : Cells), a.sameKind target b = true →
      (∀ i ∈ a.ids, i ∉ b.ids) → replaceArg target cells a b =
        (a.replaceSteps b).foldlM (LinkStep.run target) cells >>= fun cells' =>
          pure (a.replaced b, cells')) :
    ∀ (bs : List Arg) (cells : Cells), Arg.sameKind.sameKindList target as bs = true →
      (∀ i ∈ as.flatMap Arg.ids, i ∉ bs.flatMap Arg.ids) →
      replaceArg.replaceArgs target cells as bs =
        (Arg.replaceSteps.stepsList as bs).foldlM (LinkStep.run target) cells >>= fun cells' =>
          pure (Arg.replaced.replacedList as bs, cells') := by
  induction as with
  | nil =>
    intro bs cells _ _
    rfl
  | cons a as iha =>
    intro bs cells hm hids
    cases bs with
    | nil => rfl
    | cons b bs =>
      rw [forall_mem_cons] at ih
      rw [Arg.sameKind.sameKindList, Bool.and_eq_true] at hm
      simp only [flatMap_cons, mem_append, not_or] at hids
      rw [replaceArg.replaceArgs, ih.1 b cells hm.1 (fun i hi => (hids i (Or.inl hi)).1),
        Arg.replaceSteps.stepsList, foldlM_append, bind_assoc, bind_assoc]
      refine bind_congr fun cells => ?_
      rw [pure_bind]
      dsimp only
      rw [iha ih.2 bs cells hm.2 (fun i hi => (hids i (Or.inr hi)).2), bind_assoc]
      rfl

/-- **`replaceArg` is a list of steps on the links**, and a change of the tree. -/
theorem replaceArg_eq (target : Target) (a : Arg) : ∀ (b : Arg) (cells : Cells),
    a.sameKind target b = true → (∀ i ∈ a.ids, i ∉ b.ids) →
    replaceArg target cells a b =
      (a.replaceSteps b).foldlM (LinkStep.run target) cells >>= fun cells' =>
        pure (a.replaced b, cells') := by
  induction a using Arg.induct with
  | group id c inner ih =>
    intro b cells hm hids
    cases b with
    | group id1 c1 inner1 =>
      rw [Arg.sameKind, Bool.and_eq_true] at hm
      simp only [Arg.ids_group, mem_cons, not_or] at hids
      have hlen : ¬ ((target.types c.ref).isStruct ∧ inner.length ≠ inner1.length) := by
        have := hm.1
        simp only [Bool.or_eq_true, Bool.not_eq_true', beq_iff_eq] at this
        rintro ⟨hs, hne⟩
        rcases this with h | h
        · rw [h] at hs
          cases hs
        · exact hne h
      have hne : (Arg.group id c inner).id ≠ (Arg.group id1 c1 inner1).id :=
        (hids id (.inl rfl)).1
      rw [replaceArg, if_neg hne]
      rw [if_neg hlen, replaceArgs_eq target inner ih inner1 cells hm.2
        (fun i hi => (hids i (.inr hi)).2), Arg.replaceSteps, foldlM_append, bind_assoc,
        bind_assoc]
      refine bind_congr fun cells => ?_
      rw [pure_bind, foldlM_dropArgs]
      rfl
    | _ => simp [Arg.sameKind] at hm
  | union id c option index transient ih =>
    intro b cells hm hids
    cases b with
    | union id1 c1 option1 index1 transient1 =>
      have hne : (Arg.union id c option index transient).id ≠
          (Arg.union id1 c1 option1 index1 transient1).id := by
        simp only [Arg.ids_union, mem_cons, not_or] at hids
        exact (hids id (Or.inl rfl)).1
      rw [replaceArg, if_neg hne, Arg.replaceSteps, foldlM_drop]
      rfl
    | _ => simp [Arg.sameKind] at hm
  | _ =>
    intro b cells hm hids
    cases b <;> simp_all [Arg.sameKind, replaceArg, Arg.replaceSteps, Arg.replaced, Arg.setId,
      Arg.id, Arg.isPointer, LinkStep.run]

/-! ## Which results go where -/

/-- Every old result is kept, dropped or lost, every new one is moved onto an old
one or taken over, and the new tree has those kept and those taken over. -/
structure Arg.Accounted (a b : Arg) : Prop where
  old : ∀ x, ((a.replaceSteps b).map LinkStep.old).count x + (a.lost b).count x =
    a.results.count x
  new : ∀ x, ((a.replaceSteps b).filterMap LinkStep.new?).count x + (a.taken b).count x =
    b.results.count x
  tree : ∀ x, (a.replaced b).results.count x =
    ((a.replaceSteps b).filterMap LinkStep.moved?).count x + (a.taken b).count x

theorem map_old_drop (rs : List Id) : (rs.map LinkStep.drop).map LinkStep.old = rs := by
  rw [map_map]
  exact map_id rs

theorem new_drop (rs : List Id) : (rs.map LinkStep.drop).filterMap LinkStep.new? = [] := by
  rw [filterMap_map]
  exact filterMap_eq_nil_iff.mpr fun _ _ => rfl

theorem moved_drop (rs : List Id) : (rs.map LinkStep.drop).filterMap LinkStep.moved? = [] := by
  rw [filterMap_map]
  exact filterMap_eq_nil_iff.mpr fun _ _ => rfl

/-- The account of an argument that is overwritten. -/
theorem accounted_overwrite {a b : Arg} (hsteps : a.replaceSteps b = [])
    (htree : (a.replaced b).results = b.results) (htaken : a.taken b = b.results)
    (hlost : a.lost b = a.results) : a.Accounted b := by
  refine ⟨fun x => ?_, fun x => ?_, fun x => ?_⟩
  · rw [hsteps, hlost]
    exact Nat.zero_add _
  · rw [hsteps, htaken]
    exact Nat.zero_add _
  · rw [hsteps, htaken, htree]
    exact (Nat.zero_add _).symm

section Accounting

variable {target : Target}

/-- The account of the elements two groups have in common. -/
theorem accounted_list (as : List Arg)
    (ih : ∀ a ∈ as, ∀ b, a.sameKind target b = true → a.Accounted b) :
    ∀ bs, Arg.sameKind.sameKindList target as bs = true → ∀ x,
      ((Arg.replaceSteps.stepsList as bs).map LinkStep.old).count x +
          (Arg.lost.lostList as bs).count x + ((as.drop bs.length).flatMap Arg.results).count x =
        (as.flatMap Arg.results).count x ∧
      ((Arg.replaceSteps.stepsList as bs).filterMap LinkStep.new?).count x +
          (Arg.taken.takenList as bs).count x + ((bs.drop as.length).flatMap Arg.results).count x =
        (bs.flatMap Arg.results).count x ∧
      ((Arg.replaced.replacedList as bs).flatMap Arg.results).count x =
        ((Arg.replaceSteps.stepsList as bs).filterMap LinkStep.moved?).count x +
          (Arg.taken.takenList as bs).count x := by
  induction as with
  | nil =>
    intro bs _ x
    simp [Arg.replaceSteps.stepsList, Arg.lost.lostList, Arg.taken.takenList,
      Arg.replaced.replacedList]
  | cons a as iha =>
    intro bs hm x
    cases bs with
    | nil =>
      simp [Arg.replaceSteps.stepsList, Arg.lost.lostList, Arg.taken.takenList,
        Arg.replaced.replacedList]
    | cons b bs =>
      rw [forall_mem_cons] at ih
      rw [Arg.sameKind.sameKindList, Bool.and_eq_true] at hm
      obtain ⟨hold, hnew, htree⟩ := iha ih.2 bs hm.2 x
      have hhead := ih.1 b hm.1
      have h1 := hhead.old x
      have h2 := hhead.new x
      have h3 := hhead.tree x
      simp only [Arg.replaceSteps.stepsList, Arg.lost.lostList, Arg.taken.takenList,
        Arg.replaced.replacedList, map_append, filterMap_append, count_append,
        flatMap_cons, length_cons, drop_succ_cons]
      omega

theorem accounted (a : Arg) : ∀ b, a.sameKind target b = true → a.Accounted b := by
  induction a using Arg.induct with
  | group id c inner ih =>
    intro b hm
    cases b with
    | group id1 c1 inner1 =>
      rw [Arg.sameKind, Bool.and_eq_true] at hm
      have hlist := accounted_list inner ih inner1 hm.2
      have hdrop : ∀ x, ((inner.drop inner1.length).reverse.flatMap Arg.results).count x =
          ((inner.drop inner1.length).flatMap Arg.results).count x := fun x =>
        ((reverse_perm _).flatMap_right _).count_eq x
      have hsteps : (inner.drop inner1.length).reverse.flatMap
          (fun a => a.results.map LinkStep.drop) =
          ((inner.drop inner1.length).reverse.flatMap Arg.results).map LinkStep.drop :=
        map_flatMap.symm
      refine ⟨fun x => ?_, fun x => ?_, fun x => ?_⟩
      all_goals
        obtain ⟨hold, hnew, htree⟩ := hlist x
        have hx := hdrop x
        simp only [Arg.replaceSteps, Arg.lost, Arg.taken, Arg.replaced, hsteps, map_append,
          filterMap_append, count_append, map_old_drop, Arg.results_group,
          flatMap_append, new_drop, moved_drop, count_nil]
        omega
    | _ => simp [Arg.sameKind] at hm
  | union id c option index transient ih =>
    intro b hm
    cases b with
    | union id1 c1 option1 index1 transient1 =>
      refine ⟨fun x => ?_, fun x => ?_, fun x => ?_⟩
      all_goals
        simp only [Arg.replaceSteps, Arg.lost, Arg.taken, Arg.replaced, Arg.setId, map_old_drop,
          new_drop, moved_drop, Arg.results_union, count_nil, Nat.add_zero, Nat.zero_add]
    | _ => simp [Arg.sameKind] at hm
  | result id =>
    intro b hm
    cases b with
    | result id1 =>
      refine ⟨fun x => ?_, fun x => ?_, fun x => ?_⟩
      all_goals
        simp [Arg.replaceSteps, Arg.lost, Arg.taken, Arg.replaced, Arg.setId, Arg.id, LinkStep.old,
          LinkStep.new?, LinkStep.moved?]
    | _ => simp [Arg.sameKind] at hm
  | _ =>
    intro b hm
    cases b <;>
      first
      | exact accounted_overwrite rfl rfl rfl rfl
      | simp [Arg.sameKind, Arg.isPointer] at hm

end Accounting

/-! ## Running the steps -/

/-- The steps can be run: they are about different results of `S`, and the new
ones are unused and refer to results with `P` only, which no step is about. -/
structure Ready (P : Id → Prop) (steps : List LinkStep) (cells : Cells) (S : Set Id) : Prop where
  consistent : Consistent cells.res cells.uses S
  nodup : (steps.map LinkStep.old ++ steps.filterMap LinkStep.new?).Nodup
  inside : ∀ x ∈ steps.map LinkStep.old ++ steps.filterMap LinkStep.new?, x ∈ S ∧ ¬ P x
  unused : ∀ f ∈ steps.filterMap LinkStep.new?, ∀ z, z ∉ cells.uses f
  refs : ∀ f ∈ steps.filterMap LinkStep.new?, ∀ y, cells.res f = some y → P y

/-- What the steps have done. -/
structure Ran (P : Id → Prop) (steps : List LinkStep) (cells cells' : Cells) (S : Set Id) :
    Prop where
  consistent : Consistent cells'.res cells'.uses
    (S \ {x | x ∈ steps.filterMap LinkStep.new? ∨ x ∈ steps.filterMap LinkStep.dropped?})
  moved : ∀ a ∈ steps.filterMap LinkStep.moved?, ∀ y, cells'.res a = some y → P y
  rest : ∀ x ∈ S, x ∉ steps.map LinkStep.old → x ∉ steps.filterMap LinkStep.new? → ∀ y,
    cells'.res x = some y ↔ cells.res x = some y ∧ y ∉ steps.filterMap LinkStep.dropped?

theorem move_consistent {cells : Cells} {S : Set Id} (h : Consistent cells.res cells.uses S)
    {a f : Id} (ha : a ∈ S) (hf : f ∈ S) (haf : a ≠ f) (hunused : ∀ z, z ∉ cells.uses f)
    (hfa : cells.res f ≠ some a) :
    Consistent (cells.replaceResultArg a f (cells f)).res
      (cells.replaceResultArg a f (cells f)).uses (S \ {f}) := by
  refine h.retarget ha hf haf hunused hfa ?_ ?_
  · intro x _ _ y
    rw [Cells.res_replaceResultArg]
    split
    · rename_i hxa
      simp [hxa]
      rfl
    · rename_i hxa
      simp [hxa]
  · intro y hy _ x
    have hf' : (cells f).res = cells.res f := rfl
    rw [Cells.mem_uses_replaceResultArg, hf']
    have hback : x ∈ cells.uses y → cells.res x = some y := fun hx => (h.bwd y hy x hx).2
    constructor
    · rintro (⟨hfy, hxa⟩ | ⟨hmem, hna, hnf⟩)
      · exact .inl ⟨hxa, hfy⟩
      · refine .inr ⟨?_, ?_, hmem⟩
        · rintro rfl
          exact hna ⟨rfl, hback hmem⟩
        · rintro rfl
          exact hnf ⟨hback hmem, rfl⟩
    · rintro (⟨hxa, hfy⟩ | ⟨hxa, hxf, hmem⟩)
      · exact .inl ⟨hfy, hxa⟩
      · exact .inr ⟨hmem, fun hc => hxa hc.1, fun hc => hxf hc.2⟩

section Run

variable {P : Id → Prop} {steps : List LinkStep} {cells : Cells} {S : Set Id} {a f : Id}

/-- The results of a first step that moves are not those of the further steps. -/
theorem Ready.move_nodup (h : Ready P (.move a f :: steps) cells S) :
    (a ∉ steps.map LinkStep.old ∧ a ≠ f ∧ a ∉ steps.filterMap LinkStep.new?) ∧
      f ∉ steps.map LinkStep.old ++ steps.filterMap LinkStep.new? ∧
      (steps.map LinkStep.old ++ steps.filterMap LinkStep.new?).Nodup := by
  have hnodup := h.nodup
  simp only [map_cons, filterMap_cons, LinkStep.old, LinkStep.new?, cons_append]
    at hnodup
  rw [nodup_cons, nodup_middle, nodup_cons, mem_append, mem_cons, not_or,
    not_or] at hnodup
  exact hnodup

theorem Ready.move (h : Ready P (.move a f :: steps) cells S) :
    Ready P steps (cells.replaceResultArg a f (cells f)) (S \ {f}) := by
  have hinside := h.inside
  have hunused := h.unused
  have hrefs := h.refs
  simp only [map_cons, filterMap_cons, LinkStep.old, LinkStep.new?, cons_append,
    forall_mem_cons, forall_mem_append] at hinside hunused hrefs
  obtain ⟨⟨haS, haP⟩, hold, ⟨hfS, hfP⟩, hnew⟩ := hinside
  obtain ⟨⟨haold, haf, hanew⟩, hfnew, hnodup⟩ := h.move_nodup
  refine ⟨move_consistent h.consistent haS hfS haf hunused.1 fun hfa => haP (hrefs.1 a hfa),
    hnodup, ?_, ?_, ?_⟩
  · intro x hx
    have hxS : x ∈ S ∧ ¬ P x := by
      rcases mem_append.mp hx with hx | hx
      · exact hold x hx
      · exact hnew x hx
    refine ⟨⟨hxS.1, ?_⟩, hxS.2⟩
    rintro rfl
    exact hfnew hx
  · intro g hg z
    rw [Cells.mem_uses_replaceResultArg]
    rintro (⟨hfg, -⟩ | ⟨hmem, -⟩)
    · exact (hnew g hg).2 (hrefs.1 g hfg)
    · exact hunused.2 g hg z hmem
  · intro g hg y hgy
    rw [Cells.res_replaceResultArg, if_neg (by rintro rfl; exact hanew hg)] at hgy
    exact hrefs.2 g hg y hgy

theorem Ready.drop (h : Ready P (.drop a :: steps) cells S) (target : Target) :
    ∃ cells', removeResult target cells a = .ok cells' ∧ Ready P steps cells' (S \ {a}) ∧
      ∀ x ∈ S, ∀ y, cells'.res x = some y ↔ cells.res x = some y ∧ y ≠ a := by
  have hnodup := h.nodup
  have hinside := h.inside
  simp only [map_cons, filterMap_cons, LinkStep.old, LinkStep.new?, cons_append,
    forall_mem_cons] at hnodup hinside
  rw [nodup_cons] at hnodup
  obtain ⟨cells', hok, hcons, hres, hres', huses⟩ :=
    removeResult_consistent target h.consistent hinside.1.1
  refine ⟨cells', hok, ⟨hcons, hnodup.2, ?_, ?_, ?_⟩, hres⟩
  · intro x hx
    refine ⟨⟨(hinside.2 x hx).1, ?_⟩, (hinside.2 x hx).2⟩
    rintro rfl
    exact hnodup.1 hx
  · intro g hg z hz
    exact h.unused g hg z (huses z g hz)
  · intro g hg y hgy
    exact h.refs g hg y (hres' g y hgy)

/-- The results that are left after a first step and further ones. -/
theorem sdiff_cons {step : LinkStep} (g : Id)
    (h : ∀ x, x ∈ (step :: steps).filterMap LinkStep.new? ∨
      x ∈ (step :: steps).filterMap LinkStep.dropped? ↔
        x = g ∨ x ∈ steps.filterMap LinkStep.new? ∨ x ∈ steps.filterMap LinkStep.dropped?) :
    S \ {x | x ∈ (step :: steps).filterMap LinkStep.new? ∨
        x ∈ (step :: steps).filterMap LinkStep.dropped?} =
      (S \ {g}) \ {x | x ∈ steps.filterMap LinkStep.new? ∨
        x ∈ steps.filterMap LinkStep.dropped?} := by
  ext x
  simp only [Set.mem_sdiff, Set.mem_singleton_iff, Set.mem_ofPred_eq, h, not_or, and_assoc]

/-- **The steps run through**, and leave the rest of the results consistent. -/
theorem Ready.run (target : Target) : ∀ {steps : List LinkStep} {cells : Cells} {S : Set Id},
    Ready P steps cells S →
    ∃ cells', steps.foldlM (LinkStep.run target) cells = .ok cells' ∧
      Ran P steps cells cells' S := by
  intro steps
  induction steps with
  | nil =>
    intro cells S h
    refine ⟨cells, rfl, ?_, by simp, by simp⟩
    have hset : S \ {x | x ∈ ([] : List LinkStep).filterMap LinkStep.new? ∨
        x ∈ ([] : List LinkStep).filterMap LinkStep.dropped?} = S := by
      ext x
      simp
    rw [hset]
    exact h.consistent
  | cons step steps ih =>
    intro cells S h
    cases step with
    | move a f =>
      obtain ⟨cells', hok, hran⟩ := ih h.move
      have hinside := (h.inside a (by simp [LinkStep.old])).1
      have hrefs := h.refs f (by simp [LinkStep.new?])
      obtain ⟨⟨haold, haf, hanew⟩, -⟩ := h.move_nodup
      refine ⟨cells', hok, ?_, ?_, ?_⟩
      · rw [sdiff_cons f fun x => by simp [LinkStep.new?, LinkStep.dropped?, or_assoc]]
        exact hran.consistent
      · intro b hb y hby
        simp only [filterMap_cons, LinkStep.moved?, mem_cons] at hb
        rcases hb with rfl | hb
        · have hb' := (hran.rest b ⟨hinside, haf⟩ haold hanew y).mp hby
          rw [Cells.res_replaceResultArg, if_pos rfl] at hb'
          exact hrefs y hb'.1
        · exact hran.moved b hb y hby
      · intro x hx hxold hxnew y
        simp only [map_cons, filterMap_cons, LinkStep.old, LinkStep.new?, mem_cons,
          not_or] at hxold hxnew
        rw [hran.rest x ⟨hx, hxnew.1⟩ hxold.2 hxnew.2, Cells.res_replaceResultArg,
          if_neg hxold.1]
        rfl
    | drop a =>
      obtain ⟨cells₁, hok₁, hready, hres₁⟩ := h.drop target
      obtain ⟨cells', hok, hran⟩ := ih hready
      refine ⟨cells', ?_, ?_, ?_, ?_⟩
      · change removeResult target cells a >>= _ = _
        rw [hok₁]
        exact hok
      · rw [sdiff_cons a fun x => by simp [LinkStep.new?, LinkStep.dropped?, or_left_comm]]
        exact hran.consistent
      · intro b hb
        exact hran.moved b hb
      · intro x hx hxold hxnew y
        simp only [map_cons, filterMap_cons, LinkStep.old, LinkStep.new?,
          LinkStep.dropped?, mem_cons, not_or] at hxold hxnew ⊢
        rw [hran.rest x ⟨hx, hxold.1⟩ hxold.2 hxnew, hres₁ x hx]
        tauto

end Run

/-! ## The objects of the new tree -/

theorem Arg.ids_eq_cons (a : Arg) : a.ids = a.id :: a.ids.tail := by
  cases a <;> simp [Arg.id]

theorem Arg.ids_setId (b : Arg) (i : Id) : (b.setId i).ids = i :: b.ids.tail := by
  cases b <;> simp [Arg.setId]

theorem count_ids_setId (a b : Arg) (x : Id) :
    (b.setId a.id).ids.count x ≤ a.ids.count x + b.ids.count x := by
  rw [b.ids_setId, a.ids_eq_cons, b.ids_eq_cons, tail_cons]
  simp only [count_cons]
  omega

theorem count_ids_replacedList (as : List Arg)
    (ih : ∀ a ∈ as, ∀ b x, (a.replaced b).ids.count x ≤ a.ids.count x + b.ids.count x) :
    ∀ bs x, ((Arg.replaced.replacedList as bs).flatMap Arg.ids).count x +
        ((bs.drop as.length).flatMap Arg.ids).count x ≤
      (as.flatMap Arg.ids).count x + (bs.flatMap Arg.ids).count x := by
  induction as with
  | nil =>
    intro bs x
    simp [Arg.replaced.replacedList]
  | cons a as iha =>
    intro bs x
    cases bs with
    | nil => simp [Arg.replaced.replacedList]
    | cons b bs =>
      rw [forall_mem_cons] at ih
      have hhead := ih.1 b x
      have htail := iha ih.2 bs x
      simp only [Arg.replaced.replacedList, flatMap_cons, count_append, length_cons,
        drop_succ_cons]
      omega

/-- Every object of the new tree is one of the old or of the new argument. -/
theorem count_ids_replaced (a : Arg) :
    ∀ b x, (a.replaced b).ids.count x ≤ a.ids.count x + b.ids.count x := by
  induction a using Arg.induct with
  | group id c inner ih =>
    intro b x
    cases b with
    | group id1 c1 inner1 =>
      have hlist := count_ids_replacedList inner ih inner1 x
      simp only [Arg.replaced, Arg.ids_group, count_cons, flatMap_append,
        count_append]
      omega
    | _ => simpa only [Arg.replaced] using count_ids_setId (.group id c inner) _ x
  | _ =>
    intro b x
    exact count_ids_setId _ b x

/-! ## Replacement in a program -/

namespace Arg

/-- The results of `a` that are removed when it is replaced by `b`. -/
def dropped (a b : Arg) : List Id := (a.replaceSteps b).filterMap LinkStep.dropped?

end Arg

/-- No link leads out of the overwritten pointees into the program that is left:
their results refer to each other or to removed results only, and no argument
behind the replaced one refers to them. -/
def Isolated (cells : Cells) (lost dropped post : List Id) : Prop :=
  (∀ x ∈ lost, ∀ y, cells.res x = some y → y ∈ lost ∨ y ∈ dropped) ∧
    ∀ x ∈ post, ∀ y, cells.res x = some y → y ∉ lost

section Membership

variable {target : Target} {a b : Arg}

theorem mem_old_iff (steps : List LinkStep) (x : Id) : x ∈ steps.map LinkStep.old ↔
    x ∈ steps.filterMap LinkStep.moved? ∨ x ∈ steps.filterMap LinkStep.dropped? := by
  induction steps with
  | nil => simp
  | cons step steps ih =>
    cases step <;>
      simp only [map_cons, filterMap_cons, LinkStep.old, LinkStep.moved?,
        LinkStep.dropped?, mem_cons, ih] <;> tauto

theorem count_old (steps : List LinkStep) (x : Id) : (steps.map LinkStep.old).count x =
    (steps.filterMap LinkStep.moved?).count x + (steps.filterMap LinkStep.dropped?).count x := by
  induction steps with
  | nil => rfl
  | cons step steps ih =>
    cases step <;>
      simp only [map_cons, filterMap_cons, LinkStep.old, LinkStep.moved?,
        LinkStep.dropped?, count_cons, ih] <;> omega

/-- Where the results of two trees without common objects go. -/
structure Arg.Sorted (a b : Arg) : Prop where
  nodup : ((a.replaceSteps b).map LinkStep.old ++
    (a.replaceSteps b).filterMap LinkStep.new?).Nodup
  old : ∀ x, x ∈ a.results ↔
    x ∈ (a.replaceSteps b).map LinkStep.old ∨ x ∈ a.lost b
  new : ∀ x, x ∈ b.results ↔ x ∈ (a.replaceSteps b).filterMap LinkStep.new? ∨ x ∈ a.taken b
  tree : ∀ x, x ∈ (a.replaced b).results ↔
    x ∈ (a.replaceSteps b).filterMap LinkStep.moved? ∨ x ∈ a.taken b
  moved : ∀ x ∈ (a.replaceSteps b).filterMap LinkStep.moved?, x ∉ a.dropped b
  lost : ∀ x ∈ a.lost b, x ∉ (a.replaceSteps b).map LinkStep.old
  taken : ∀ x ∈ a.taken b, x ∉ (a.replaceSteps b).filterMap LinkStep.new?

theorem Arg.sorted (hkind : a.sameKind target b = true) (ha : a.results.Nodup)
    (hb : b.results.Nodup) (hab : ∀ x ∈ a.results, x ∉ b.results) : a.Sorted b := by
  obtain ⟨hold, hnew, htree⟩ := accounted a b hkind
  have ha' := nodup_iff_count_le_one.mp ha
  have hb' := nodup_iff_count_le_one.mp hb
  have hmemold : ∀ x, x ∈ a.results ↔
      x ∈ (a.replaceSteps b).map LinkStep.old ∨ x ∈ a.lost b := by
    intro x
    simp only [← count_pos_iff]
    have := hold x
    omega
  have hmemnew : ∀ x, x ∈ b.results ↔
      x ∈ (a.replaceSteps b).filterMap LinkStep.new? ∨ x ∈ a.taken b := by
    intro x
    simp only [← count_pos_iff]
    have := hnew x
    omega
  refine ⟨?_, hmemold, hmemnew, ?_, ?_, ?_, ?_⟩
  · rw [nodup_append, nodup_iff_count_le_one, nodup_iff_count_le_one]
    refine ⟨fun x => ?_, fun x => ?_, ?_⟩
    · have := hold x
      have := ha' x
      omega
    · have := hnew x
      have := hb' x
      omega
    · rintro x hx y hy rfl
      exact hab x ((hmemold x).mpr (.inl hx)) ((hmemnew x).mpr (.inl hy))
  · intro x
    simp only [← count_pos_iff]
    have := htree x
    omega
  · intro x hx hx'
    unfold Arg.dropped at hx'
    rw [← count_pos_iff] at hx hx'
    have := hold x
    have := ha' x
    have := count_old (a.replaceSteps b) x
    omega
  · intro x hx hx'
    rw [← count_pos_iff] at hx hx'
    have := hold x
    have := ha' x
    omega
  · intro x hx hx'
    rw [← count_pos_iff] at hx hx'
    have := hnew x
    have := hb' x
    omega

end Membership

/-- `arg` at the place `k` is to be replaced by `arg1`, a new argument of the same
type that nothing refers to and that refers to results visited before. -/
structure Replacement (target : Target) (s s' : Store) (k : Place) (arg arg1 : Arg) : Prop where
  wellLinked : (k.fill arg).WellLinked s
  generated : Generated s s' k.pre arg1.results arg1.ids
  unused : ∀ f ∈ arg1.results, ∀ z, z ∉ s'.cells.uses f
  sameKind : arg.sameKind target arg1 = true

namespace Replacement

variable {target : Target} {s s' : Store} {k : Place} {arg arg1 : Arg}
  (h : Replacement target s s' k arg arg1)

include h

theorem nodup : (k.pre ++ arg.results ++ k.post).Nodup :=
  k.validated_fill arg ▸ h.wellLinked.nodup

theorem live : ∀ x ∈ k.pre ++ arg.results ++ k.post, x < s.next := by
  intro x hx
  rw [← k.validated_fill arg] at hx
  exact h.wellLinked.live x ((k.fill arg).validated_sublist_ids.subset hx)

theorem fresh : ∀ f ∈ arg1.results, s.next ≤ f :=
  fun f hf => (h.generated.fresh f (h.generated.sub.subset hf)).1

theorem ids_disjoint : ∀ i ∈ arg.ids, i ∉ arg1.ids := by
  intro i hi hi'
  have hlive := h.wellLinked.live i (by rw [k.ids_fill]; simp [hi])
  exact Nat.not_lt.mpr (h.generated.fresh i hi').1 hlive

theorem sorted : arg.Sorted arg1 := by
  have hnodup := h.nodup
  refine Arg.sorted h.sameKind (nodup_append.mp (nodup_append.mp hnodup).1).2.1
    (h.generated.sub.nodup h.generated.nodup) ?_
  intro x hx hx'
  exact Nat.not_lt.mpr (h.fresh x hx') (h.live x (by simp [hx]))

/-- The results before and behind the argument are not touched. -/
theorem outside {x : Id} (hx : x ∈ k.pre ∨ x ∈ k.post) :
    x ∉ arg.results ∧ x ∉ arg1.results := by
  have hnodup := h.nodup
  constructor
  · intro hx'
    rcases hx with hx | hx
    · exact (nodup_append.mp (nodup_append.mp hnodup).1).2.2 x hx x hx' rfl
    · exact (nodup_append.mp hnodup).2.2 x (mem_append_right _ hx') x hx rfl
  · intro hx'
    refine Nat.not_lt.mpr (h.fresh x hx') (h.live x ?_)
    rcases hx with hx | hx <;> simp [hx]

/-- The new argument refers to results visited before it. -/
theorem refs : ∀ f ∈ arg1.results, ∀ y, s'.cells.res f = some y → y ∈ k.pre := by
  intro f hf y hfy
  rcases h.generated.refs f hf y hfy with hy | hpair
  · exact hy
  · have hy : y ∈ arg1.results := hpair.subset (by simp)
    exact absurd ((h.generated.newUses y hy f).mpr ⟨hf, hfy⟩) (h.unused y hy f)

theorem linked : Linked s'.cells.res s'.cells.uses
    (k.pre ++ arg1.results ++ (arg.results ++ k.post)) :=
  h.wellLinked.extend (by rw [k.validated_fill, append_assoc]) h.generated

theorem ready :
    Ready (· ∈ k.pre) (arg.replaceSteps arg1) s'.cells
      {x | x ∈ k.pre ++ arg1.results ++ (arg.results ++ k.post)} := by
  have hsorted := h.sorted
  refine ⟨h.linked.consistent, hsorted.nodup, ?_, ?_, ?_⟩
  · intro x hx
    have hx' : x ∈ arg.results ∨ x ∈ arg1.results := by
      rcases mem_append.mp hx with hx | hx
      · exact .inl ((hsorted.old x).mpr (.inl hx))
      · exact .inr ((hsorted.new x).mpr (.inl hx))
    refine ⟨?_, ?_⟩
    · simp only [Set.mem_ofPred_eq, mem_append]
      tauto
    · intro hpre
      have := h.outside (.inl hpre)
      tauto
  · intro f hf
    exact h.unused f ((hsorted.new f).mpr (.inl hf))
  · intro f hf
    exact h.refs f ((hsorted.new f).mpr (.inl hf))

/-- The results that are left, without those behind overwritten pointers, are
those of the program with the new argument. -/
theorem left :
    ({x | x ∈ k.pre ++ arg1.results ++ (arg.results ++ k.post)} \
        {x | x ∈ (arg.replaceSteps arg1).filterMap LinkStep.new? ∨
          x ∈ (arg.replaceSteps arg1).filterMap LinkStep.dropped?}) \ {x | x ∈ arg.lost arg1} =
      {x | x ∈ k.pre ++ (arg.replaced arg1).results ++ k.post} := by
  have hsorted := h.sorted
  ext x
  have hout : x ∈ k.pre ∨ x ∈ k.post → x ∉ arg.results ∧ x ∉ arg1.results := h.outside
  have hboth : x ∈ arg.results → x ∉ arg1.results := fun hx hx' =>
    Nat.not_lt.mpr (h.fresh x hx') (h.live x (by simp [hx]))
  have hmoved := hsorted.moved x
  have hlost := hsorted.lost x
  have htaken := hsorted.taken x
  rw [hsorted.old, mem_old_iff] at hboth hout
  rw [mem_old_iff] at hlost
  rw [hsorted.new] at hboth hout
  unfold Arg.dropped at hmoved
  simp only [Set.mem_sdiff, Set.mem_ofPred_eq, mem_append, hsorted.old, hsorted.new,
    hsorted.tree, mem_old_iff]
  grind

/-- The results before the argument refer to each other only. -/
theorem res_pre {x y : Id} (hx : x ∈ k.pre)
    (hxy : s.cells.res x = some y) : y ∈ k.pre := by
  have hnodup := h.nodup
  have hbefore := h.wellLinked.linked.before x (by rw [k.validated_fill]; simp [hx]) y hxy
  rw [k.validated_fill, append_assoc] at hbefore
  rw [append_assoc] at hnodup
  have hpair := pair_sublist_left hbefore fun hx' => (nodup_append.mp hnodup).2.2 x hx x hx' rfl
  exact hpair.subset (by simp)

/-- What the arguments refer to after the replacement. -/
structure Moved (k : Place) (arg arg1 : Arg) (cells cells' : Cells) : Prop where
  rest : ∀ x, x ∈ k.pre ∨ x ∈ k.post ∨ x ∈ arg.lost arg1 → ∀ y,
    cells'.res x = some y ↔ cells.res x = some y ∧ y ∉ arg.dropped arg1
  middle : ∀ x ∈ (arg.replaced arg1).results, ∀ y, cells'.res x = some y → y ∈ k.pre

theorem moved {cells' : Cells}
    (hran : Ran (· ∈ k.pre) (arg.replaceSteps arg1) s'.cells cells'
      {x | x ∈ k.pre ++ arg1.results ++ (arg.results ++ k.post)}) :
    Moved k arg arg1 s.cells cells' := by
  have hsorted := h.sorted
  have hboth : ∀ x ∈ arg.results, x ∉ arg1.results := fun x hx hx' =>
    Nat.not_lt.mpr (h.fresh x hx') (h.live x (by simp [hx]))
  constructor
  · intro x hx y
    have hx' : x ∈ k.pre ∨ x ∈ k.post ∨ x ∈ arg.results :=
      hx.imp_right (.imp_right fun hl => (hsorted.old x).mpr (.inr hl))
    have hnew : x ∉ arg1.results := by
      rcases hx' with hx' | hx' | hx'
      · exact (h.outside (.inl hx')).2
      · exact (h.outside (.inr hx')).2
      · exact hboth x hx'
    have hold : x ∉ (arg.replaceSteps arg1).map LinkStep.old := by
      rcases hx with hx | hx | hx
      · exact fun ho => (h.outside (.inl hx)).1 ((hsorted.old x).mpr (.inl ho))
      · exact fun ho => (h.outside (.inr hx)).1 ((hsorted.old x).mpr (.inl ho))
      · exact hsorted.lost x hx
    have hlive : x < s.next := h.live x (by simp only [mem_append]; tauto)
    rw [← h.generated.old x hlive]
    exact hran.rest x (by simp only [Set.mem_ofPred_eq, mem_append]; tauto) hold
      (fun hn => hnew ((hsorted.new x).mpr (.inl hn))) y
  · intro x hx y hxy
    rcases (hsorted.tree x).mp hx with hx | hx
    · exact hran.moved x hx y hxy
    · have hx' : x ∈ arg1.results := (hsorted.new x).mpr (.inr hx)
      have hold : x ∉ (arg.replaceSteps arg1).map LinkStep.old :=
        fun ho => hboth x ((hsorted.old x).mpr (.inl ho)) hx'
      exact h.refs x hx' y ((hran.rest x (by simp [hx']) hold (hsorted.taken x hx) y).mp hxy).1

/-- **The links are consistent again exactly if nothing crosses** between the
overwritten pointees and the rest of the program. -/
theorem consistent_iff {cells' : Cells}
    (hran : Ran (· ∈ k.pre) (arg.replaceSteps arg1) s'.cells cells'
      {x | x ∈ k.pre ++ arg1.results ++ (arg.results ++ k.post)}) :
    Consistent cells'.res cells'.uses {x | x ∈ k.pre ++ (arg.replaced arg1).results ++ k.post} ↔
      Isolated s.cells (arg.lost arg1) (arg.dropped arg1) k.post := by
  have hsorted := h.sorted
  have hmoved := h.moved hran
  have hleft := h.left
  have hlost : ∀ x ∈ arg.lost arg1, x ∈ arg.results := fun x hx =>
    (hsorted.old x).mpr (.inr hx)
  have hpre : ∀ y ∈ k.pre, y ∉ arg.lost arg1 := fun y hy hl =>
    (h.outside (.inl hy)).1 (hlost y hl)
  have hpost : ∀ y ∈ k.post, y ∉ arg.lost arg1 := fun y hy hl =>
    (h.outside (.inr hy)).1 (hlost y hl)
  have hgone : ∀ y ∈ arg.lost arg1, y ∉ arg.dropped arg1 := fun y hy hd =>
    hsorted.lost y hy ((mem_old_iff _ y).mpr (.inr hd))
  rw [← hleft, hran.consistent.diff_iff]
  constructor
  · rintro ⟨hin, hout⟩
    constructor
    · intro x hx y hxy
      by_cases hy : y ∈ arg.dropped arg1
      · exact .inr hy
      refine .inl (hin x ⟨by simp [hlost x hx], ?_⟩ hx y
        ((hmoved.rest x (.inr (.inr hx)) y).mpr ⟨hxy, hy⟩))
      rintro (hn | hd)
      · exact Nat.not_lt.mpr (h.fresh x ((hsorted.new x).mpr (.inl hn)))
          (h.live x (by simp [hlost x hx]))
      · exact hgone x hx hd
    · intro x hx y hxy hy
      have hxin : x ∈ k.pre ++ (arg.replaced arg1).results ++ k.post := by simp [hx]
      have hdiff := hleft.symm.subset hxin
      exact hout x hdiff.1 hdiff.2 y
        ((hmoved.rest x (.inr (.inl hx)) y).mpr ⟨hxy, hgone y hy⟩) hy
  · rintro ⟨hin, hout⟩
    constructor
    · intro x _ hx y hxy
      obtain ⟨hxy, hy⟩ := (hmoved.rest x (.inr (.inr hx)) y).mp hxy
      exact (hin x hx y hxy).resolve_right hy
    intro x hxS hx y hxy
    have hxin := hleft.subset ⟨hxS, hx⟩
    simp only [Set.mem_ofPred_eq, mem_append] at hxin
    rcases hxin with (hx | hx) | hx
    · exact hpre y (h.res_pre hx ((hmoved.rest x (.inl hx) y).mp hxy).1)
    · exact hpre y (hmoved.middle x hx y hxy)
    · exact hout x hx y ((hmoved.rest x (.inr (.inl hx)) y).mp hxy).1

/-- The objects of the program with the new argument. -/
theorem ids_replaced :
    (k.fill (arg.replaced arg1)).ids.Nodup ∧
      ∀ i ∈ (k.fill (arg.replaced arg1)).ids, i < s'.next := by
  have htree := nodup_iff_count_le_one.mp h.wellLinked.tree
  have hcount : ∀ x, (k.fill (arg.replaced arg1)).ids.count x ≤
      (k.fill arg).ids.count x + arg1.ids.count x := by
    intro x
    have := count_ids_replaced arg arg1 x
    simp only [k.ids_fill, count_append]
    omega
  have hlive := h.wellLinked.live
  have hgrows := h.generated.grows
  constructor
  · refine nodup_iff_count_le_one.mpr fun x => ?_
    have hx := hcount x
    by_cases hnew : x ∈ arg1.ids
    · have hold : (k.fill arg).ids.count x = 0 := count_eq_zero.mpr fun hx' =>
        Nat.not_lt.mpr (h.generated.fresh x hnew).1 (hlive x hx')
      have := nodup_iff_count_le_one.mp h.generated.nodup x
      omega
    · rw [count_eq_zero.mpr hnew] at hx
      exact hx.trans (htree x)
  · intro i hi
    by_cases hnew : i ∈ arg1.ids
    · exact (h.generated.fresh i hnew).2
    · refine lt_of_lt_of_le (hlive i ?_) hgrows
      have hi' := hcount i
      rw [count_eq_zero.mpr hnew] at hi'
      exact count_pos_iff.mp (lt_of_lt_of_le (count_pos_iff.mpr hi) hi')

end Replacement

/-- The return values of a program are outside of every hole. -/
theorem Place.mem_ret {k : Place} {a : Arg} {c : Call} (hc : c ∈ (k.fill a).calls) {r : Id}
    (hr : r ∈ c.ret) : (r ∈ k.pre ∨ r ∈ k.post) ∧
      ∀ b, ∃ c' ∈ (k.fill b).calls, r ∈ c'.ret := by
  unfold Place.fill Place.withArgs at hc ⊢
  have hval : ∀ c : Call, r ∈ c.ret → r ∈ c.validated := fun c hr => by
    unfold Call.validated
    simp [Option.mem_def.mp hr]
  simp only [mem_append, mem_cons] at hc ⊢
  rcases hc with hc | rfl | hc
  · refine ⟨.inl ?_, fun b => ⟨c, .inl hc, hr⟩⟩
    exact mem_append_left _ (mem_append_left _ (mem_flatMap.mpr ⟨c, hc, hval c hr⟩))
  · refine ⟨.inr ?_, fun b => ⟨_, .inr (.inl rfl), hr⟩⟩
    have hr' : k.call.ret = some r := hr
    unfold Place.post
    simp [hr']
  · refine ⟨.inr ?_, fun b => ⟨c, .inr (.inr hc), hr⟩⟩
    exact mem_append_right _ (mem_flatMap.mpr ⟨c, hc, hval c hr⟩)

/-- **`replaceArg` keeps the program well linked exactly if no link crosses
between the pointees it overwrites and the rest of the program.** -/
theorem Replacement.wellLinked_iff {target : Target} {s s' : Store} {k : Place} {arg arg1 : Arg}
    (h : Replacement target s s' k arg arg1) :
    ∃ cells', replaceArg target s'.cells arg arg1 = .ok (arg.replaced arg1, cells') ∧
      ((k.fill (arg.replaced arg1)).WellLinked ⟨cells', s'.next⟩ ↔
        Isolated s.cells (arg.lost arg1) (arg.dropped arg1) k.post) := by
  obtain ⟨cells', hok, hran⟩ := h.ready.run target
  have hmoved := h.moved hran
  have hold := h.wellLinked.linked
  rw [k.validated_fill] at hold
  refine ⟨cells', ?_, ?_⟩
  · rw [replaceArg_eq target arg arg1 s'.cells h.sameKind h.ids_disjoint, hok]
    rfl
  rw [← h.consistent_iff hran]
  constructor
  · intro hnew
    have := hnew.linked.consistent
    rwa [k.validated_fill] at this
  intro hcons
  obtain ⟨hnodup, hlive⟩ := h.ids_replaced
  refine ⟨hnodup, hlive, ?_, ?_⟩
  · intro c hc r hr
    obtain ⟨hout, hother⟩ := Place.mem_ret hc hr
    obtain ⟨c', hc', hr'⟩ := hother arg
    refine Option.eq_none_iff_forall_ne_some.mpr fun y hy => ?_
    have hy' := ((hmoved.rest r (hout.imp_right .inl) y).mp hy).1
    rw [h.wellLinked.ret c' hc' r hr'] at hy'
    cases hy'
  · rw [k.validated_fill]
    exact hold.of_middle h.nodup hcons
      (fun x hx y hxy => ((hmoved.rest x (.inl hx) y).mp hxy).1) hmoved.middle
      (fun x hx y hxy => ((hmoved.rest x (.inr (.inl hx)) y).mp hxy).1)

end Sect.Program
