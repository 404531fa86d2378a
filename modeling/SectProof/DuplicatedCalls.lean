import SectProof.AsyncAssignment
import SectProof.TypedCopies

/-! # Duplicates of calls

`cloneCall` without a map makes a copy of a call whose arguments refer to the same
results as the originals.  Put in front of the original it is a call of a well
linked program, unless one of its arguments refers to a result of the call itself.
-/

open List Nat

namespace Sect.Program

open RefGraph

/-- The contents of a result without its users. -/
def ResultArg.bare (a : ResultArg) : ResultArg := { a with uses := [] }

theorem ResultArg.of_bare {a b : ResultArg} (h : a.bare = b.bare) :
    a.toArgCommon = b.toArgCommon ∧ a.res = b.res ∧ a.val = b.val ∧ a.opDiv = b.opDiv ∧
      a.opAdd = b.opAdd := by
  injection h with hcommon hres hdiv hadd hval
  exact ⟨hcommon, hres, hval, hdiv, hadd⟩

/-! ## The copies -/

/-- The cells after the results `done` have been copied without a map. -/
structure Shared (s : Store) (done : List Id) (cells' : Cells) : Prop where
  old : ∀ i < s.next, (cells' i).bare = (s.cells i).bare
  uses : ∀ i < s.next, ∀ z, z ∈ cells'.uses i ↔
    z ∈ s.cells.uses i ∨ ∃ a ∈ done, z = s.next + a ∧ s.cells.res a = some i
  copy : ∀ a ∈ done, cells' (s.next + a) = (s.cells a).bare
  same : ∀ i < s.next, (∀ a ∈ done, s.cells.res a ≠ some i) → cells' i = s.cells i

namespace Shared

variable {s : Store} {done : List Id} {cells' : Cells}

theorem res (h : Shared s done cells') {i : Id} (hi : i < s.next) :
    cells'.res i = s.cells.res i := (ResultArg.of_bare (h.old i hi)).2.1

theorem res_copy (h : Shared s done cells') {a : Id} (ha : a ∈ done) :
    cells'.res (s.next + a) = s.cells.res a := by
  unfold Cells.res
  rw [h.copy a ha]
  rfl

/-- Entering a user changes no contents. -/
theorem bare_modifyUses (cells : Cells) (r : Id) (g : List Id → List Id) (i : Id) :
    (cells.modifyUses r g i).bare = (cells i).bare := by
  unfold Cells.modifyUses
  rw [Cells.set_apply]
  split
  · rename_i h
    rw [h]
    rfl
  · rfl

theorem step (h : Shared s done cells') {a : Id} (ha : a < s.next) (hnew : a ∉ done)
    (href : ∀ r, s.cells.res a = some r → r < s.next) :
    Shared s (done ++ [a]) (cloneShared s.next cells' a) := by
  have hres : (cells' a).res = s.cells.res a := h.res ha
  have hbare : (cells' a).bare = (s.cells a).bare := h.old a ha
  have hne : ∀ i < s.next, i ≠ s.next + a := fun i hi =>
    Nat.ne_of_lt (Nat.lt_of_lt_of_le hi (Nat.le_add_right _ _))
  have hcopies : ∀ b ∈ done, s.next + b ≠ s.next + a := fun b hb heq =>
    hnew (add_left_cancel heq ▸ hb)
  unfold cloneShared
  rw [hres]
  cases hr : s.cells.res a with
  | none =>
    refine ⟨?_, ?_, ?_, ?_⟩
    · intro i hi
      dsimp only
      rw [Cells.set_apply, if_neg (hne i hi), h.old i hi]
    · intro i hi z
      rw [Cells.uses_set, if_neg (hne i hi), h.uses i hi]
      grind
    · intro b hb
      dsimp only
      rw [Cells.set_apply]
      rcases mem_append.mp hb with hb | hb
      · rw [if_neg (hcopies b hb), h.copy b hb]
      · rw [mem_singleton.mp hb, if_pos rfl]
        exact hbare
    · intro i hi hnot
      dsimp only
      rw [Cells.set_apply, if_neg (hne i hi)]
      exact h.same i hi fun b hb => hnot b (mem_append_left _ hb)
  | some r =>
    have hrlive : r < s.next := href r hr
    refine ⟨?_, ?_, ?_, ?_⟩
    · intro i hi
      dsimp only
      rw [Cells.set_apply, if_neg (hne i hi), bare_modifyUses, h.old i hi]
    · intro i hi z
      rw [Cells.uses_set, if_neg (hne i hi), Cells.uses_modifyUses]
      split
      · rename_i hir
        subst hir
        rw [mem_insert_iff, h.uses i hi]
        grind
      · rename_i hir
        rw [h.uses i hi]
        grind
    · intro b hb
      dsimp only
      rw [Cells.set_apply]
      rcases mem_append.mp hb with hb | hb
      · have hbr : s.next + b ≠ r := fun heq =>
          not_lt.mpr (le_add_right s.next b) (heq ▸ hrlive)
        rw [if_neg (hcopies b hb), Cells.modifyUses, Cells.set_apply, if_neg hbr, h.copy b hb]
      · rw [mem_singleton.mp hb, if_pos rfl]
        exact hbare
    · intro i hi hnot
      have hir : i ≠ r := by
        rintro rfl
        exact hnot a (by simp) hr
      dsimp only
      rw [Cells.set_apply, if_neg (hne i hi), Cells.modifyUses, Cells.set_apply, if_neg hir]
      exact h.same i hi fun b hb => hnot b (mem_append_left _ hb)

theorem run (list : List Id) : ∀ {done : List Id} {cells' : Cells}, Shared s done cells' →
    (done ++ list).Nodup → (∀ a ∈ list, a < s.next) →
    (∀ a ∈ list, ∀ r, s.cells.res a = some r → r < s.next) →
    Shared s (done ++ list) (list.foldl (cloneShared s.next) cells') := by
  induction list with
  | nil =>
    intro done cells' h _ _ _
    rwa [append_nil]
  | cons a list ih =>
    intro done cells' h hnodup hlive href
    rw [forall_mem_cons] at hlive href
    rw [append_cons] at hnodup ⊢
    have hnew : a ∉ done := fun ha =>
      (nodup_append.mp (nodup_append.mp hnodup).1).2.2 a ha a (by simp) rfl
    exact ih (h.step hlive.1 hnew href.1) hnodup hlive.2 href.2

end Shared

/-- What `cloneCall` does to the cells. -/
theorem shared_cloneCall {s : Store} {c : Call} (hnodup : c.validated.Nodup)
    (hlive : ∀ a ∈ c.validated, a < s.next)
    (href : ∀ a ∈ c.validated, ∀ r, s.cells.res a = some r → r < s.next) :
    Shared s c.results (cloneCall s c).2.cells := by
  have hstart : Shared s [] s.cells := ⟨fun _ _ => rfl, by simp, by simp, fun _ _ _ => rfl⟩
  exact .run c.results hstart (c.results_perm.nodup_iff.mpr hnodup)
    (fun a ha => hlive a (c.results_perm.mem_iff.mp ha))
    (fun a ha => href a (c.results_perm.mem_iff.mp ha))

theorem Prog.WellLinked.shared {s : Store} {p : Prog} (h : p.WellLinked s) {c : Call}
    (hc : c ∈ p.calls) : Shared s c.results (cloneCall s c).2.cells := by
  have hmem : ∀ a ∈ c.validated, a ∈ p.validated := fun a ha => mem_flatMap.mpr ⟨c, hc, ha⟩
  have hlive : ∀ a ∈ p.validated, a < s.next := fun a ha =>
    h.live a (p.validated_sublist_ids.subset ha)
  refine shared_cloneCall ((nodup_flatMap.mp h.nodup).1 c hc)
    (fun a ha => hlive a (hmem a ha)) ?_
  intro a ha r hr
  exact hlive r (h.linked.consistent.fwd a (hmem a ha) r hr).1

/-! ## A duplicate in front of its original -/

/-- No argument of the call refers to a result of the call. -/
def Call.NoOwnReference (cells : Cells) (c : Call) : Prop :=
  ∀ x ∈ c.validated, ∀ y ∈ cells.res x, y ∉ c.validated

instance (cells : Cells) (c : Call) : Decidable (c.NoOwnReference cells) := by
  unfold Call.NoOwnReference
  infer_instance

section Duplicate

variable {s : Store} {p : Prog} {before after : List Call} {c : Call}

theorem Prog.validated_split (hp : p.calls = before ++ c :: after) : p.validated =
    before.flatMap Call.validated ++ (c.validated ++ after.flatMap Call.validated) := by
  unfold Prog.validated
  rw [hp, flatMap_append, flatMap_cons]

/-- What a call of a well linked program refers to comes before the call, or in it. -/
theorem Prog.WellLinked.res_before (h : p.WellLinked s) (hp : p.calls = before ++ c :: after)
    {x y : Id} (hx : x ∈ c.validated) (hxy : s.cells.res x = some y) :
    y ∈ before.flatMap Call.validated ∨ y ∈ c.validated := by
  have hnodup := h.nodup
  have hsplit := Prog.validated_split hp
  have hpair := h.linked.before x (by rw [hsplit]; simp [hx]) y hxy
  rw [hsplit, ← append_assoc] at hpair hnodup
  have hx' : x ∉ after.flatMap Call.validated := fun hx' =>
    (nodup_append.mp hnodup).2.2 x (mem_append_right _ hx) x hx' rfl
  exact mem_append.mp ((pair_sublist_left hpair hx').subset (by simp))

theorem Prog.WellLinked.generated_duplicate (h : p.WellLinked s)
    (hp : p.calls = before ++ c :: after) (hown : c.NoOwnReference s.cells) :
    Generated s (cloneCall s c).2 (before.flatMap Call.validated) (cloneCall s c).1.validated
      (cloneCall s c).1.ids := by
  have hc : c ∈ p.calls := by
    rw [hp]
    simp
  have hshared := h.shared hc
  have hids : (cloneCall s c).1.ids = c.ids.map (s.next + ·) := Call.ids_rename _ c
  have hval : (cloneCall s c).1.validated = c.validated.map (s.next + ·) :=
    Call.validated_rename _ c
  have hlive : ∀ i ∈ c.ids, i < s.next := fun i hi =>
    h.live i (mem_flatMap.mpr ⟨c, hc, hi⟩)
  have hrlive : ∀ x ∈ c.validated, ∀ y, s.cells.res x = some y → y < s.next := by
    intro x hx y hxy
    have hy := (h.linked.consistent.fwd x (mem_flatMap.mpr ⟨c, hc, hx⟩) y hxy).1
    exact h.live y (p.validated_sublist_ids.subset hy)
  have hres : ∀ x ∈ c.validated, (cloneCall s c).2.cells.res (s.next + x) = s.cells.res x :=
    fun x hx => hshared.res_copy (c.results_perm.mem_iff.mpr hx)
  refine ⟨?_, ?_, le_add_right _ _, (cloneCall s c).1.validated_sublist_ids, ?_, ?_, ?_, ?_⟩
  · rw [hids]
    exact ((nodup_flatMap.mp h.tree).1 c hc).map fun x y hxy => add_left_cancel hxy
  · rw [hids]
    intro i hi
    obtain ⟨j, hj, rfl⟩ := mem_map.mp hi
    exact ⟨Nat.le_add_right _ _, Nat.add_lt_add_left (hlive j hj) _⟩
  · rw [hval]
    intro x' hx' y hxy
    obtain ⟨x, hx, rfl⟩ := mem_map.mp hx'
    rw [hres x hx] at hxy
    exact .inl ((h.res_before hp hx hxy).resolve_right (hown x hx y hxy))
  · intro i hi
    exact hshared.res hi
  · intro i hi z
    rw [hshared.uses i hi, hval]
    refine or_congr_right ?_
    constructor
    · rintro ⟨a, ha, rfl, hai⟩
      have ha' := c.results_perm.mem_iff.mp ha
      exact ⟨mem_map_of_mem ha', (hres a ha').trans hai⟩
    · rintro ⟨hz, hzi⟩
      obtain ⟨a, ha, rfl⟩ := mem_map.mp hz
      exact ⟨a, c.results_perm.mem_iff.mpr ha, rfl, (hres a ha).symm.trans hzi⟩
  · rw [hval]
    intro y' hy' z
    obtain ⟨y, hy, rfl⟩ := mem_map.mp hy'
    have huses : (cloneCall s c).2.cells.uses (s.next + y) = [] :=
      congrArg ResultArg.uses (hshared.copy y (c.results_perm.mem_iff.mpr hy))
    rw [huses]
    refine iff_of_false not_mem_nil ?_
    rintro ⟨hz, hzy⟩
    obtain ⟨x, hx, rfl⟩ := mem_map.mp hz
    rw [hres x hx] at hzy
    exact not_lt.mpr (le_add_right _ _) (hrlive x hx _ hzy)

/-- **A duplicate in front of its original** keeps the program well linked. -/
theorem Prog.WellLinked.duplicate (h : p.WellLinked s) (hp : p.calls = before ++ c :: after)
    (hown : c.NoOwnReference s.cells) (async : Bool) :
    Prog.WellLinked (cloneCall s c).2
      ⟨before ++ (cloneCall s c).1.setAsync async :: c :: after⟩ := by
  have hc : c ∈ p.calls := by
    rw [hp]
    simp
  have hgen := h.generated_duplicate hp hown
  have hinsert := @Prog.WellLinked.insertBefore s p (cloneCall s c).2 h before.length
    [(cloneCall s c).1.setAsync async]
  rw [flatMap_singleton, flatMap_singleton, hp, take_left] at hinsert
  have hcalls : p.insertBefore before.length [(cloneCall s c).1.setAsync async] =
      ⟨before ++ (cloneCall s c).1.setAsync async :: c :: after⟩ := by
    unfold Prog.insertBefore
    rw [hp, take_left, drop_left, append_assoc]
    rfl
  rw [hcalls] at hinsert
  refine hinsert hgen ?_
  intro c' hc' r hr
  rw [mem_singleton.mp hc'] at hr
  obtain ⟨r₀, hr₀, rfl⟩ := Option.map_eq_some_iff.mp hr
  have hmem : r₀ ∈ c.results := by
    unfold Call.results
    rw [hr₀]
    simp
  exact ((h.shared hc).res_copy hmem).trans (h.ret c hc r₀ hr₀)

/-! ## Types -/

theorem Arg.rename_self (a : Arg) : a.rename (fun i => i) = a := by
  induction a using Arg.induct with
  | pointer id c addr n res ih => rw [Arg.rename, ih]
  | group id c inner ih =>
    rw [Arg.rename_group, map_congr_left ih, map_id']
  | union id c option index transient ih => rw [Arg.rename, ih]
  | _ => rfl

theorem Call.rename_self (c : Call) : c.rename (fun i => i) = c := by
  unfold Call.rename
  rw [map_congr_left fun a _ => a.rename_self, map_id', Option.map_id']

variable {target : Target} {ignoreTransient : Bool}

/-- The calls of the program are as good as before: a result that gets a user had
one already. -/
theorem Prog.WellLinked.typed_shared (h : p.WellLinked s) (hc : c ∈ p.calls) {c' : Call}
    (hc' : c' ∈ p.calls) (htyped : c'.Typed target s.cells ignoreTransient) :
    c'.Typed target (cloneCall s c).2.cells ignoreTransient := by
  have hshared := h.shared hc
  have hknown : c'.Known s.cells (cloneCall s c).2.cells fun i => i := by
    intro r hr
    have hr' : r ∈ p.validated := mem_flatMap.mpr ⟨c', hc', hr⟩
    have hlive : r < s.next := h.live r (p.validated_sublist_ids.subset hr')
    obtain ⟨hcommon, hres, hval, hdiv, hadd⟩ := ResultArg.of_bare (hshared.old r hlive)
    refine ⟨hcommon, hval, hdiv, hadd, fun hnone => hres.trans hnone, ?_⟩
    · intro huses
      obtain ⟨z, hz⟩ := exists_mem_of_ne_nil _ huses
      rcases (hshared.uses r hlive z).mp hz with hz | ⟨a, ha, -, har⟩
      · exact ne_nil_of_mem hz
      · have ha' : a ∈ p.validated :=
          mem_flatMap.mpr ⟨c, hc, c.results_perm.mem_iff.mp ha⟩
        exact ne_nil_of_mem (h.linked.consistent.fwd a ha' r har).2
  have hcopy := htyped.rename (fun _ _ hxy => hxy) hknown
  rwa [Call.rename_self] at hcopy

theorem Prog.WellLinked.typed_duplicate (h : p.WellLinked s) (hc : c ∈ p.calls)
    (htyped : c.Typed target s.cells ignoreTransient) :
    (cloneCall s c).1.Typed target (cloneCall s c).2.cells ignoreTransient := by
  refine htyped.rename (fun _ _ hxy => add_left_cancel hxy) ?_
  intro r hr
  have hcopy := (h.shared hc).copy r (c.results_perm.mem_iff.mpr hr)
  rw [hcopy]
  exact ⟨rfl, rfl, rfl, rfl, fun hnone => hnone, fun huses => absurd rfl huses⟩

end Duplicate

end Sect.Program
