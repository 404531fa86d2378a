import SectProof.ProgContexts
import SectProof.ResourceLinks

/-! # Operations keep a program well linked

`Prog.WellLinked` says that the objects of a program form a tree, that results
and their uses agree, and that every result is visited before the arguments that
refer to it.  Removing a call or an argument, inserting generated calls and
cloning keep this.
-/

open List

namespace Sect.Program

open RefGraph

/-- The links of a program are sound: its objects exist and occur once, return
values refer to nothing, and references and uses agree and point backwards in
the order of `validate`. -/
structure Prog.WellLinked (s : Store) (p : Prog) : Prop where
  tree : p.ids.Nodup
  live : ∀ i ∈ p.ids, i < s.next
  ret : ∀ c ∈ p.calls, ∀ r ∈ c.ret, s.cells.res r = none
  linked : Linked s.cells.res s.cells.uses p.validated

instance (s : Store) (p : Prog) : Decidable (p.WellLinked s) :=
  decidable_of_iff (p.ids.Nodup ∧ (∀ i ∈ p.ids, i < s.next) ∧
      (∀ c ∈ p.calls, ∀ r ∈ c.ret, s.cells.res r = none) ∧
      Linked s.cells.res s.cells.uses p.validated)
    ⟨fun ⟨htree, hlive, hret, hlinked⟩ => ⟨htree, hlive, hret, hlinked⟩,
      fun ⟨htree, hlive, hret, hlinked⟩ => ⟨htree, hlive, hret, hlinked⟩⟩

variable {s : Store} {p : Prog}

theorem Prog.WellLinked.nodup (h : p.WellLinked s) : p.validated.Nodup :=
  p.validated_sublist_ids.nodup h.tree

/-! ## Removing calls and arguments -/

/-- Results that form a segment of the program are removed from it. -/
theorem Prog.WellLinked.unlink (h : p.WellLinked s) (target : Target) (p' : Prog)
    (pre rs post : List Id) (hsplit : p.validated = pre ++ rs ++ post)
    (hrest : p'.validated = pre ++ post) (hids : p'.ids.Sublist p.ids)
    (hret : ∀ c ∈ p'.calls, ∀ r ∈ c.ret, ∃ c' ∈ p.calls, r ∈ c'.ret) :
    ∃ cells', rs.foldlM (removeResult target) s.cells = .ok cells' ∧
      p'.WellLinked ⟨cells', s.next⟩ := by
  have hnodup := h.nodup
  rw [hsplit] at hnodup
  have hrs : rs.Nodup := (nodup_append.mp (nodup_append.mp hnodup).1).2.1
  obtain ⟨cells', hok, hcons, hres⟩ := removeResults_consistent target rs h.linked.consistent hrs
    (fun a ha => by
      rw [hsplit]
      simp [ha])
  have hset : {x | x ∈ p.validated} \ {x | x ∈ rs} = {x | x ∈ p'.validated} := by
    ext x
    rw [append_assoc, nodup_append] at hnodup
    have hpre : x ∈ pre → x ∉ rs := fun hx hx' =>
      hnodup.2.2 x hx x (mem_append_left _ hx') rfl
    have hpost : x ∈ post → x ∉ rs := fun hx hx' =>
      (nodup_append.mp hnodup.2.1).2.2 x hx' x hx rfl
    simp only [Set.mem_sdiff, Set.mem_ofPred_eq, hsplit, hrest, mem_append]
    tauto
  rw [hset] at hcons
  refine ⟨cells', hok, hids.nodup h.tree, fun i hi => h.live i (hids.subset hi), ?_, ?_⟩
  · intro c hc r hr
    obtain ⟨c', hc', hr'⟩ := hret c hc r hr
    refine Option.eq_none_iff_forall_ne_some.mpr fun y hy => ?_
    have := hres r y hy
    rw [h.ret c' hc' r hr'] at this
    cases this
  · refine h.linked.of_sublist ?_ h.nodup hcons (fun x _ y hxy => hres x y hxy)
    rw [hsplit, hrest]
    exact (sublist_append_left _ _).append (.refl _)

theorem removeArgs_eq (target : Target) (cells : Cells) (args : List Arg) :
    removeArgs target cells args = (args.flatMap Arg.results).foldlM (removeResult target) cells := by
  unfold removeArgs removeArg
  induction args generalizing cells with
  | nil => rfl
  | cons a args ih =>
    rw [foldlM_cons, flatMap_cons, foldlM_append]
    exact bind_congr fun cells => ih cells

/-- **`RemoveCall` keeps the program well linked.** -/
theorem Prog.WellLinked.removeCall (h : p.WellLinked s) (target : Target) {idx : Nat}
    (hidx : idx < p.calls.length) :
    ∃ cells', p.removeCall target s.cells idx = .ok (⟨p.calls.eraseIdx idx⟩, cells') ∧
      Prog.WellLinked ⟨cells', s.next⟩ ⟨p.calls.eraseIdx idx⟩ := by
  have hcalls : p.calls = p.calls.take idx ++ p.calls[idx] :: p.calls.drop (idx + 1) := by
    rw [← drop_eq_getElem_cons hidx, take_append_drop]
  have hflat : ∀ f : Call → List Id, p.calls.flatMap f =
      (p.calls.take idx).flatMap f ++ f p.calls[idx] ++ (p.calls.drop (idx + 1)).flatMap f := by
    intro f
    conv_lhs => rw [hcalls]
    rw [flatMap_append, flatMap_cons, append_assoc]
  have hrest : ∀ f : Call → List Id, (p.calls.eraseIdx idx).flatMap f =
      (p.calls.take idx).flatMap f ++ (p.calls.drop (idx + 1)).flatMap f := by
    intro f
    rw [eraseIdx_eq_take_drop_succ, flatMap_append]
  obtain ⟨cells', hok, hlinked⟩ := h.unlink target ⟨p.calls.eraseIdx idx⟩ _ _ _
    (hflat Call.validated) (hrest Call.validated)
    (by
      unfold Prog.ids
      rw [hflat Call.ids, hrest Call.ids]
      exact (sublist_append_left _ _).append (.refl _))
    (fun c hc r hr => ⟨c, (eraseIdx_sublist _ _).subset hc, hr⟩)
  refine ⟨cells', ?_, hlinked⟩
  unfold Prog.removeCall
  rw [getElem?_eq_getElem hidx]
  unfold Call.validated Call.argResults at hok
  rw [foldlM_append, ← removeArgs_eq] at hok
  dsimp only
  rw [← bind_assoc, hok]
  rfl

/-- **`removeArg` and taking the argument out keep the program well linked.** -/
theorem Prog.WellLinked.detach {k : Place} {arg : Arg} (h : (k.fill arg).WellLinked s)
    (target : Target) {p' : Prog} (hp' : k.detach = some p') :
    ∃ cells', removeArg target s.cells arg = .ok cells' ∧ p'.WellLinked ⟨cells', s.next⟩ := by
  refine h.unlink target p' k.pre arg.results k.post (k.validated_fill arg)
    (Place.validated_detach hp') ?_ ?_
  · rw [k.ids_fill]
    exact (Place.ids_detach hp').trans
      ((sublist_append_left _ _).append (List.Sublist.refl _))
  obtain ⟨b, -, rfl⟩ := Option.map_eq_some_iff.mp hp'
  intro c hc r hr
  unfold Place.withArgs at hc
  unfold Place.fill Place.withArgs
  simp only [mem_append, mem_cons] at hc ⊢
  rcases hc with hc | rfl | hc
  · exact ⟨c, .inl hc, hr⟩
  · exact ⟨_, .inr (.inl rfl), hr⟩
  · exact ⟨c, .inr (.inr hc), hr⟩

/-! ## Generated calls -/

/-- The store after new objects have been made: the results `order` among them
refer to the results `avail` or to each other, and `MakeResultArg` has entered
them into the uses of what they refer to. -/
structure Generated (s s' : Store) (avail order objects : List Id) : Prop where
  nodup : objects.Nodup
  fresh : ∀ i ∈ objects, s.next ≤ i ∧ i < s'.next
  grows : s.next ≤ s'.next
  sub : order.Sublist objects
  refs : ∀ x ∈ order, ∀ y, s'.cells.res x = some y → y ∈ avail ∨ [y, x].Sublist order
  old : ∀ i < s.next, s'.cells.res i = s.cells.res i
  uses : ∀ i < s.next, ∀ x, x ∈ s'.cells.uses i ↔
    x ∈ s.cells.uses i ∨ (x ∈ order ∧ s'.cells.res x = some i)
  newUses : ∀ y ∈ order, ∀ x, x ∈ s'.cells.uses y ↔ x ∈ order ∧ s'.cells.res x = some y

/-- New results put between the results of a well linked program. -/
theorem Prog.WellLinked.extend {s' : Store} (h : p.WellLinked s) {pre order post objects : List Id}
    (hsplit : p.validated = pre ++ post) (hgen : Generated s s' pre order objects) :
    Linked s'.cells.res s'.cells.uses (pre ++ order ++ post) := by
  have hlive : ∀ x ∈ pre ++ post, x < s.next := fun x hx =>
    h.live x (p.validated_sublist_ids.subset (hsplit ▸ hx))
  have hnew : ∀ x ∈ order, s.next ≤ x := fun x hx => (hgen.fresh x (hgen.sub.subset hx)).1
  have hlinked := h.linked
  rw [hsplit] at hlinked
  have hself : ∀ x ∈ order, s'.cells.res x ≠ some x := by
    intro x hx hxx
    rcases hgen.refs x hx x hxx with hpre | hpair
    · exact Nat.not_lt.mpr (hnew x hx) (hlive x (mem_append_left _ hpre))
    · exact absurd (hpair.nodup (hgen.sub.nodup hgen.nodup)) (by simp)
  have hset : {x | x ∈ pre ++ order ++ post} = {x | x ∈ pre ++ post} ∪ {x | x ∈ order} := by
    ext x
    simp only [Set.mem_union, Set.mem_ofPred_eq, mem_append]
    tauto
  refine hlinked.insert ?_ (fun x hx => hgen.old x (hlive x hx)) hgen.refs
  rw [hset]
  refine hlinked.consistent.extend (fun x hx => hgen.old x (hlive x hx)) ?_ hself
    (fun y hy => hgen.uses y (hlive y hy)) hgen.newUses
  intro x hx y hxy
  rcases hgen.refs x hx y hxy with hpre | hpair
  · exact .inl (mem_append_left _ hpre)
  · exact .inr (hpair.subset (by simp))

/-- **`insertBefore` of generated calls keeps the program well linked.** -/
theorem Prog.WellLinked.insertBefore {s' : Store} (h : p.WellLinked s) (idx : Nat)
    {calls : List Call}
    (hgen : Generated s s' ((p.calls.take idx).flatMap Call.validated)
      (calls.flatMap Call.validated) (calls.flatMap Call.ids))
    (hret : ∀ c ∈ calls, ∀ r ∈ c.ret, s'.cells.res r = none) :
    (p.insertBefore idx calls).WellLinked s' := by
  have hflat : ∀ f : Call → List Id, p.calls.flatMap f =
      (p.calls.take idx).flatMap f ++ (p.calls.drop idx).flatMap f := by
    intro f
    rw [← flatMap_append, take_append_drop]
  have hflat' : ∀ f : Call → List Id, (p.insertBefore idx calls).calls.flatMap f =
      (p.calls.take idx).flatMap f ++ calls.flatMap f ++ (p.calls.drop idx).flatMap f := by
    intro f
    unfold Prog.insertBefore
    rw [flatMap_append, flatMap_append]
  have hids := hflat Call.ids
  have hold : ∀ i ∈ p.ids, i ∉ calls.flatMap Call.ids := by
    intro i hi hi'
    exact Nat.not_lt.mpr (hgen.fresh i hi').1 (h.live i hi)
  refine ⟨?_, ?_, ?_, ?_⟩
  · have htree := h.tree
    unfold Prog.ids at htree hold ⊢
    rw [hids] at htree hold
    rw [hflat' Call.ids]
    have hperm : ((p.calls.take idx).flatMap Call.ids ++ calls.flatMap Call.ids ++
        (p.calls.drop idx).flatMap Call.ids).Perm
        (((p.calls.take idx).flatMap Call.ids ++ (p.calls.drop idx).flatMap Call.ids) ++
          calls.flatMap Call.ids) := by
      rw [append_assoc, append_assoc]
      exact (perm_append_comm).append_left _
    rw [hperm.nodup_iff, nodup_append]
    refine ⟨htree, hgen.nodup, ?_⟩
    rintro a ha b hb rfl
    exact hold a ha hb
  · intro i hi
    unfold Prog.ids at hi
    rw [hflat' Call.ids] at hi
    have hgrows := hgen.grows
    by_cases hi' : i ∈ calls.flatMap Call.ids
    · exact (hgen.fresh i hi').2
    have : i ∈ p.ids := by
      unfold Prog.ids
      rw [hids]
      simp only [mem_append] at hi ⊢
      tauto
    exact lt_of_lt_of_le (h.live i this) hgrows
  · intro c hc r hr
    unfold Prog.insertBefore at hc
    simp only [mem_append] at hc
    have hcall : c ∈ p.calls → s'.cells.res r = none := by
      intro hc
      rw [hgen.old r (h.live r ?_)]
      · exact h.ret c hc r hr
      · refine mem_flatMap.mpr ⟨c, hc, ?_⟩
        unfold Call.ids
        rw [Option.mem_def.mp hr]
        simp
    rcases hc with (hc | hc) | hc
    · exact hcall (mem_of_mem_take hc)
    · exact hret c hc r hr
    · exact hcall (mem_of_mem_drop hc)
  · unfold Prog.validated
    rw [hflat' Call.validated]
    exact h.extend (hflat Call.validated) hgen

end Sect.Program
