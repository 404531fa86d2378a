import SectProof.ProgClone
import SectProof.ValidProgram

/-! # Types of copies

What `validate` asks of the types, values and conditions of a call does not depend
on the identities of its arguments: a copy under other identities, whose results
have the same contents, is as good as the original.
-/

open List

namespace Sect.Program

open ErrorChecks

/-- `b` has the contents of `a`, as far as types are concerned. -/
structure ResultArg.Copies (a b : ResultArg) : Prop where
  common : b.toArgCommon = a.toArgCommon
  val : b.val = a.val
  opDiv : b.opDiv = a.opDiv
  opAdd : b.opAdd = a.opAdd
  res : a.res = none → b.res = none
  uses : b.uses ≠ [] → a.uses ≠ []

namespace Arg

section Known

variable (cells cells' : Cells) (f : Id → Id)

/-- The results of an argument have copies under `f`. -/
def Known (a : Arg) : Prop := ∀ r ∈ a.results, (cells r).Copies (cells' (f r))

variable {cells cells' f}

theorem known_pointer {id c addr n} {res : Arg} :
    (pointer id c addr n res).Known cells cells' f ↔ res.Known cells cells' f := by
  rfl

theorem known_union {id c index transient} {option : Arg} :
    (union id c option index transient).Known cells cells' f ↔ option.Known cells cells' f := by
  rfl

theorem known_group {id c} {inner : List Arg} : (group id c inner).Known cells cells' f ↔
    ∀ a ∈ inner, a.Known cells cells' f := by
  simp only [Known, results_group, mem_flatMap]
  constructor
  · intro h a ha r hr
    exact h r ⟨a, ha, hr⟩
  · rintro h r ⟨a, ha, hr⟩
    exact h a ha r hr

theorem id_rename (a : Arg) : (a.rename f).id = f a.id := by
  cases a <;> rfl

theorem common_rename {a : Arg} (h : a.Known cells cells' f) :
    (a.rename f).common cells' = a.common cells := by
  cases a with
  | result r => exact (h r (by simp)).common
  | _ => rfl

theorem type_rename (target : Target) {a : Arg} (h : a.Known cells cells' f) :
    (a.rename f).type target cells' = a.type target cells := by
  rw [type, type, common_rename h]

theorem rename_group (id : Id) (c : ArgCommon) (inner : List Arg) :
    (group id c inner).rename f = group (f id) c (inner.map (rename f)) := by
  rw [rename, renameList_eq]

end Known

section Sizes

variable {target : Target} {cells cells' : Cells} {f : Id → Id}

theorem sizeList_eq (as : List Arg) :
    size.sizeList target cells as = as.map (size target cells) := by
  induction as with
  | nil => rfl
  | cons a as ih => rw [size.sizeList, ih, map_cons]

theorem size_rename {a : Arg} (h : a.Known cells cells' f) :
    (a.rename f).size target cells' = a.size target cells := by
  induction a using Arg.induct with
  | group id c inner ih =>
    have hsizes : (inner.map (rename f)).map (size target cells') =
        inner.map (size target cells) := by
      rw [map_map]
      exact map_congr_left fun a ha => ih a ha (known_group.mp h a ha)
    rw [rename_group, size, size, sizeList_eq, sizeList_eq, hsizes, length_map]
  | union id c option index transient ih =>
    rw [rename, size, size, ih (known_union.mp h)]
  | result r => exact congrArg Ty.size (type_rename target h)
  | _ => rfl

theorem innerArg_other {a : Arg} (ha : a.isPointer = false) : a.innerArg target cells =
    if (a.type target cells).isPtr then throw .badCast else pure (some a) := by
  cases a with
  | pointer | address => cases ha
  | _ => rfl

theorem innerArg_rename {a : Arg} (h : a.Known cells cells' f) :
    (a.rename f).innerArg target cells' =
      Option.map (rename f) <$> a.innerArg target cells := by
  induction a using Arg.induct with
  | pointer id c addr n res ih =>
    rw [rename, innerArg, innerArg]
    split
    · exact ih (known_pointer.mp h)
    · rfl
  | address id c addr n =>
    rw [rename, innerArg, innerArg]
    split <;> rfl
  | _ =>
    rw [innerArg_other rfl, innerArg_other rfl, type_rename target h]
    split <;> rfl

theorem innerArg_known {a b : Arg} (h : a.Known cells cells' f)
    (hb : a.innerArg target cells = .ok (some b)) : b.Known cells cells' f := by
  induction a using Arg.induct with
  | pointer id c addr n res ih =>
    rw [innerArg] at hb
    split at hb
    · exact ih (known_pointer.mp h) hb
    · cases hb
      exact h
  | address id c addr n =>
    rw [innerArg] at hb
    split at hb
    · cases hb
    · cases hb
      exact h
  | _ =>
    rw [innerArg_other rfl] at hb
    split at hb
    · cases hb
    · cases hb
      exact h

end Sizes

end Arg

/-! ## Conditions -/

section Conditions

variable {target : Target} {cells cells' : Cells} {f : Id → Id}

def Parents.rename (f : Id → Id) (parents : Parents) : Parents :=
  parents.map fun entry => (entry.1.map f, entry.2.rename f)

/-- Every parent has a copy. -/
def Parents.Known (cells cells' : Cells) (f : Id → Id) (parents : Parents) : Prop :=
  ∀ entry ∈ parents, entry.2.Known cells cells' f

theorem Parents.find_rename (hf : Function.Injective f) (parents : Parents) (pos : Option Id) :
    (parents.rename f).find (pos.map f) = (parents.find pos).map (Arg.rename f) := by
  unfold Parents.find Parents.rename
  induction parents with
  | nil => rfl
  | cons entry parents ih =>
    rw [map_cons, lookup_cons, lookup_cons]
    have hkey : (pos.map f == entry.1.map f) = (pos == entry.1) := by
      rw [Bool.eq_iff_iff, beq_iff_eq, beq_iff_eq]
      exact (Option.map_injective hf).eq_iff
    rw [hkey]
    cases pos == entry.1 with
    | true => rfl
    | false => exact ih

theorem Parents.find_known {parents : Parents} (h : parents.Known cells cells' f)
    {pos : Option Id} {a : Arg} (ha : parents.find pos = some a) : a.Known cells cells' f := by
  unfold Parents.find at ha
  induction parents with
  | nil => cases ha
  | cons entry parents ih =>
    rw [Parents.Known, forall_mem_cons] at h
    rw [lookup_cons] at ha
    split at ha
    · cases ha
      exact h.1
    · exact ih h.2 ha

theorem saveParent_rename (arg : Arg) (parents : Parents) {field : Arg}
    (h : field.Known cells cells' f) :
    saveParent target cells' (arg.rename f) (parents.rename f) (field.rename f) =
      Parents.rename f <$> saveParent target cells arg parents field := by
  unfold saveParent
  rw [Arg.innerArg_rename h]
  rcases field.innerArg target cells with e | (- | a)
  · rfl
  · rfl
  · change Except.ok ((some (a.rename f).id, _) :: _) = _
    rw [Arg.id_rename]
    rfl

theorem leafParents_rename (isStruct : Bool) (parents : Parents) :
    (if isStruct then throw .badCast else pure (parents.rename f) : Except Panic Parents) =
      Parents.rename f <$> if isStruct then throw .badCast else pure parents := by
  cases isStruct <;> rfl

theorem saveToParentsMap_rename (parents : Parents) {arg : Arg} (h : arg.Known cells cells' f) :
    saveToParentsMap target cells' (parents.rename f) (arg.rename f) =
      Parents.rename f <$> saveToParentsMap target cells parents arg := by
  cases arg with
  | group id c inner =>
    have hsave := foldlM_map_of (fun a ha parents => @saveParent_rename target cells cells' f
      (.group id c inner) parents a (Arg.known_group.mp h a ha)) parents
    rw [Arg.rename_group] at hsave ⊢
    unfold saveToParentsMap
    dsimp only
    rw [hsave]
    split <;> rfl
  | union id c option index transient =>
    exact saveParent_rename (.union id c option index transient) parents (Arg.known_union.mp h)
  | result r =>
    refine .trans ?_ (leafParents_rename ((Arg.result r).type target cells).isStruct parents)
    rw [← Arg.type_rename target h]
    rfl
  | _ => exact leafParents_rename _ parents

theorem saveToParentsMap_known {parents parents' : Parents} {arg : Arg}
    (hparents : parents.Known cells cells' f) (h : arg.Known cells cells' f)
    (hok : saveToParentsMap target cells parents arg = .ok parents') :
    parents'.Known cells cells' f := by
  have hone : ∀ {parents parents' : Parents} {field : Arg}, parents.Known cells cells' f →
      saveParent target cells arg parents field = .ok parents' →
      parents'.Known cells cells' f := by
    intro parents parents' field hparents hok
    obtain ⟨inner, -, hpure⟩ := bind_eq_ok.mp hok
    rw [← pure_eq_ok.mp hpure]
    exact forall_mem_cons.mpr ⟨h, hparents⟩
  unfold saveToParentsMap at hok
  split at hok
  · split at hok
    · exact foldlM_invariant (fun _ _ => hone) hparents hok
    · cases hok
      exact hparents
  · exact hone hparents hok
  · split at hok
    · cases hok
    · cases hok
      exact hparents

theorem findField_rename (elem : String) (overlayField : Nat) (args : List Arg)
    (h : ∀ a ∈ args, a.Known cells cells' f) : ∀ (i : Nat) (offset : UInt64) (fields : List Field),
    findField target cells' elem overlayField i offset (args.map (Arg.rename f)) fields =
      Option.map (Prod.map (Arg.rename f) id) <$>
        findField target cells elem overlayField i offset args fields := by
  induction args with
  | nil =>
    intro i offset fields
    rfl
  | cons buf args ih =>
    intro i offset fields
    rw [forall_mem_cons] at h
    cases fields with
    | nil => rfl
    | cons field fields =>
      rw [map_cons, findField, findField, Arg.size_rename h.1, ih h.2]
      split
      · rfl
      · rfl

theorem findField_mem {elem : String} {overlayField : Nat} {args : List Arg} {found : Arg × UInt64} :
    ∀ {i : Nat} {offset : UInt64} {fields : List Field},
    findField target cells elem overlayField i offset args fields = .ok (some found) →
    found.1 ∈ args := by
  induction args with
  | nil =>
    intro i offset fields hok
    cases hok
  | cons buf args ih =>
    intro i offset fields hok
    cases fields with
    | nil => cases hok
    | cons field fields =>
      rw [findField] at hok
      split at hok
      · cases hok
        exact mem_cons_self
      · exact mem_cons_of_mem _ (ih hok)

section Find

variable (hf : Function.Injective f) {parents : Parents} (h : parents.Known cells cells' f)

include hf h in
theorem findParent_rename (elem : String) (fuel : Nat) : ∀ pos : Option Id,
    findParent target cells' (parents.rename f) elem fuel (pos.map f) =
      (findParent target cells parents elem fuel pos).map (Arg.rename f) := by
  induction fuel with
  | zero =>
    intro pos
    rfl
  | succ fuel ih =>
    intro pos
    rw [findParent, findParent, Parents.find_rename hf]
    cases hfind : parents.find pos with
    | none => rfl
    | some buf =>
      have hbuf := ih (some buf.id)
      rw [Option.map_some] at hbuf ⊢
      dsimp only
      rw [Arg.type_rename target (Parents.find_known h hfind), Arg.id_rename, hbuf]
      split <;> rfl

include h in
theorem findParent_known {elem : String}
    {buf : Arg} {fuel : Nat} : ∀ {pos : Option Id},
    findParent target cells parents elem fuel pos = some buf → buf.Known cells cells' f := by
  induction fuel with
  | zero =>
    intro pos hbuf
    cases hbuf
  | succ fuel ih =>
    intro pos hbuf
    rw [findParent] at hbuf
    split at hbuf
    · cases hbuf
    · rename_i hfind
      split at hbuf
      · cases hbuf
        exact Parents.find_known h hfind
      · exact ih hbuf

theorem Arg.fieldStruct_rename (a : Arg) : (a.rename f).fieldStruct target cells' =
    (fun found => (found.1.map (Arg.rename f), found.2)) <$> a.fieldStruct target cells := by
  cases a with
  | group id c inner =>
    rw [Arg.rename_group, Arg.fieldStruct, Arg.fieldStruct]
    dsimp only [Arg.type, Arg.common]
    cases target.types c.ref <;> rfl
  | _ => rfl

theorem Arg.fieldStruct_known {a : Arg} {args : List Arg} {fields : List Field} {overlayField : Nat}
    (h : a.Known cells cells' f)
    (hok : a.fieldStruct target cells = .ok (args, fields, overlayField)) :
    ∀ b ∈ args, b.Known cells cells' f := by
  cases a with
  | group id c inner =>
    rw [Arg.fieldStruct] at hok
    split at hok
    · cases hok
      exact Arg.known_group.mp h
    · cases hok
  | union id c option index transient =>
    cases hok
    intro b hb
    cases hb
  | _ => cases hok

def FoundArg.rename (f : Id → Id) (found : FoundArg) : FoundArg :=
  { found with arg := found.arg.map (Arg.rename f) }

include hf h in
theorem findElem_rename (elem : String) (pos : Option Id) {args : List Arg}
    (hargs : ∀ a ∈ args, a.Known cells cells' f) (fields : List Field) (overlayField : Nat) :
    findElem target cells' (parents.rename f) elem (pos.map f) (args.map (Arg.rename f)) fields
        overlayField =
      Sum.map (FoundArg.rename f) (Prod.map (Option.map (Arg.rename f)) id) <$>
        findElem target cells parents elem pos args fields overlayField := by
  unfold findElem
  rw [findField_rename elem overlayField args hargs]
  rcases hfield : findField target cells elem overlayField 0 0 args fields with e | (- | ⟨buf, offset⟩)
  · rfl
  · -- no field of that name: one of the parents
    have hlen : (parents.rename f).length = parents.length := length_map _
    rw [Parents.find_rename hf, hlen, findParent_rename hf h]
    split
    · rfl
    · cases findParent target cells parents elem (parents.length + 1) pos <;> rfl
  · have hbuf : buf.Known cells cells' f := hargs buf (findField_mem hfield)
    change (if _ then _ else _ : Except Panic _) = _ <$> (if _ then _ else _ : Except Panic _)
    rw [Arg.common_rename hbuf, Arg.innerArg_rename hbuf]
    split
    · rfl
    · rcases buf.innerArg target cells with e | (- | a) <;> rfl

include h in
theorem findElem_known {elem : String} {pos : Option Id} {args : List Arg} (hargs : ∀ a ∈ args, a.Known cells cells' f)
    {fields : List Field} {overlayField : Nat} {buf : Arg} {offset : UInt64}
    (hok : findElem target cells parents elem pos args fields overlayField =
      .ok (.inr (some buf, offset))) : buf.Known cells cells' f := by
  obtain ⟨found, hfield, hok⟩ := bind_eq_ok.mp hok
  rcases found with - | ⟨buf₁, offset₁⟩
  · dsimp only at hok
    split at hok
    · cases hfind : parents.find pos with
      | none =>
        rw [hfind] at hok
        cases hok
      | some buf₁ =>
        rw [hfind] at hok
        cases hok
        exact Parents.find_known h hfind
    · split at hok
      · rename_i hparent
        cases hok
        exact findParent_known h hparent
      · cases hok
  · dsimp only at hok
    split at hok
    · cases hok
    obtain ⟨inner, hinner, hok⟩ := bind_eq_ok.mp hok
    cases inner with
    | none => cases hok
    | some a =>
      cases hok
      exact Arg.innerArg_known (hargs buf₁ (findField_mem hfield)) hinner

include hf h

theorem findArg_rename (path : List String) :
    ∀ (pos : Option Id) (args : List Arg) (fields : List Field) (overlayField : Nat),
    (∀ a ∈ args, a.Known cells cells' f) →
    findArg target cells' (parents.rename f) path (pos.map f) (args.map (Arg.rename f)) fields
        overlayField =
      FoundArg.rename f <$> findArg target cells parents path pos args fields overlayField := by
  induction path with
  | nil =>
    intro pos args fields overlayField _
    rfl
  | cons elem path ih =>
    intro pos args fields overlayField hargs
    rw [findArg, findArg, findElem_rename hf h elem pos hargs]
    rcases helem : findElem target cells parents elem pos args fields overlayField with
      e | (found | ⟨buf, offset⟩)
    · rfl
    · rfl
    change (if path = [] then _ else _) = _ <$> (if path = [] then _ else _)
    split
    · rfl
    cases buf with
    | none => rfl
    | some buf =>
      have hbuf := findElem_known h hargs helem
      dsimp only [Prod.map, Option.map_some]
      rw [Arg.fieldStruct_rename, Arg.id_rename]
      rcases hstruct : buf.fieldStruct target cells with e | ⟨args', fields', overlay'⟩
      · rfl
      · exact ih (some buf.id) args' fields' overlay' (Arg.fieldStruct_known hbuf hstruct)

theorem argFinder_rename (option : Arg) :
    argFinder target cells' (parents.rename f) (option.rename f) =
      argFinder target cells parents option := by
  funext path
  have hfind := @findArg_rename target cells cells' f hf parents h path (some option.id) [] [] 0
    (by simp)
  rw [Option.map_some, map_nil] at hfind
  unfold argFinder
  rw [Arg.id_rename, hfind]
  rcases findArg target cells parents path (some option.id) [] [] 0 with
    e | ⟨- | a, offset, isAnyPtr⟩
  · rfl
  · rfl
  · cases a <;> rfl

theorem staleUnion_rename (a : Arg) :
    staleUnion target cells' (parents.rename f) (a.rename f) =
      staleUnion target cells parents a := by
  cases a with
  | union id c option index transient =>
    rw [Arg.rename, staleUnion, staleUnion, argFinder_rename hf h]
  | _ => rfl

theorem mapM_staleUnion_rename (args : List Arg) :
    (args.map (Arg.rename f)).mapM (staleUnion target cells' (parents.rename f)) =
      args.mapM (staleUnion target cells parents) := by
  have hstale : staleUnion target cells' (parents.rename f) ∘ Arg.rename f =
      staleUnion target cells parents := funext fun a => staleUnion_rename hf h a
  rw [mapM_map, hstale]

end Find

theorem Arg.unsquashedList_eq (as : List Arg) :
    Arg.unsquashed.unsquashedList target as = as.flatMap (Arg.unsquashed target) := by
  induction as with
  | nil => rfl
  | cons a as ih => rw [Arg.unsquashed.unsquashedList, ih, flatMap_cons]

theorem Arg.unsquashed_rename (a : Arg) :
    (a.rename f).unsquashed target = (a.unsquashed target).map (Arg.rename f) := by
  induction a using Arg.induct with
  | pointer id c addr n res ih =>
    rw [Arg.rename, Arg.unsquashed, Arg.unsquashed, map_cons, ih]
    split <;> rfl
  | group id c inner ih =>
    have hinner : (inner.map (Arg.rename f)).flatMap (Arg.unsquashed target) =
        (inner.flatMap (Arg.unsquashed target)).map (Arg.rename f) := flatMap_map_congr ih
    rw [Arg.rename_group, Arg.unsquashed, Arg.unsquashed, map_cons, Arg.unsquashedList_eq,
      Arg.unsquashedList_eq, hinner, Arg.rename_group]
    split <;> rfl
  | union id c option index transient ih =>
    rw [Arg.rename, Arg.unsquashed, Arg.unsquashed, map_cons, ih]
    split <;> rfl
  | _ => rfl

theorem Arg.subArgs_rename (a : Arg) : (a.rename f).subArgs = a.subArgs.map (Arg.rename f) := by
  induction a using Arg.induct with
  | pointer id c addr n res ih =>
    rw [Arg.rename, Arg.subArgs, Arg.subArgs, map_cons, ih]
    rfl
  | group id c inner ih =>
    rw [Arg.rename_group, Arg.subArgs, Arg.subArgs, map_cons, Arg.subArgsList_eq,
      Arg.subArgsList_eq, Arg.rename_group]
    exact congrArg _ (flatMap_map_congr ih)
  | union id c option index transient ih =>
    rw [Arg.rename, Arg.subArgs, Arg.subArgs, map_cons, ih]
    rfl
  | _ => rfl

theorem Arg.subArgs_known {a : Arg} (h : a.Known cells cells' f) :
    ∀ b ∈ a.subArgs, b.Known cells cells' f := by
  induction a using Arg.induct with
  | pointer id c addr n res ih =>
    rw [Arg.subArgs, forall_mem_cons]
    exact ⟨h, ih (Arg.known_pointer.mp h)⟩
  | group id c inner ih =>
    rw [Arg.subArgs, forall_mem_cons, Arg.subArgsList_eq]
    refine ⟨h, ?_⟩
    intro b hb
    obtain ⟨a, ha, hb⟩ := mem_flatMap.mp hb
    exact ih a ha (Arg.known_group.mp h a ha) b hb
  | union id c option index transient ih =>
    rw [Arg.subArgs, forall_mem_cons]
    exact ⟨h, ih (Arg.known_union.mp h)⟩
  | _ =>
    intro b hb
    rw [mem_singleton.mp hb]
    exact h

/-- The results of a call have copies under `f`. -/
def Call.Known (cells cells' : Cells) (f : Id → Id) (c : Call) : Prop :=
  ∀ r ∈ c.validated, (cells r).Copies (cells' (f r))

variable {c : Call}

theorem Call.Known.args (h : c.Known cells cells' f) : ∀ a ∈ c.args, a.Known cells cells' f := by
  intro a ha r hr
  exact h r (mem_append_left _ (mem_flatMap.mpr ⟨a, ha, hr⟩))

theorem Call.Known.subArgs (h : c.Known cells cells' f) :
    ∀ a ∈ c.subArgs, a.Known cells cells' f := by
  intro b hb
  obtain ⟨a, ha, hb⟩ := mem_flatMap.mp hb
  exact Arg.subArgs_known (h.args a ha) b hb

theorem Call.Known.callParentsMap (h : c.Known cells cells' f) :
    callParentsMap target cells' (c.rename f) =
      Parents.rename f <$> callParentsMap target cells c := by
  have hsub : (c.rename f).subArgs = c.subArgs.map (Arg.rename f) :=
    flatMap_map_congr fun a _ => a.subArgs_rename
  unfold Program.callParentsMap
  rw [hsub]
  exact foldlM_map_of (fun a ha parents => saveToParentsMap_rename parents (h.subArgs a ha)) []

theorem Call.Known.parents (h : c.Known cells cells' f) {parents : Parents}
    (hok : Program.callParentsMap target cells c = .ok parents) : parents.Known cells cells' f := by
  have hempty : Parents.Known cells cells' f [] := by
    intro entry hentry
    cases hentry
  exact foldlM_invariant (fun a ha {_ _} hs => saveToParentsMap_known hs (h.subArgs a ha)) hempty hok

/-- **The stale unions of a copy are those of the original.** -/
theorem Call.Known.forEachStaleUnion (hf : Function.Injective f) (h : c.Known cells cells' f) :
    (c.rename f).forEachStaleUnion target cells' = c.forEachStaleUnion target cells := by
  have hun : (c.rename f).args.flatMap (Arg.unsquashed target) =
      (c.args.flatMap (Arg.unsquashed target)).map (Arg.rename f) :=
    flatMap_map_congr fun a _ => a.unsquashed_rename
  unfold Call.forEachStaleUnion
  rw [hun, h.callParentsMap, bind_map_left]
  cases hok : Program.callParentsMap target cells c with
  | error e => rw [error_bind, error_bind]
  | ok parents => rw [ok_bind, ok_bind, mapM_staleUnion_rename hf (h.parents hok)]

theorem Call.Known.checkConditions (hf : Function.Injective f) (h : c.Known cells cells' f)
    (ignoreTransient : Bool) :
    (c.rename f).checkConditions target cells' ignoreTransient =
      c.checkConditions target cells ignoreTransient := by
  unfold Call.checkConditions
  rw [h.forEachStaleUnion hf]

end Conditions

/-! ## Types -/

section Types

variable {target : Target} {cells cells' : Cells} {f : Id → Id}

theorem ResultArg.Copies.typed {a b : ResultArg} (h : a.Copies b) (ha : a.Typed target) :
    b.Typed target := by
  unfold ResultArg.Typed at ha ⊢
  rw [h.common, h.val]
  cases htype : target.types a.ref
  case resource common format default =>
    rw [htype] at ha
    exact ⟨ha.1, fun huses => ha.2 (h.uses huses)⟩
  all_goals
    rw [htype] at ha
    exact ha.elim

theorem Arg.typedList_rename {as : List Arg}
    (ih : ∀ a ∈ as, ∀ typ dir, a.Typed target cells typ dir →
      (a.rename f).Typed target cells' typ dir) :
    ∀ places, Arg.Typed.TypedList target cells as places →
      Arg.Typed.TypedList target cells' (as.map (Arg.rename f)) places := by
  induction as with
  | nil =>
    intro places h
    exact h
  | cons a as iha =>
    intro places h
    rw [forall_mem_cons] at ih
    cases places with
    | nil => exact h
    | cons place places => exact ⟨ih.1 place.1 place.2 h.1, iha ih.2 places h.2⟩

/-- A copy of a typed argument is typed. -/
theorem Arg.Typed.rename {a : Arg} (h : a.Known cells cells' f) : ∀ {typ : Ref} {dir : Dir},
    a.Typed target cells typ dir → (a.rename f).Typed target cells' typ dir := by
  induction a using Arg.induct with
  | pointer id c addr n res ih =>
    intro typ dir ha
    have hres := Arg.known_pointer.mp h
    rw [Arg.rename, Arg.Typed]
    rw [Arg.Typed] at ha
    refine ⟨ha.1, ?_⟩
    have ha := ha.2
    cases htype : target.types c.ref
    case ptr common elem elemDir =>
      rw [htype] at ha
      rw [Arg.size_rename hres]
      exact ⟨ih hres ha.1, ha.2⟩
    all_goals
      rw [htype] at ha
      exact ha.elim
  | group id c inner ih =>
    intro typ dir ha
    have hinner := Arg.known_group.mp h
    have hlist := Arg.typedList_rename fun a hmem typ dir ha => ih a hmem (hinner a hmem) ha
    rw [Arg.rename_group, Arg.Typed, length_map]
    refine ⟨ha.1, ?_⟩
    have ha := ha.2
    cases htype : target.types c.ref
    case struct common fields align overlay =>
      rw [htype] at ha
      exact ⟨ha.1, hlist _ ha.2⟩
    case array common elem kind rangeBegin rangeEnd =>
      rw [htype] at ha
      exact ⟨ha.1, hlist _ ha.2⟩
    all_goals
      rw [htype] at ha
      exact ha.elim
  | union id c option index transient ih =>
    intro typ dir ha
    refine ⟨ha.1, ?_⟩
    have ha := ha.2
    cases htype : target.types c.ref
    case union common fields =>
      rw [htype] at ha
      dsimp only at ha ⊢
      cases hopt : fields[index]? with
      | none =>
        rw [hopt] at ha
        exact ha.elim
      | some opt =>
        rw [hopt] at ha
        exact ih (Arg.known_union.mp h) ha
    all_goals
      rw [htype] at ha
      exact ha.elim
  | result r =>
    intro typ dir ha
    have hcopy := h r (by simp)
    refine ⟨?_, hcopy.typed ha.2⟩
    rw [hcopy.common]
    exact ha.1
  | _ =>
    intro typ dir ha
    exact ha

theorem Call.RetTyped.rename {c : Call} (h : c.Known cells cells' f)
    (hc : c.RetTyped target cells) : (c.rename f).RetTyped target cells' := by
  unfold Call.RetTyped Call.rename at *
  cases htype : c.syscall.ret with
  | none =>
    rw [htype] at hc
    cases hret : c.ret with
    | none => trivial
    | some ret =>
      rw [hret] at hc
      exact hc.elim
  | some typ =>
    rw [htype] at hc
    cases hret : c.ret with
    | none =>
      rw [hret] at hc
      exact hc.elim
    | some ret =>
      rw [hret] at hc
      have hcopy := h ret (by simp [Call.validated, hret])
      have hknown : (Arg.result ret).Known cells cells' f := by
        intro r hr
        rw [mem_singleton.mp hr]
        exact hcopy
      refine ⟨⟨hcopy.res hc.1.1, ?_, ?_, ?_⟩, hc.2.rename hknown⟩
      · exact hcopy.val.trans hc.1.2.1
      · exact hcopy.opDiv.trans hc.1.2.2.1
      · exact hcopy.opAdd.trans hc.1.2.2.2

/-- **A copy of a typed call is typed.** -/
theorem Call.Typed.rename (hf : Function.Injective f) {c : Call} (h : c.Known cells cells' f)
    {ignoreTransient : Bool} (hc : c.Typed target cells ignoreTransient) :
    (c.rename f).Typed target cells' ignoreTransient := by
  obtain ⟨hdisabled, hprops, hlen, hargs, hcond, hret⟩ := hc
  refine ⟨hdisabled, hprops, ?_, ?_, ?_, hret.rename h⟩
  · exact (length_map _).trans hlen
  · exact Arg.typedList_rename (fun a ha typ dir htyped => htyped.rename (h.args a ha)) _ hargs
  · rw [h.checkConditions hf]
    exact hcond

end Types

/-- **A clone of a typed program is typed.** -/
theorem Prog.WellLinked.typed_clone {target : Target} {s s' : Store} {p : Prog}
    {ignoreTransient : Bool} (h : p.WellLinked s) (h' : (p.rename (s.next + ·)).WellLinked s')
    (hcopy : ∀ a ∈ p.validated, { s'.cells (s.next + a) with uses := [] } =
      { s.cells a with res := (s.cells.res a).map (s.next + ·), uses := [] })
    (htyped : p.Typed target s.cells ignoreTransient) :
    (p.rename (s.next + ·)).Typed target s'.cells ignoreTransient := by
  intro c' hc'
  obtain ⟨c, hc, rfl⟩ := mem_map.mp hc'
  refine (htyped c hc).rename (fun _ _ hxy => Nat.add_left_cancel hxy) ?_
  intro r hr
  have hr' : r ∈ p.validated := mem_flatMap.mpr ⟨c, hc, hr⟩
  have hfields := hcopy r hr'
  injection hfields with hcommon hres hdiv hadd hval
  refine ⟨hcommon, hval, hdiv, hadd, ?_, ?_⟩
  · intro hnone
    have hnone' : s.cells.res r = none := hnone
    rw [hres, hnone']
    rfl
  · intro huses
    obtain ⟨z, hz⟩ := exists_mem_of_ne_nil _ huses
    have hresAll : ∀ a ∈ p.validated,
        s'.cells.res (s.next + a) = (s.cells.res a).map (s.next + ·) :=
      fun a ha => congrArg ResultArg.res (hcopy a ha)
    obtain ⟨x, hx, -⟩ := (h.uses_copy h' hresAll hr' z).mp hz
    exact ne_nil_of_mem hx

end Sect.Program
