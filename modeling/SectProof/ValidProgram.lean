import SectProof.ProgValidate
import SectProof.WellLinked

/-! # What `validate` accepts

A program is accepted exactly if every argument has the type, the direction and a
value that its place asks for (`Prog.Typed`), no argument object occurs twice,
and the links agree (`Prog.Checked`).  The types do not depend on the identities
of the arguments, the links depend on nothing else.
-/

open List

namespace Sect.Program

open ErrorChecks RefGraph

/-! ## Types -/

section Typed

variable (target : Target) (cells : Cells)

/-- The type and the direction of an argument suit its place. -/
def ArgCommon.Suits (c : ArgCommon) (typ : Ref) (dir : Dir) : Prop :=
  (c.dir = expectedDir target typ dir ∨ expectedDir target typ dir = .dirInOut) ∧
    (target.isAnyPtr c.ref = true ∨ c.ref = typ)

/-- What `validate` asks of a result, its links apart. -/
def ResultArg.Typed (arg : ResultArg) : Prop :=
  match target.types arg.ref with
  | .resource common _ default =>
    (arg.dir = .dirOut → arg.val ≠ 0 → arg.val = default) ∧
      (arg.uses ≠ [] → arg.dir ≠ .dirIn ∧ common.typeSize ≤ 8)
  | _ => False

/-- What `validate` asks of an argument at a place, links apart. -/
def Arg.Typed : Arg → Ref → Dir → Prop
  | .const _ c val, typ, dir => c.Suits target typ dir ∧ validateConst target c val = .ok ()
  | .data id c bytes size, typ, dir =>
    c.Suits target typ dir ∧
      validateData target c bytes ((data id c bytes size).size target cells) = .ok ()
  | .address _ c addr vmaSize, typ, dir =>
    c.Suits target typ dir ∧ validateNil target c addr vmaSize = .ok ()
  | .pointer _ c addr vmaSize res, typ, dir =>
    c.Suits target typ dir ∧
      match target.types c.ref with
      | .ptr _ elem elemDir => res.Typed elem elemDir ∧
        validatePointer target c addr vmaSize (res.size target cells) = .ok ()
      | _ => False
  | .group _ c inner, typ, dir =>
    c.Suits target typ dir ∧
      match target.types c.ref with
      | .struct _ fields _ _ => inner.length = fields.length ∧
        TypedList inner (fieldPlaces fields (expectedDir target typ dir))
      | .array _ elem kind rangeBegin rangeEnd =>
        ¬ (kind = .rangeLen ∧ rangeBegin = rangeEnd ∧ inner.length.toUInt64 ≠ rangeBegin) ∧
          TypedList inner (List.replicate inner.length (elem, expectedDir target typ dir))
      | _ => False
  | .union _ c option index _, typ, dir =>
    c.Suits target typ dir ∧
      match target.types c.ref with
      | .union _ fields =>
        match fields[index]? with
        | some opt => option.Typed opt.type (opt.dir (expectedDir target typ dir))
        | none => False
      | _ => False
  | .result id, typ, dir =>
    (cells id).toArgCommon.Suits target typ dir ∧ (cells id).Typed target
where
  TypedList : List Arg → List (Ref × Dir) → Prop
    | a :: as, place :: places => a.Typed place.1 place.2 ∧ TypedList as places
    | _, _ => True

/-- What `validateRet` asks of a return value. -/
def Call.RetTyped (c : Call) : Prop :=
  match c.syscall.ret, c.ret with
  | none, none => True
  | some typ, some ret =>
    ((cells ret).res = none ∧ (cells ret).val = 0 ∧ (cells ret).opDiv = 0 ∧ (cells ret).opAdd = 0) ∧
      (Arg.result ret).Typed target cells typ .dirOut
  | _, _ => False

def Call.Typed (ignoreTransient : Bool) (c : Call) : Prop :=
  c.syscall.disabled = false ∧ ¬ (0 < c.props.rerun ∧ 0 < c.props.failNth) ∧
    c.args.length = c.syscall.args.length ∧
    Arg.Typed.TypedList target cells c.args (c.syscall.args.map fun f => (f.type, .dirIn)) ∧
    c.checkConditions target cells ignoreTransient = .ok none ∧ c.RetTyped target cells

def Prog.Typed (ignoreTransient : Bool) (p : Prog) : Prop :=
  ∀ c ∈ p.calls, c.Typed target cells ignoreTransient

end Typed

/-! ## Visits -/

section Visits

variable (cells : Cells)

/-- The users and the reference of a result agree with what has been met. -/
def ValidCtx.Agrees (ctx : ValidCtx) : Arg → Prop
  | .result i => (∀ u ∈ (cells i).uses, (cells u).res = some i) ∧
    ∀ r, (cells i).res = some r → r ∈ ctx.results ∧ i ∈ (cells r).uses
  | _ => True

/-- The context behind an argument. -/
def ValidCtx.next (ctx : ValidCtx) : Arg → ValidCtx
  | .result i =>
    { ctx.meet (.result i) with uses := (cells i).uses.map (·, i) ++ ctx.uses }
  | a => ctx.meet a

/-- The arguments are met one after the other, none of them twice, and their links
agree with what has been met before. -/
def Visits : List Arg → ValidCtx → ValidCtx → Prop
  | [], ctx, ctx' => ctx = ctx'
  | a :: as, ctx, ctx' =>
    (a.id ∉ ctx.args ∧ (ctx.meet a).Agrees cells a) ∧ Visits as (ctx.next cells a) ctx'

variable {ctx ctx' : ValidCtx} {a : Arg}

theorem visits_append (as bs : List Arg) :
    Visits cells (as ++ bs) ctx ctx' ↔
      ∃ ctx₁, Visits cells as ctx ctx₁ ∧ Visits cells bs ctx₁ ctx' := by
  induction as generalizing ctx with
  | nil => simp [Visits]
  | cons a as ih =>
    simp only [cons_append, Visits, ih]
    constructor
    · rintro ⟨ha, ctx₁, hleft, hright⟩
      exact ⟨ctx₁, ⟨ha, hleft⟩, hright⟩
    · rintro ⟨ctx₁, ⟨ha, hleft⟩, hright⟩
      exact ⟨ha, ctx₁, hleft, hright⟩

variable {cells} (target : Target)

variable {typ : Ref} {dir : Dir} {i : Id}

theorem validateCommon_eq_ok {arg : Arg} :
    ctx.validateCommon target cells arg typ dir = .ok ctx' ↔
      (arg.common cells).Suits target typ dir ∧ arg.id ∉ ctx.args ∧ ctx.meet arg = ctx' := by
  unfold ValidCtx.validateCommon ArgCommon.Suits
  simp only [bind_eq_ok, reject_eq_ok, pure_eq_ok, exists_const]
  cases target.isAnyPtr (arg.common cells).ref <;> grind

theorem validateReference_eq_ok {u : Unit} :
    ctx.validateReference cells i = .ok u ↔
      ∀ r, (cells i).res = some r → r ∈ ctx.results ∧ i ∈ (cells r).uses := by
  unfold ValidCtx.validateReference
  cases hres : (cells i).res with
  | none => simp [pure_eq_ok]
  | some r => simp [bind_eq_ok]

theorem validateResult_eq_ok :
    ctx.validateResult target cells i = .ok ctx' ↔
      (cells i).Typed target ∧ ctx.Agrees cells (.result i) ∧
        { ctx with uses := (cells i).uses.map (·, i) ++ ctx.uses } = ctx' := by
  unfold ValidCtx.validateResult ResultArg.Typed ValidCtx.Agrees
  dsimp only
  cases target.types (cells i).ref
  case resource common format default =>
    simp only [bind_eq_ok, reject_eq_ok, pure_eq_ok, forM_eq_ok, exists_const,
      validateReference_eq_ok, not_and, not_not]
    grind
  all_goals simp [throw_ne_ok]

/-- A node without children has been met. -/
theorem visits_singleton (ha : a.result? = none) :
    Visits cells [a] ctx ctx' ↔ a.id ∉ ctx.args ∧ ctx.meet a = ctx' := by
  cases a with
  | result i => cases ha
  | _ => simp [Visits, ValidCtx.Agrees, ValidCtx.next]

theorem visits_node {as : List Arg} (ha : a.result? = none) :
    Visits cells (a :: as) ctx ctx' ↔
      a.id ∉ ctx.args ∧ Visits cells as (ctx.meet a) ctx' := by
  cases a with
  | result i => cases ha
  | _ => simp [Visits, ValidCtx.Agrees, ValidCtx.next]

/-- An argument without children, with a check of its value. -/
theorem validateLeaf_eq_ok (ha : a.result? = none) (check : Except Invalid Unit) :
    (do
      let ctx ← ctx.validateCommon target cells a typ dir
      check
      pure ctx) = .ok ctx' ↔
      ((a.common cells).Suits target typ dir ∧ check = .ok ()) ∧ Visits cells [a] ctx ctx' := by
  simp only [bind_eq_ok, pure_eq_ok, validateCommon_eq_ok, visits_singleton ha]
  constructor
  · rintro ⟨_, ⟨hsuits, hfresh, rfl⟩, _, hcheck, rfl⟩
    exact ⟨⟨hsuits, hcheck⟩, hfresh, rfl⟩
  · rintro ⟨⟨hsuits, hcheck⟩, hfresh, rfl⟩
    exact ⟨_, ⟨hsuits, hfresh, rfl⟩, (), hcheck, rfl⟩

theorem validateList_eq_ok (as : List Arg)
    (ih : ∀ a ∈ as, ∀ typ dir ctx ctx', a.validate target cells typ dir ctx = .ok ctx' ↔
      a.Typed target cells typ dir ∧ Visits cells a.subArgs ctx ctx') :
    ∀ (places : List (Ref × Dir)) (ctx ctx' : ValidCtx), as.length = places.length →
      (Arg.validate.validateList target cells as places ctx = .ok ctx' ↔
        Arg.Typed.TypedList target cells as places ∧
          Visits cells (as.flatMap Arg.subArgs) ctx ctx') := by
  induction as with
  | nil =>
    intro places ctx ctx' _
    simp [Arg.validate.validateList, Arg.Typed.TypedList, Visits, pure_eq_ok]
  | cons a as iha =>
    intro places ctx ctx' hlen
    cases places with
    | nil => cases hlen
    | cons place places =>
      rw [forall_mem_cons] at ih
      have hlen' : as.length = places.length := Nat.succ.inj hlen
      simp only [Arg.validate.validateList, Arg.Typed.TypedList, flatMap_cons, bind_eq_ok,
        visits_append, ih.1, iha ih.2 places _ ctx' hlen']
      constructor
      · rintro ⟨ctx₁, ⟨htyped, hvisits⟩, htyped', hvisits'⟩
        exact ⟨⟨htyped, htyped'⟩, ctx₁, hvisits, hvisits'⟩
      · rintro ⟨⟨htyped, htyped'⟩, ctx₁, hvisits, hvisits'⟩
        exact ⟨ctx₁, ⟨htyped, hvisits⟩, htyped', hvisits'⟩

/-- **`validateArg` accepts an argument exactly if it is typed and its nodes can
be met one after the other.** -/
theorem validateArg_eq_ok (a : Arg) : ∀ (typ : Ref) (dir : Dir) (ctx ctx' : ValidCtx),
    a.validate target cells typ dir ctx = .ok ctx' ↔
      a.Typed target cells typ dir ∧ Visits cells a.subArgs ctx ctx' := by
  induction a using Arg.induct with
  | const id c val =>
    intro typ dir ctx ctx'
    exact validateLeaf_eq_ok target rfl (validateConst target c val)
  | data id c bytes size =>
    intro typ dir ctx ctx'
    exact validateLeaf_eq_ok target rfl
      (validateData target c bytes ((Arg.data id c bytes size).size target cells))
  | address id c addr n =>
    intro typ dir ctx ctx'
    exact validateLeaf_eq_ok target rfl (validateNil target c addr n)
  | pointer id c addr n res ih =>
    intro typ dir ctx ctx'
    rw [Arg.subArgs, visits_node rfl]
    simp only [Arg.validate, Arg.Typed, bind_eq_ok, validateCommon_eq_ok, Arg.common]
    cases target.types c.ref
    case ptr common elem elemDir =>
      simp only [bind_eq_ok, pure_eq_ok, ih]
      grind
    all_goals simp [throw_ne_ok]
  | group id c inner ih =>
    intro typ dir ctx ctx'
    rw [Arg.subArgs, visits_node rfl, Arg.subArgsList_eq]
    simp only [Arg.validate, Arg.Typed, bind_eq_ok, validateCommon_eq_ok, Arg.common]
    cases target.types c.ref
    case struct common fields align overlay =>
      simp only [bind_eq_ok, reject_eq_ok, not_not]
      have hlist := validateList_eq_ok target inner ih
        (fieldPlaces fields (expectedDir target typ dir)) (ctx.meet (.group id c inner)) ctx'
      grind [fieldPlaces]
    case array common elem kind rangeBegin rangeEnd =>
      simp only [bind_eq_ok, reject_eq_ok]
      have hlist := validateList_eq_ok target inner ih
        (List.replicate inner.length (elem, expectedDir target typ dir))
        (ctx.meet (.group id c inner)) ctx' (by simp)
      grind
    all_goals simp [throw_ne_ok]
  | union id c option index transient ih =>
    intro typ dir ctx ctx'
    rw [Arg.subArgs, visits_node rfl]
    simp only [Arg.validate, Arg.Typed, bind_eq_ok, validateCommon_eq_ok, Arg.common]
    cases target.types c.ref
    case union common fields =>
      cases hopt : fields[index]? with
      | none => simp [hopt, throw_ne_ok]
      | some opt =>
        grind
    all_goals simp [throw_ne_ok]
  | result id =>
    intro typ dir ctx ctx'
    simp only [Arg.validate, Arg.Typed, Arg.subArgs, bind_eq_ok, validateCommon_eq_ok,
      validateResult_eq_ok, Visits, ValidCtx.next, Arg.common]
    constructor
    · rintro ⟨_, ⟨hsuits, hfresh, rfl⟩, htyped, hagrees, rfl⟩
      exact ⟨⟨hsuits, htyped⟩, ⟨hfresh, hagrees⟩, rfl⟩
    · rintro ⟨⟨hsuits, htyped⟩, ⟨hfresh, hagrees⟩, rfl⟩
      exact ⟨_, ⟨hsuits, hfresh, rfl⟩, htyped, hagrees, rfl⟩

end Visits

/-! ## Calls and programs -/

/-- The arguments of a call and its return value, in the order of `validateCall`. -/
def Call.nodes (c : Call) : List Arg := c.subArgs ++ c.ret.toList.map .result

def Prog.nodes (p : Prog) : List Arg := p.calls.flatMap Call.nodes

theorem Call.ids_nodes (c : Call) : c.nodes.map Arg.id = c.ids := by
  unfold Call.nodes Call.subArgs Call.ids
  rw [map_append, map_flatMap, map_map]
  exact congrArg _ (map_id _)

theorem Call.results_nodes (c : Call) : c.nodes.filterMap Arg.result? = c.validated := by
  unfold Call.nodes Call.subArgs Call.validated Call.argResults
  rw [filterMap_append, filterMap_flatMap, filterMap_map]
  exact congrArg _ filterMap_some

theorem Prog.ids_nodes (p : Prog) : p.nodes.map Arg.id = p.ids := by
  unfold Prog.nodes Prog.ids
  rw [map_flatMap]
  simp only [Call.ids_nodes]

theorem Prog.results_nodes (p : Prog) : p.nodes.filterMap Arg.result? = p.validated := by
  unfold Prog.nodes Prog.validated
  rw [filterMap_flatMap]
  simp only [Call.results_nodes]

section Programs

variable {target : Target} {cells : Cells} {ignoreTransient : Bool}

variable {c : Call} {ctx ctx' : ValidCtx}

theorem validateRet_eq_ok :
    c.validateRet target cells ctx = .ok ctx' ↔
      c.RetTyped target cells ∧ Visits cells (c.ret.toList.map .result) ctx ctx' := by
  unfold Call.validateRet Call.RetTyped
  cases c.syscall.ret with
  | none =>
    cases c.ret with
    | none => simp [pure_eq_ok, Visits]
    | some ret => simp [throw_ne_ok]
  | some typ =>
    cases c.ret with
    | none => simp [throw_ne_ok]
    | some ret =>
      have hsingle : [ret].map Arg.result = (Arg.result ret).subArgs := rfl
      simp only [Option.toList_some, hsingle, bind_eq_ok, reject_eq_ok, exists_const,
        validateArg_eq_ok, not_or, not_not, and_assoc]

theorem validateConditions_eq_ok {u : Unit} :
    c.validateConditions target cells ignoreTransient = .ok u ↔
      c.checkConditions target cells ignoreTransient = .ok none := by
  unfold Call.validateConditions
  rcases c.checkConditions target cells ignoreTransient with p | (- | stale)
  · simp [throw_ne_ok]
  · simp [pure_eq_ok]
  · simp [throw_ne_ok]

theorem validateCall_eq_ok :
    c.validate target cells ignoreTransient ctx = .ok ctx' ↔
      c.Typed target cells ignoreTransient ∧ Visits cells c.nodes ctx ctx' := by
  unfold Call.validate Call.Typed Call.nodes
  simp only [bind_eq_ok, reject_eq_ok, exists_const, validateConditions_eq_ok, validateRet_eq_ok,
    visits_append, not_not, Bool.not_eq_true]
  have hlist : c.args.length = c.syscall.args.length → ∀ ctx₁,
      (Arg.validate.validateList target cells c.args
          (c.syscall.args.map fun f => (f.type, .dirIn)) ctx = .ok ctx₁ ↔ _) :=
    fun hlen ctx₁ => validateList_eq_ok target c.args (fun a _ => validateArg_eq_ok target a) _ ctx
      ctx₁ (by rw [length_map, hlen])
  constructor
  · rintro ⟨hdisabled, hprops, hlen, ctx₁, hargs, hcond, hret, hvisits⟩
    obtain ⟨htyped, hvisits'⟩ := (hlist hlen ctx₁).mp hargs
    exact ⟨⟨hdisabled, hprops, hlen, htyped, hcond, hret⟩, ctx₁, hvisits', hvisits⟩
  · rintro ⟨⟨hdisabled, hprops, hlen, htyped, hcond, hret⟩, ctx₁, hvisits', hvisits⟩
    exact ⟨hdisabled, hprops, hlen, ctx₁, (hlist hlen ctx₁).mpr ⟨htyped, hvisits'⟩, hcond, hret,
      hvisits⟩

theorem validateCalls_eq_ok (calls : List Call) : ∀ (i : Nat) (ctx ctx' : ValidCtx),
    validateCalls target cells ignoreTransient i calls ctx = .ok ctx' ↔
      (∀ c ∈ calls, c.Typed target cells ignoreTransient) ∧
        Visits cells (calls.flatMap Call.nodes) ctx ctx' := by
  induction calls with
  | nil =>
    intro i ctx ctx'
    simp [validateCalls, Visits, pure_eq_ok]
  | cons c calls ih =>
    intro i ctx ctx'
    simp only [validateCalls, bind_eq_ok, mapError_eq_ok, validateCall_eq_ok, ih,
      forall_mem_cons, flatMap_cons, visits_append]
    constructor
    · rintro ⟨ctx₁, ⟨htyped, hvisits⟩, htyped', hvisits'⟩
      exact ⟨⟨htyped, htyped'⟩, ctx₁, hvisits, hvisits'⟩
    · rintro ⟨⟨htyped, htyped'⟩, ctx₁, hvisits, hvisits'⟩
      exact ⟨ctx₁, ⟨htyped, hvisits⟩, htyped', hvisits'⟩

end Programs

/-! ## Links -/

section Links

variable {cells : Cells}

/-- `ctx` is the context after the arguments `seen`. -/
structure ValidCtx.Has (cells : Cells) (ctx : ValidCtx) (seen : List Arg) : Prop where
  args : ∀ i, i ∈ ctx.args ↔ i ∈ seen.map Arg.id
  results : ∀ i, i ∈ ctx.results ↔ i ∈ seen.filterMap Arg.result?
  uses : ∀ u x, (u, x) ∈ ctx.uses ↔ x ∈ seen.filterMap Arg.result? ∧ u ∈ (cells x).uses

variable {ctx : ValidCtx} {seen nodes : List Arg}

theorem ValidCtx.Has.next (h : ctx.Has cells seen) (a : Arg) :
    (ctx.next cells a).Has cells (seen ++ [a]) := by
  cases a with
  | result i =>
    refine ⟨?_, ?_, ?_⟩
    · intro j
      simp [ValidCtx.next, ValidCtx.meet, h.args, or_comm, Arg.id]
    · intro j
      simp [ValidCtx.next, ValidCtx.meet, h.results, or_comm, Arg.result?]
    intro u x
    have := h.uses u x
    simp only [ValidCtx.next, ValidCtx.meet, mem_append, mem_map, Prod.mk.injEq,
      filterMap_append, this]
    constructor
    · rintro (⟨u', hu, rfl, rfl⟩ | ⟨hx, hu⟩)
      · exact ⟨.inr (by simp [Arg.result?]), hu⟩
      · exact ⟨.inl hx, hu⟩
    · rintro ⟨hx | hx, hu⟩
      · exact .inr ⟨hx, hu⟩
      · obtain rfl : x = i := by simpa [Arg.result?] using hx
        exact .inl ⟨u, hu, rfl, rfl⟩
  | _ =>
    refine ⟨?_, ?_, ?_⟩
    · intro j
      simp [ValidCtx.next, ValidCtx.meet, h.args, or_comm, Arg.id]
    · intro j
      simp [ValidCtx.next, ValidCtx.meet, h.results, Arg.result?]
    · intro u x
      simpa [ValidCtx.next, ValidCtx.meet, Arg.result?] using h.uses u x

theorem ValidCtx.Has.visits :
    ∀ {ctx ctx' : ValidCtx} {seen : List Arg},
    ctx.Has cells seen → Visits cells nodes ctx ctx' → ctx'.Has cells (seen ++ nodes) := by
  induction nodes with
  | nil =>
    rintro ctx ctx' seen h rfl
    rwa [append_nil]
  | cons a nodes ih =>
    rintro ctx ctx' seen h ⟨-, hvisits⟩
    rw [append_cons]
    exact ih (h.next a) hvisits

/-- The links of the result `x`, if the results `before` have been met before. -/
def LinksChecked (cells : Cells) (before : Set Id) (x : Id) : Prop :=
  (∀ u ∈ cells.uses x, cells.res u = some x) ∧
    ∀ y, cells.res x = some y → (y = x ∨ y ∈ before) ∧ x ∈ cells.uses y

theorem ValidCtx.Has.agrees_result (h : ctx.Has cells seen) (i : Id) :
    (ctx.meet (.result i)).Agrees cells (.result i) ↔
      LinksChecked cells {y | y ∈ seen.filterMap Arg.result?} i := by
  have hresults : ∀ y, y ∈ (ctx.meet (.result i)).results ↔
      y = i ∨ y ∈ seen.filterMap Arg.result? := by
    intro y
    rw [← h.results]
    simp [ValidCtx.meet, Arg.result?]
  unfold ValidCtx.Agrees LinksChecked
  simp only [hresults]
  rfl

/-- A condition on every element and what is before it, for a list with a head. -/
theorem forall_split_cons {α : Type} {a : α} {l : List α} {P : List α → α → Prop} :
    (∀ l₁ x l₂, a :: l = l₁ ++ x :: l₂ → P l₁ x) ↔
      P [] a ∧ ∀ l₁ x l₂, l = l₁ ++ x :: l₂ → P (a :: l₁) x := by
  constructor
  · intro h
    refine ⟨h [] a l rfl, ?_⟩
    rintro l₁ x l₂ rfl
    exact h (a :: l₁) x l₂ rfl
  · rintro ⟨hhead, htail⟩ l₁ x l₂ heq
    cases l₁ with
    | nil =>
      cases heq
      exact hhead
    | cons b l₁ =>
      cases heq
      exact htail l₁ x l₂ rfl

/-- The arguments can be met exactly if none of them occurs twice and the links of
every result agree with what comes before it. -/
theorem exists_visits_iff :
    ∀ {ctx : ValidCtx} {seen : List Arg},
    ctx.Has cells seen →
    ((∃ ctx', Visits cells nodes ctx ctx') ↔
      ((nodes.map Arg.id).Nodup ∧ ∀ i ∈ nodes.map Arg.id, i ∉ seen.map Arg.id) ∧
        ∀ l x r, nodes.filterMap Arg.result? = l ++ x :: r →
          LinksChecked cells {y | y ∈ seen.filterMap Arg.result? ++ l} x) := by
  induction nodes with
  | nil =>
    intro ctx seen h
    simp [Visits]
  | cons a nodes ih =>
    intro ctx seen h
    have hids : (((a :: nodes).map Arg.id).Nodup ∧
        ∀ i ∈ (a :: nodes).map Arg.id, i ∉ seen.map Arg.id) ↔
        a.id ∉ ctx.args ∧ (nodes.map Arg.id).Nodup ∧
          ∀ i ∈ nodes.map Arg.id, i ∉ (seen ++ [a]).map Arg.id := by
      simp only [h.args, map_append, map_cons, map_nil, nodup_cons,
        forall_mem_cons, mem_append, mem_singleton]
      grind
    simp only [Visits, exists_and_left, ih (h.next a), hids]
    cases a with
    | result i =>
      have hcons : ∀ l, (Arg.result i :: l).filterMap Arg.result? = i :: l.filterMap Arg.result? :=
        fun _ => rfl
      rw [h.agrees_result, hcons, forall_split_cons, append_nil]
      simp only [filterMap_append, hcons, filterMap_nil, append_assoc,
        singleton_append]
      tauto
    | _ =>
      simp only [ValidCtx.Agrees, filterMap_append, filterMap_cons, Arg.result?,
        filterMap_nil, append_nil]
      tauto

end Links

/-- The links as `validate` checks them. -/
def Prog.Checked (cells : Cells) (p : Prog) : Prop :=
  ∀ x ∈ p.validated, (∀ u ∈ cells.uses x, u ∈ p.validated ∧ cells.res u = some x) ∧
    ∀ y, cells.res x = some y → (y = x ∨ [y, x].Sublist p.validated) ∧ x ∈ cells.uses y

variable {cells : Cells} {p : Prog} {target : Target} {s : Store}

theorem linksChecked_iff_checked (hnodup : p.validated.Nodup) :
    (∀ l x r, p.validated = l ++ x :: r → LinksChecked cells {y | y ∈ l} x) ∧
        (∀ x ∈ p.validated, ∀ u ∈ cells.uses x, u ∈ p.validated) ↔ p.Checked cells := by
  constructor
  · rintro ⟨hlinks, huses⟩ x hx
    obtain ⟨l, r, hsplit⟩ := append_of_mem hx
    obtain ⟨hback, hfwd⟩ := hlinks l x r hsplit
    refine ⟨fun u hu => ⟨huses x hx u hu, hback u hu⟩, ?_⟩
    intro y hy
    obtain ⟨hbefore, hmem⟩ := hfwd y hy
    rw [hsplit] at hnodup ⊢
    exact ⟨hbefore.imp_right (pair_sublist_split hnodup).mpr, hmem⟩
  · intro h
    refine ⟨?_, fun x hx u hu => ((h x hx).1 u hu).1⟩
    intro l x r hsplit
    obtain ⟨hback, hfwd⟩ := h x (by rw [hsplit]; simp)
    refine ⟨fun u hu => (hback u hu).2, ?_⟩
    intro y hy
    obtain ⟨hbefore, hmem⟩ := hfwd y hy
    rw [hsplit] at hnodup hbefore
    exact ⟨hbefore.imp_right (pair_sublist_split hnodup).mp, hmem⟩

/-- **`validate` accepts a program exactly if it is typed, a tree, and its links
agree.** -/
theorem validateWithOpts_eq_ok {ignoreTransient : Bool} :
    p.validateWithOpts target cells ignoreTransient = .ok () ↔
      p.Typed target cells ignoreTransient ∧ p.ids.Nodup ∧ p.Checked cells := by
  have hempty : ValidCtx.Has cells {} [] := ⟨by simp, by simp, by simp⟩
  have hvisits := @exists_visits_iff cells p.nodes {} [] hempty
  rw [p.ids_nodes, p.results_nodes] at hvisits
  simp only [map_nil, not_mem_nil, not_false_eq_true, implies_true, and_true,
    filterMap_nil, nil_append] at hvisits
  have huses : ∀ ctx', Visits cells p.nodes {} ctx' →
      ((ctx'.uses.forM fun x => reject (x.1 ∉ ctx'.results) (Invalid.outOfTreeUse x.2 x.1)) =
          .ok () ↔
        ∀ x ∈ p.validated, ∀ u ∈ cells.uses x, u ∈ p.validated) := by
    intro ctx' hctx
    have hhas := hempty.visits hctx
    rw [nil_append] at hhas
    simp only [forM_eq_ok, reject_eq_ok, not_not, Prod.forall, hhas.uses, hhas.results,
      p.results_nodes]
    constructor
    · intro h x hx u hu
      exact h u x ⟨hx, hu⟩
    · rintro h u x ⟨hx, hu⟩
      exact h x hx u hu
  have hcalls := @validateCalls_eq_ok target cells ignoreTransient p.calls 0 {}
  unfold Prog.validateWithOpts
  rw [bind_eq_ok]
  constructor
  · rintro ⟨ctx', hok, hforM⟩
    obtain ⟨htyped, hctx⟩ := (hcalls ctx').mp hok
    obtain ⟨hnodup, hlinks⟩ := hvisits.mp ⟨ctx', hctx⟩
    exact ⟨htyped, hnodup, (linksChecked_iff_checked
      (p.validated_sublist_ids.nodup hnodup)).mp ⟨hlinks, (huses ctx' hctx).mp hforM⟩⟩
  · rintro ⟨htyped, hnodup, hchecked⟩
    obtain ⟨hlinks, hback⟩ := (linksChecked_iff_checked
      (p.validated_sublist_ids.nodup hnodup)).mpr hchecked
    obtain ⟨ctx', hctx⟩ := hvisits.mpr ⟨hnodup, hlinks⟩
    exact ⟨ctx', (hcalls ctx').mpr ⟨htyped, hctx⟩, (huses ctx' hctx).mpr hback⟩

/-! ## Valid and well linked -/

/-- No result refers to itself.  `validate` does not ask for this, because it
enters an argument into `ctx.args` before it looks at its reference. -/
def Prog.NoSelfReference (cells : Cells) (p : Prog) : Prop :=
  ∀ x ∈ p.validated, cells.res x ≠ some x

instance (cells : Cells) (p : Prog) : Decidable (p.NoSelfReference cells) :=
  inferInstanceAs (Decidable (∀ x ∈ p.validated, cells.res x ≠ some x))

theorem Call.RetTyped.res {c : Call} (h : c.RetTyped target cells) {r : Id} (hr : r ∈ c.ret) :
    cells.res r = none := by
  unfold Call.RetTyped at h
  rw [Option.mem_def.mp hr] at h
  cases hret : c.syscall.ret with
  | none =>
    rw [hret] at h
    exact h.elim
  | some typ =>
    rw [hret] at h
    exact h.1.1

/-- **The links that `validate` accepts are those of a well linked program**, self
references apart. -/
theorem wellLinked_iff_checked {ignoreTransient : Bool}
    (htyped : p.Typed target s.cells ignoreTransient) (hlive : ∀ i ∈ p.ids, i < s.next) :
    p.WellLinked s ↔ p.ids.Nodup ∧ p.Checked s.cells ∧ p.NoSelfReference s.cells := by
  constructor
  · intro h
    refine ⟨h.tree, ?_, fun x hx => h.linked.consistent.irrefl x hx⟩
    intro x hx
    refine ⟨fun u hu => h.linked.consistent.bwd x hx u hu, ?_⟩
    intro y hy
    exact ⟨.inr (h.linked.before x hx y hy), (h.linked.consistent.fwd x hx y hy).2⟩
  · rintro ⟨htree, hchecked, hself⟩
    refine ⟨htree, hlive, fun c hc r hr => (htyped c hc).2.2.2.2.2.res hr, ?_⟩
    rw [Linked.iff_forall]
    constructor
    · intro x hx y hy
      obtain ⟨hbefore, hmem⟩ := (hchecked x hx).2 y hy
      have hne : y ≠ x := by
        rintro rfl
        exact hself y hx hy
      exact ⟨hne, hmem, hbefore.resolve_left hne⟩
    · intro y hy x hx
      exact (hchecked y hy).1 x hx

/-- A valid program without self references is well linked. -/
theorem Prog.wellLinked_of_validate (h : p.validate target s.cells = .ok ())
    (hlive : ∀ i ∈ p.ids, i < s.next) (hself : p.NoSelfReference s.cells) : p.WellLinked s := by
  obtain ⟨htyped, htree, hchecked⟩ := validateWithOpts_eq_ok.mp h
  exact (wellLinked_iff_checked htyped hlive).mpr ⟨htree, hchecked, hself⟩

/-- A well linked program with arguments of the right types is valid. -/
theorem Prog.WellLinked.validate (h : p.WellLinked s) (htyped : p.Typed target s.cells false) :
    p.validate target s.cells = .ok () := by
  obtain ⟨htree, hchecked, -⟩ := (wellLinked_iff_checked htyped h.live).mp h
  exact validateWithOpts_eq_ok.mpr ⟨htyped, htree, hchecked⟩

end Sect.Program
