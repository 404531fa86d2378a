import SectProof.DescTypes

/-! # Recursion of structs

A struct that contains itself, other than behind an optional pointer, has no default
value.  `checkRecursion` looks for such structs by a depth-first search that enters
every struct once: a struct on the path of the search closes a cycle, one that is done
is not entered again.

Without an error, the structs are done in an order in which each comes after those it
contains.  Such an order excludes cycles, and the default arguments can be built along
it. -/

open List

namespace Sect.Descriptions

/-! ## The code -/

structure Field where
  name : String
  type : AstType
  conditional : Bool

/-- A struct or a union. -/
structure StructDecl where
  isUnion : Bool
  fields : List Field

/-- A description after template instantiation. -/
structure Desc where
  resources : List String
  structs : Table String StructDecl

inductive TypeDesc
  | builtin (b : Builtin)
  | resource
  | struct
  | unknown
  deriving DecidableEq, Repr

def Desc.getTypeDesc (d : Desc) (ident : String) : TypeDesc :=
  match builtinTypes ident with
  | some b => .builtin b
  | none =>
    if ident ∈ d.resources then .resource
    else if (d.structs.lookup ident).isSome then .struct
    else .unknown

/-- The fields of a declared struct. -/
def Desc.fields (d : Desc) (name : String) : List Field :=
  match d.structs.lookup name with
  | some s => s.fields
  | none => []

/-- The name of an integer type without the mark of big-endian ones. -/
def stripBe (name : List Char) : List Char :=
  if ['b', 'e'].isSuffixOf name then name.take (name.length - 2) else name

/-- `parseIntType` cuts off the first three characters of any name but `intptr`. -/
def parseIntPanics (name : String) : Bool :=
  stripBe name.toList ≠ "intptr".toList && (stripBe name.toList).length < 3

/-- `getArgsBase(t, false)`: the number of arguments without the base type; `none` if
it panics. -/
def countArgs (b : Builtin) (args : List AstType) : Option Nat :=
  if b.needBase then
    match (removeOpt args).getLast? with
    | none => none
    | some base =>
      if parseIntPanics base.ident then none else some ((removeOpt args).length - 1)
  else some (removeOpt args).length

structure PathElem where
  struct : String
  field : String
  deriving DecidableEq, Repr

/-- The structs that are done, and the cycles that have been reported. -/
structure Search where
  checked : List String
  errors : List (List PathElem × String)
  deriving DecidableEq, Repr

inductive Outcome (α : Type)
  | ok (a : α)
  | panic
  | outOfFuel
  deriving DecidableEq, Repr

def Outcome.bind {α β : Type} (o : Outcome α) (f : α → Outcome β) : Outcome β :=
  match o with
  | ok a => f a
  | panic => panic
  | outOfFuel => outOfFuel

section Search
variable (d : Desc) (call : String → Search → Outcome Search)

mutual

def recurseField : AstType → Search → Outcome Search
  | .mk ident _ _ _ args, st =>
    match d.getTypeDesc ident with
    | .struct => call ident st
    | .unknown => .panic
    | .resource => recurseArgs args [] (removeOpt args).length st
    | .builtin b =>
      match countArgs b args with
      | none => .panic
      | some count =>
        -- optional pointers prune recursion
        if b = .ptr ∧ isOpt args then .ok st else recurseArgs args b.args count st

/-- The loop over the first `count` arguments. -/
def recurseArgs : List AstType → List ArgDesc → Nat → Search → Outcome Search
  | _, _, 0, st => .ok st
  | [], _, _ + 1, st => .ok st
  | _ :: _, [], _ + 1, _ => .panic
  | arg :: rest, desc :: descs, count + 1, st =>
    (if desc.isType then recurseField arg st else .ok st).bind
      (recurseArgs rest descs count)

end

end Search

/-- The loop over the fields of the struct; `call` is made with the path to the field. -/
def recurseFields (d : Desc) (call : List PathElem → String → Search → Outcome Search)
    (name : String) (path : List PathElem) : List Field → Search → Outcome Search
  | [], st => .ok st
  | f :: rest, st =>
    (recurseField d (call (path ++ [⟨name, f.name⟩])) f.type st).bind
      (recurseFields d call name path rest)

def checkStructRecursion (d : Desc) : Nat → List PathElem → String → Search → Outcome Search
  | 0, _, _, _ => .outOfFuel
  | fuel + 1, path, name, st =>
    if name ∈ st.checked then .ok st
    else
      match path.findIdx? fun elem => elem.struct = name with
      | some i => .ok ⟨st.checked ++ [name], st.errors ++ [(path.drop i, name)]⟩
      | none =>
        (recurseFields d (checkStructRecursion d fuel) name path (d.fields name) st).bind
          fun st => .ok ⟨st.checked ++ [name], st.errors⟩

/-- The loop over the structs of the description. -/
def checkStructs (d : Desc) : List String → Search → Outcome Search
  | [], st => .ok st
  | name :: rest, st =>
    (checkStructRecursion d (d.structs.size + 1) [] name st).bind (checkStructs d rest)

def checkRecursion (d : Desc) : Outcome Search :=
  checkStructs d (d.structs.entries.map Prod.fst) ⟨[], []⟩

/-! ## Default arguments -/

/-- Default values; constants, results, lengths, areas and data are scalars. -/
inductive Arg
  | scalar
  | null
  | pointer (pointee : Arg)
  | group (inner : List Arg)
  | union (option : Arg) (index : Nat)

/-- The number of elements of an array of fixed size. -/
def fixedSize : List AstType → Option Nat
  | _ :: size :: _ =>
    match size.colon with
    | [] => some size.value
    | (_, stop) :: _ => if size.value = stop then some size.value else none
  | _ => none

section Default
variable (d : Desc) (call : String → Outcome Arg)

mutual

def defaultArg : AstType → Outcome Arg
  | .mk ident _ _ _ args =>
    match d.getTypeDesc ident with
    | .struct => call ident
    | .unknown => .panic
    | .resource => .ok .scalar
    | .builtin .ptr =>
      if isOpt args then .ok .null else (defaultNth args 1).bind fun a => .ok (.pointer a)
    | .builtin .array =>
      match fixedSize (removeOpt args) with
      | none | some 0 => .ok (.group [])
      | some size => (defaultNth args 0).bind fun a => .ok (.group (List.replicate size a))
    | .builtin _ => .ok .scalar

/-- The default of the `i`-th type argument. -/
def defaultNth : List AstType → Nat → Outcome Arg
  | [], _ => .panic
  | t :: _, 0 => defaultArg t
  | _ :: rest, i + 1 => defaultNth rest i

end

/-- A conditional field of a struct is wrapped in a union whose last option is void. -/
def defaultFields : List Field → Outcome (List Arg)
  | [] => .ok []
  | f :: rest =>
    (if f.conditional then .ok (.union .scalar 1) else defaultArg d call f.type).bind fun a =>
      (defaultFields rest).bind fun inner => .ok (a :: inner)

end Default

/-- The last option is the default of a union whose first one has a condition. -/
def StructDecl.defaultField (s : StructDecl) : Nat :=
  if (s.fields.head?.map (·.conditional)).getD false then s.fields.length - 1 else 0

def defaultStruct (d : Desc) : Nat → String → Outcome Arg
  | 0, _ => .outOfFuel
  | fuel + 1, name =>
    match d.structs.lookup name with
    | none => .panic
    | some s =>
      if s.isUnion then
        match s.fields[s.defaultField]? with
        | none => .panic
        | some f => (defaultArg d (defaultStruct d fuel) f.type).bind fun a =>
          .ok (.union a s.defaultField)
      else (defaultFields d (defaultStruct d fuel) s.fields).bind fun inner =>
        .ok (.group inner)

/-! ## Containment -/

section Containment
variable (d : Desc)

mutual

/-- The structs that occur in a type without an optional pointer in between. -/
def structsIn : AstType → List String
  | .mk ident _ _ _ args =>
    match d.getTypeDesc ident with
    | .struct => [ident]
    | .unknown | .resource => []
    | .builtin b =>
      if b = .ptr ∧ isOpt args then [] else structsInArgs args b.args (removeOpt args).length

def structsInArgs : List AstType → List ArgDesc → Nat → List String
  | _, _, 0 => []
  | [], _, _ + 1 => []
  | _ :: _, [], _ + 1 => []
  | arg :: rest, desc :: descs, count + 1 =>
    (if desc.isType then structsIn arg else []) ++ structsInArgs rest descs count

end

/-- The edges of the graph: from a struct to each struct in the type of a field. -/
def Contains (a b : String) : Prop := ∃ f ∈ d.fields a, b ∈ structsIn d f.type

/-- Some struct contains itself, directly or through other structs. -/
def CyclicStructs : Prop := ∃ a, Relation.TransGen (Contains d) a a

mutual

/-- A type whose arguments cannot be taken apart, or one that has such a type as an
argument and is no optional pointer. -/
def malformed : AstType → Bool
  | .mk ident _ _ _ args =>
    match d.getTypeDesc ident with
    | .struct => false
    | .unknown => true
    | .resource => malformedArgs args [] (removeOpt args).length
    | .builtin b =>
      match countArgs b args with
      | none => true
      | some count =>
        if b = .ptr ∧ isOpt args then false else malformedArgs args b.args count

def malformedArgs : List AstType → List ArgDesc → Nat → Bool
  | _, _, 0 => false
  | [], _, _ + 1 => false
  | _ :: _, [], _ + 1 => true
  | arg :: rest, desc :: descs, count + 1 =>
    (desc.isType && malformed arg) || malformedArgs rest descs count

end

/-- The types of the fields of the struct can be taken apart. -/
def WellFormed (name : String) : Prop := ∀ f ∈ d.fields name, malformed d f.type = false

end Containment

/-! ## Finishing orders -/

section FinishingOrder
variable {α : Type} {R : α → α → Prop} {l : List α}

/-- Whatever an element is related to comes before it. -/
def FinishingOrder (R : α → α → Prop) (l : List α) : Prop :=
  ∀ l₁ a l₂, l = l₁ ++ a :: l₂ → ∀ b, R a b → b ∈ l₁

theorem FinishingOrder.append_singleton {a : α} (h : FinishingOrder R l)
    (ha : ∀ b, R a b → b ∈ l) : FinishingOrder R (l ++ [a]) := by
  intro l₁ x l₂ heq b hb
  rcases eq_nil_or_concat l₂ with rfl | ⟨l₂', y, rfl⟩
  · obtain ⟨rfl, hx⟩ := append_inj' heq rfl
    obtain rfl : a = x := (List.cons.inj hx).1
    exact ha b hb
  · have hconcat : l ++ [a] = (l₁ ++ x :: l₂') ++ [y] := by simpa using heq
    exact h l₁ x l₂' (append_inj' hconcat rfl).1 b hb

/-- What can be reached from an element comes before it as well. -/
theorem FinishingOrder.reachable (h : FinishingOrder R l) {l₁ l₂ : List α} {a b : α}
    (heq : l = l₁ ++ a :: l₂) (hab : Relation.TransGen R a b) : b ∈ l₁ := by
  induction hab with
  | single hab => exact h l₁ a l₂ heq _ hab
  | tail _ hbc ih =>
    obtain ⟨k₁, k₂, rfl⟩ := append_of_mem ih
    exact mem_append_left _ (h k₁ _ (k₂ ++ a :: l₂) (by simp [heq]) _ hbc)

/-- **No element of a finishing order can be reached from itself.** -/
theorem FinishingOrder.irrefl (h : FinishingOrder R l) {l₁ l₂ : List α} {a : α}
    (heq : l = l₁ ++ a :: l₂) : ¬ Relation.TransGen R a a := by
  intro hcycle
  induction hn : l₁.length using Nat.strong_induction_on generalizing l₁ l₂ with
  | _ n ih =>
    -- the element occurs again, further to the front
    obtain ⟨k₁, k₂, rfl⟩ := append_of_mem (h.reachable heq hcycle)
    subst hn
    have hfront : l = k₁ ++ a :: (k₂ ++ a :: l₂) := by simp [heq]
    exact ih k₁.length (by simp) hfront rfl

end FinishingOrder

/-! ## The types of fields -/

variable {α β : Type} {st : Search}

@[simp] theorem Outcome.bind_ok (a : α) (f : α → Outcome β) :
    (Outcome.ok a).bind f = f a := rfl

variable {o : Outcome α} {f : α → Outcome β} {I : Search → Prop}

theorem Outcome.bind_eq_ok {b : β} : o.bind f = .ok b ↔ ∃ a, o = .ok a ∧ f a = .ok b := by
  cases o <;> simp [Outcome.bind]

theorem Outcome.bind_ne_outOfFuel (h : o ≠ .outOfFuel) (hf : ∀ a, f a ≠ .outOfFuel) :
    o.bind f ≠ .outOfFuel := by
  cases o with
  | ok a => exact hf a
  | panic => exact nofun
  | outOfFuel => exact absurd rfl h

variable {d : Desc}

theorem getTypeDesc_eq_struct {ident : String} (h : d.getTypeDesc ident = .struct) :
    d.structs.lookup ident ≠ none := by
  rw [Desc.getTypeDesc] at h
  intro hnone
  rw [hnone] at h
  split at h
  · cases h
  · split at h <;> cases h

mutual

theorem declared_of_mem_structsIn {b : String} :
    ∀ t : AstType, b ∈ structsIn d t → d.structs.lookup b ≠ none
  | .mk ident _ _ _ args => by
    rw [structsIn]
    intro hb
    split at hb
    · next hstruct =>
        obtain rfl := mem_singleton.mp hb
        exact getTypeDesc_eq_struct hstruct
    · cases hb
    · cases hb
    · split at hb
      · cases hb
      · exact declared_of_mem_structsInArgs args _ _ hb

theorem declared_of_mem_structsInArgs {b : String} : ∀ (args : List AstType)
    (descs : List ArgDesc) (n : Nat), b ∈ structsInArgs d args descs n →
      d.structs.lookup b ≠ none
  | _, _, 0 | [], _, _ + 1 | _ :: _, [], _ + 1 => by simp [structsInArgs]
  | arg :: rest, desc :: descs, n + 1 => by
    intro hb
    rcases mem_append.mp hb with hb | hb
    · split at hb
      · exact declared_of_mem_structsIn arg hb
      · cases hb
    · exact declared_of_mem_structsInArgs rest descs n hb

end

theorem mem_structsInArgs {b : String} {t : AstType} {desc : ArgDesc} (htype : desc.isType = true)
    (hb : b ∈ structsIn d t) : ∀ (args : List AstType) (descs : List ArgDesc) (n i : Nat),
      args[i]? = some t → descs[i]? = some desc → i < n → b ∈ structsInArgs d args descs n
  | [], _, _, _, ht, _, _ => by cases ht
  | _ :: _, [], _, _, _, hdesc, _ => by cases hdesc
  | arg :: rest, desc' :: descs, n + 1, 0, ht, hdesc, _ => by
    cases ht
    cases hdesc
    rw [structsInArgs, if_pos htype]
    exact mem_append_left _ hb
  | arg :: rest, desc' :: descs, n + 1, i + 1, ht, hdesc, hi => by
    exact mem_append_right _
      (mem_structsInArgs htype hb rest descs n i ht hdesc (by omega))

theorem structsInArgs_plain : ∀ (args : List AstType) (descs : List ArgDesc) (n : Nat),
    (∀ desc ∈ descs, desc.isType = false) → structsInArgs d args descs n = []
  | _, _, 0, _ | [], _, _ + 1, _ | _ :: _, [], _ + 1, _ => by rw [structsInArgs]
  | arg :: rest, desc :: descs, n + 1, h => by
    rw [structsInArgs, h desc mem_cons_self,
      structsInArgs_plain rest descs n fun x hx => h x (mem_cons_of_mem _ hx)]
    rfl

/-! ## The walk through a type -/

/-- Nothing that is done or reported is taken back. -/
structure Grows (st st' : Search) : Prop where
  checked : ∀ x ∈ st.checked, x ∈ st'.checked
  errors : st'.errors = [] → st.errors = []

theorem Grows.refl (st : Search) : Grows st st := ⟨fun _ h => h, id⟩

theorem Grows.trans {st₁ st₂ : Search} (h : Grows st st₁) (h' : Grows st₁ st₂) : Grows st st₂ :=
  ⟨fun x hx => h'.checked x (h.checked x hx), fun he => h.errors (h'.errors he)⟩

/-- The search goes on: the structs are done, and the invariant holds. -/
def Advances (I : Search → Prop) (names : List String) (st : Search) (o : Outcome Search) : Prop :=
  ∃ st', o = .ok st' ∧ I st' ∧ Grows st st' ∧ ∀ x ∈ names, x ∈ st'.checked

theorem Advances.stay (h : I st) : Advances I [] st (.ok st) := ⟨st, rfl, h, .refl st, by simp⟩

theorem Advances.bind {l₁ l₂ : List String} {o : Outcome Search} {f : Search → Outcome Search}
    (h : Advances I l₁ st o) (hf : ∀ st', I st' → Advances I l₂ st' (f st')) :
    Advances I (l₁ ++ l₂) st (o.bind f) := by
  obtain ⟨st₁, rfl, hI, hgrows, hdone⟩ := h
  obtain ⟨st₂, hst₂, hI', hgrows', hdone'⟩ := hf st₁ hI
  refine ⟨st₂, hst₂, hI', hgrows.trans hgrows', fun x hx => ?_⟩
  rcases mem_append.mp hx with hx | hx
  · exact hgrows'.checked x (hdone x hx)
  · exact hdone' x hx

section Walk
variable {call : String → Search → Outcome Search} {I : Search → Prop}

theorem recurseArgs_plain : ∀ (args : List AstType) (descs : List ArgDesc) (n : Nat)
    (st : Search), (∀ desc ∈ descs, desc.isType = false) →
      malformedArgs d args descs n = false → recurseArgs d call args descs n st = .ok st
  | _, _, 0, _, _, _ | [], _, _ + 1, _, _, _ => by rw [recurseArgs]
  | _ :: _, [], _ + 1, _, _, h => by simp [malformedArgs] at h
  | arg :: rest, desc :: descs, n + 1, st, hplain, h => by
    have hdesc := hplain desc mem_cons_self
    rw [malformedArgs, hdesc, Bool.false_and, Bool.false_or] at h
    rw [recurseArgs, hdesc]
    exact recurseArgs_plain rest descs n st
      (fun x hx => hplain x (mem_cons_of_mem _ hx)) h

mutual

/-- **The walk through a type makes a call for each struct in it.** -/
theorem recurseField_advances : ∀ (t : AstType) (st : Search), malformed d t = false →
    (∀ b ∈ structsIn d t, ∀ st, I st → Advances I [b] st (call b st)) → I st →
      Advances I (structsIn d t) st (recurseField d call t st)
  | .mk ident _ _ _ args, st => by
    rw [malformed, structsIn, recurseField]
    intro hwell hcall hI
    cases hdesc : d.getTypeDesc ident with
    | struct =>
      rw [hdesc] at hcall
      exact hcall ident mem_cons_self st hI
    | unknown => simp [hdesc] at hwell
    | resource =>
      rw [hdesc] at hwell
      rw [recurseArgs_plain args [] _ st (by simp) hwell]
      exact .stay hI
    | builtin b =>
      rw [hdesc] at hwell hcall
      dsimp only at hwell hcall ⊢
      cases hcount : countArgs b args with
      | none => simp [hcount] at hwell
      | some count =>
        rw [hcount] at hwell
        dsimp only at hwell ⊢
        by_cases hopt : b = .ptr ∧ isOpt args = true
        · rw [if_pos hopt, if_pos hopt]
          exact .stay hI
        rw [if_neg hopt] at hwell hcall ⊢
        rw [if_neg hopt]
        cases hbase : b.needBase with
        | true =>
          -- no argument of a type with a base type is a type
          have hplain := Builtin.not_isType_of_needBase hbase
          rw [recurseArgs_plain args b.args count st hplain hwell,
            structsInArgs_plain args b.args _ hplain]
          exact .stay hI
        | false =>
          rw [countArgs, hbase, if_neg Bool.false_ne_true] at hcount
          cases hcount
          exact recurseArgs_advances args b.args _ st hwell hcall hI

theorem recurseArgs_advances : ∀ (args : List AstType) (descs : List ArgDesc) (n : Nat)
    (st : Search), malformedArgs d args descs n = false →
    (∀ b ∈ structsInArgs d args descs n, ∀ st, I st → Advances I [b] st (call b st)) → I st →
      Advances I (structsInArgs d args descs n) st (recurseArgs d call args descs n st)
  | _, _, 0, st, _, _, hI => by
    rw [recurseArgs, structsInArgs]
    exact .stay hI
  | [], _, _ + 1, st, _, _, hI => by
    exact .stay hI
  | _ :: _, [], _ + 1, _, h, _, _ => by simp [malformedArgs] at h
  | arg :: rest, desc :: descs, n + 1, st, h, hcall, hI => by
    rw [malformedArgs, Bool.or_eq_false_iff] at h
    rw [structsInArgs] at hcall
    refine Advances.bind ?_ fun st' hI' => recurseArgs_advances rest descs n st' h.2
      (fun b hb => hcall b (mem_append_right _ hb)) hI'
    cases htype : desc.isType with
    | false => exact .stay hI
    | true =>
      rw [htype, Bool.true_and] at h
      rw [htype] at hcall
      exact recurseField_advances arg st h.1
        (fun b hb => hcall b (mem_append_left _ hb)) hI

end

mutual

/-- A walk that ends has kept what the calls keep, and the type can be taken apart. -/
theorem recurseField_ok (hcall : ∀ b st st', I st → call b st = .ok st' → I st') :
    ∀ (t : AstType) (st st' : Search), I st → recurseField d call t st = .ok st' →
      I st' ∧ malformed d t = false
  | .mk ident _ _ _ args, st, st', hI => by
    rw [recurseField, malformed]
    intro h
    split at h
    · exact ⟨hcall ident st st' hI h, rfl⟩
    · cases h
    · exact recurseArgs_ok hcall args _ _ st st' hI h
    · split at h
      · cases h
      split at h
      · next hopt =>
          rw [if_pos hopt]
          exact ⟨Outcome.ok.inj h ▸ hI, rfl⟩
      · next hopt =>
          rw [if_neg hopt]
          exact recurseArgs_ok hcall args _ _ st st' hI h

theorem recurseArgs_ok (hcall : ∀ b st st', I st → call b st = .ok st' → I st') :
    ∀ (args : List AstType) (descs : List ArgDesc) (n : Nat) (st st' : Search), I st →
      recurseArgs d call args descs n st = .ok st' →
      I st' ∧ malformedArgs d args descs n = false
  | _, _, 0, st, st', hI, h => by
    rw [recurseArgs] at h
    rw [malformedArgs]
    exact ⟨Outcome.ok.inj h ▸ hI, rfl⟩
  | [], _, _ + 1, st, st', hI, h => by
    exact ⟨Outcome.ok.inj h ▸ hI, rfl⟩
  | _ :: _, [], _ + 1, _, _, _, h => by simp [recurseArgs] at h
  | arg :: rest, desc :: descs, n + 1, st, st', hI, h => by
    obtain ⟨st₁, harg, hrest⟩ := Outcome.bind_eq_ok.mp h
    have hhead : I st₁ ∧ (desc.isType && malformed d arg) = false := by
      split at harg
      · next htype =>
          rw [htype, Bool.true_and]
          exact recurseField_ok hcall arg st st₁ hI harg
      · next htype => exact ⟨Outcome.ok.inj harg ▸ hI, by simp [htype]⟩
    rw [malformedArgs, hhead.2, Bool.false_or]
    exact recurseArgs_ok hcall rest descs n st₁ st' hhead.1 hrest

end

end Walk

/-! ## The search -/

section Fields
variable {call : List PathElem → String → Search → Outcome Search} {I : Search → Prop}
  {name : String} {path : List PathElem}

theorem recurseFields_advances : ∀ (fields : List Field) (st : Search),
    (∀ f ∈ fields, malformed d f.type = false) →
    (∀ f ∈ fields, ∀ b ∈ structsIn d f.type, ∀ st, I st →
      Advances I [b] st (call (path ++ [⟨name, f.name⟩]) b st)) → I st →
      Advances I (fields.flatMap fun f => structsIn d f.type) st
        (recurseFields d call name path fields st)
  | [], st, _, _, hI => .stay hI
  | f :: rest, st, hwell, hcall, hI => by
    refine Advances.bind (recurseField_advances f.type st (hwell f mem_cons_self)
      (hcall f mem_cons_self) hI) fun st' hI' => ?_
    exact recurseFields_advances rest st' (fun g hg => hwell g (mem_cons_of_mem _ hg))
      (fun g hg => hcall g (mem_cons_of_mem _ hg)) hI'

theorem recurseFields_ok (hcall : ∀ elem b st st', I st →
    call (path ++ [⟨name, elem⟩]) b st = .ok st' → I st') :
    ∀ (fields : List Field) (st st' : Search), I st →
      recurseFields d call name path fields st = .ok st' →
      I st' ∧ ∀ f ∈ fields, malformed d f.type = false
  | [], st, st', hI, h => by
    exact ⟨Outcome.ok.inj h ▸ hI, by simp⟩
  | f :: rest, st, st', hI, h => by
    obtain ⟨st₁, hf, hrest⟩ := Outcome.bind_eq_ok.mp h
    obtain ⟨hI₁, htype⟩ := recurseField_ok (hcall f.name) f.type st st₁ hI hf
    obtain ⟨hI', hwell⟩ := recurseFields_ok hcall rest st₁ st' hI₁ hrest
    exact ⟨hI', forall_mem_cons.mpr ⟨htype, hwell⟩⟩

end Fields

/-- The invariant of the search, for the structs on the path. -/
structure Sound (d : Desc) (onPath : List String) (st : Search) : Prop where
  cyclic : st.errors ≠ [] → CyclicStructs d
  ordered : st.errors = [] → FinishingOrder (Contains d) st.checked
  fresh : st.errors = [] → ∀ a ∈ onPath, a ∉ st.checked

/-- **A search from a struct marks it as done and keeps the invariant.** -/
theorem checkStructRecursion_advances (hwell : ∀ a, WellFormed d a) :
    ∀ (fuel : Nat) (path : List PathElem) (name : String) (st : Search),
      d.structs.size + 1 ≤ fuel + path.length → (path.map (·.struct)).Nodup →
      (∀ a ∈ path.map (·.struct), d.structs.lookup a ≠ none) → d.structs.lookup name ≠ none →
      (∀ a ∈ path.map (·.struct), Relation.TransGen (Contains d) a name) →
      Sound d (path.map (·.struct)) st →
      Advances (Sound d (path.map (·.struct))) [name] st
        (checkStructRecursion d fuel path name st)
  | 0, path, name, st, hfuel, hnodup, hdecl, _, _, _ => by
    -- the path cannot be longer than there are structs
    have hsub : path.map (·.struct) ⊆ d.structs.entries.map Prod.fst :=
      fun a ha => (Table.mem_keys_iff a d.structs).mpr (hdecl a ha)
    have hle := (hnodup.subperm hsub).length_le
    rw [length_map, length_map] at hle
    rw [Table.size] at hfuel
    omega
  | fuel + 1, path, name, st, hfuel, hnodup, hdecl, hname, hreach, hsound => by
    rw [checkStructRecursion]
    split_ifs with hmem
    · exact ⟨st, rfl, hsound, .refl st, by simpa using hmem⟩
    cases hfind : path.findIdx? fun elem => elem.struct = name with
    | some i =>
      have hcyclic : CyclicStructs d := by
        obtain ⟨hi, heq, -⟩ := findIdx?_eq_some_iff_getElem.mp hfind
        have helem : name ∈ path.map (·.struct) :=
          mem_map.mpr ⟨path[i], getElem_mem hi, of_decide_eq_true heq⟩
        exact ⟨name, hreach name helem⟩
      refine ⟨_, rfl, ⟨fun _ => hcyclic, ?_, ?_⟩, ⟨?_, ?_⟩, by simp⟩
      · simp
      · simp
      · exact fun x hx => mem_append_left _ hx
      · simp
    | none =>
      have hoff : name ∉ path.map (·.struct) := by
        intro hon
        obtain ⟨elem, helem, rfl⟩ := mem_map.mp hon
        simpa using findIdx?_eq_none_iff.mp hfind elem helem
      have hmap : ∀ f : String, (path ++ [(⟨name, f⟩ : PathElem)]).map (·.struct) =
          path.map (·.struct) ++ [name] := by simp
      have hsound' : Sound d (path.map (·.struct) ++ [name]) st := by
        refine ⟨hsound.cyclic, hsound.ordered, fun he a ha => ?_⟩
        rcases mem_append.mp ha with ha | ha
        · exact hsound.fresh he a ha
        · exact mem_singleton.mp ha ▸ hmem
      obtain ⟨st₁, hst₁, hI, hgrows, hdone⟩ := recurseFields_advances (d.fields name) st
        (hwell name) (fun f hf b hb st hI => by
          rw [← hmap f.name] at hI ⊢
          have hedge : Contains d name b := ⟨f, hf, hb⟩
          refine checkStructRecursion_advances hwell fuel _ b st ?_ ?_ ?_
            (declared_of_mem_structsIn f.type hb) ?_ hI
          · simp only [length_append, length_singleton]
            omega
          · rw [hmap, ← concat_eq_append]
            exact hnodup.concat hoff
          · rw [hmap]
            intro a ha
            rcases mem_append.mp ha with ha | ha
            · exact hdecl a ha
            · exact mem_singleton.mp ha ▸ hname
          · rw [hmap]
            intro a ha
            rcases mem_append.mp ha with ha | ha
            · exact (hreach a ha).tail hedge
            · exact mem_singleton.mp ha ▸ .single hedge) hsound'
      rw [hst₁, Outcome.bind_ok]
      refine ⟨_, rfl, ⟨hI.cyclic, fun he => ?_, fun he a ha => ?_⟩, ⟨fun x hx => ?_,
        hgrows.errors⟩, by simp⟩
      · refine (hI.ordered he).append_singleton fun b hb => ?_
        obtain ⟨f, hf, hb⟩ := hb
        exact hdone b (mem_flatMap.mpr ⟨f, hf, hb⟩)
      · rw [mem_append, not_or]
        exact ⟨hI.fresh he a (mem_append_left _ ha), fun heq =>
          hoff (mem_singleton.mp heq ▸ ha)⟩
      · exact mem_append_left _ (hgrows.checked x hx)

/-- The structs that are done have been walked through, apart from those on the path. -/
def Walked (d : Desc) (onPath : List String) (st : Search) : Prop :=
  ∀ a ∈ st.checked, WellFormed d a ∨ a ∈ onPath

theorem checkStructRecursion_ok : ∀ (fuel : Nat) (path : List PathElem) (name : String)
    (st st' : Search), Walked d (path.map (·.struct)) st →
      checkStructRecursion d fuel path name st = .ok st' →
      Walked d (path.map (·.struct)) st' ∧ name ∈ st'.checked
  | 0, _, _, _, _, _, h => nomatch h
  | fuel + 1, path, name, st, st', hwalked, h => by
    rw [checkStructRecursion] at h
    split at h
    · next hmem =>
        obtain rfl := Outcome.ok.inj h
        exact ⟨hwalked, hmem⟩
    split at h
    · next i hfind =>
        obtain rfl := Outcome.ok.inj h
        obtain ⟨hi, heq, -⟩ := findIdx?_eq_some_iff_getElem.mp hfind
        refine ⟨fun a ha => ?_, by simp⟩
        rcases mem_append.mp ha with ha | ha
        · exact hwalked a ha
        · rw [mem_singleton.mp ha]
          exact .inr (mem_map.mpr ⟨path[i], getElem_mem hi, of_decide_eq_true heq⟩)
    · obtain ⟨st₁, hfields, hst'⟩ := Outcome.bind_eq_ok.mp h
      obtain rfl := Outcome.ok.inj hst'
      obtain ⟨hwalked', hwell⟩ := recurseFields_ok
        (I := Walked d (path.map (·.struct) ++ [name]))
        (fun f b st st' hI hcall => by
          have hmap : (path ++ [(⟨name, f⟩ : PathElem)]).map (·.struct) =
            path.map (·.struct) ++ [name] := by simp
          rw [← hmap] at hI ⊢
          exact (checkStructRecursion_ok fuel _ b st st' hI hcall).1)
        (d.fields name) st st₁
        (fun a ha => (hwalked a ha).imp_right (mem_append_left _)) hfields
      refine ⟨fun a ha => ?_, by simp⟩
      rcases mem_append.mp ha with ha | ha
      · refine (hwalked' a ha).elim .inl fun hon => ?_
        rcases mem_append.mp hon with hon | hon
        · exact .inr hon
        · exact .inl (mem_singleton.mp hon ▸ hwell)
      · exact .inl (mem_singleton.mp ha ▸ hwell)

theorem checkStructs_advances (hwell : ∀ a, WellFormed d a) : ∀ (names : List String)
    (st : Search), (∀ a ∈ names, d.structs.lookup a ≠ none) → Sound d [] st →
      Advances (Sound d []) names st (checkStructs d names st)
  | [], _, _, hsound => .stay hsound
  | name :: rest, st, hdecl, hsound => by
    refine Advances.bind (checkStructRecursion_advances hwell _ [] name st (by simp)
      nodup_nil (by simp) (hdecl name mem_cons_self) (by simp) hsound) ?_
    exact fun st' hI => checkStructs_advances hwell rest st'
      (fun a ha => hdecl a (mem_cons_of_mem _ ha)) hI

theorem checkStructs_ok : ∀ (names : List String) (st st' : Search), Walked d [] st →
    checkStructs d names st = .ok st' → ∀ a ∈ names, WellFormed d a
  | [], _, _, _, _ => by simp
  | name :: rest, st, st', hwalked, h => by
    obtain ⟨st₁, hname, hrest⟩ := Outcome.bind_eq_ok.mp h
    obtain ⟨hwalked', hmem⟩ := checkStructRecursion_ok _ [] name st st₁ hwalked hname
    refine forall_mem_cons.mpr ⟨?_, checkStructs_ok rest st₁ st' hwalked' hrest⟩
    exact (hwalked' name hmem).elim id (by simp)

/-! ## Building default arguments -/

section Build
variable {call : String → Outcome Arg}

mutual

theorem defaultArg_terminates : ∀ t : AstType,
    (∀ b ∈ structsIn d t, call b ≠ .outOfFuel) → defaultArg d call t ≠ .outOfFuel
  | .mk ident _ _ _ args => by
    rw [structsIn, defaultArg]
    intro hcall
    split
    · next hdesc =>
        rw [hdesc] at hcall
        exact hcall ident mem_cons_self
    · exact nofun
    · exact nofun
    · next hdesc =>
        split
        · exact nofun
        next hopt =>
          have hcount : (removeOpt args).length = args.length := by rw [removeOpt, if_neg hopt]
          rw [hdesc] at hcall
          dsimp only at hcall
          rw [if_neg (by simp [hopt]), hcount] at hcall
          refine Outcome.bind_ne_outOfFuel (defaultNth_terminates args 1 ?_) nofun
          intro t ht b hb
          exact hcall b (mem_structsInArgs rfl hb args _ _ 1 ht rfl
            (List.getElem?_eq_some_iff.mp ht).1)
    · next hdesc =>
        split
        · exact nofun
        · exact nofun
        next size hsize =>
          have hcount : 0 < (removeOpt args).length := by
            refine length_pos_iff.mpr fun hnil => ?_
            rw [hnil] at hsize
            cases hsize
          rw [hdesc] at hcall
          dsimp only at hcall
          refine Outcome.bind_ne_outOfFuel (defaultNth_terminates args 0 ?_) nofun
          intro t ht b hb
          exact hcall b (mem_structsInArgs rfl hb args _ _ 0 ht rfl hcount)
    · exact nofun

theorem defaultNth_terminates : ∀ (args : List AstType) (i : Nat),
    (∀ t, args[i]? = some t → ∀ b ∈ structsIn d t, call b ≠ .outOfFuel) →
      defaultNth d call args i ≠ .outOfFuel
  | [], _, _ => by
    exact nofun
  | t :: _, 0, h => by
    exact defaultArg_terminates t (h t rfl)
  | _ :: rest, i + 1, h => by
    exact defaultNth_terminates rest i h

end

theorem defaultFields_terminates : ∀ fields : List Field,
    (∀ f ∈ fields, ∀ b ∈ structsIn d f.type, call b ≠ .outOfFuel) →
      defaultFields d call fields ≠ .outOfFuel
  | [], _ => nofun
  | f :: rest, h => by
    refine Outcome.bind_ne_outOfFuel ?_ fun a => Outcome.bind_ne_outOfFuel
      (defaultFields_terminates rest fun g hg => h g (mem_cons_of_mem _ hg)) nofun
    split
    · exact nofun
    · exact defaultArg_terminates f.type (h f mem_cons_self)

end Build

/-- **The default of a struct can be built from those of the structs before it.** -/
theorem defaultStruct_terminates {l : List String} (h : FinishingOrder (Contains d) l) :
    ∀ (fuel : Nat) (l₁ l₂ : List String) (a : String), l = l₁ ++ a :: l₂ → l₁.length < fuel →
      defaultStruct d fuel a ≠ .outOfFuel
  | 0, _, _, _, _, hfuel => nomatch hfuel
  | fuel + 1, l₁, l₂, a, heq, hfuel => by
    have hcall : ∀ f ∈ d.fields a, ∀ b ∈ structsIn d f.type,
        defaultStruct d fuel b ≠ .outOfFuel := by
      intro f hf b hb
      obtain ⟨k₁, k₂, rfl⟩ := append_of_mem (h l₁ a l₂ heq b ⟨f, hf, hb⟩)
      refine defaultStruct_terminates h fuel k₁ (k₂ ++ a :: l₂) b (by simp [heq]) ?_
      rw [length_append, length_cons] at hfuel
      omega
    rw [Desc.fields] at hcall
    rw [defaultStruct]
    split
    · exact nofun
    next s hs =>
      rw [hs] at hcall
      split
      · split
        · exact nofun
        · next f hf =>
            exact Outcome.bind_ne_outOfFuel (defaultArg_terminates f.type
              (hcall f (mem_of_getElem? hf))) nofun
      · exact Outcome.bind_ne_outOfFuel (defaultFields_terminates s.fields hcall) nofun

/-- What the check is for: it answers, it reports an error exactly for structs that
contain themselves, and after it the default of every type can be built. -/
def RecursionExact (d : Desc) : Prop :=
  ∃ st, checkRecursion d = .ok st ∧ (st.errors ≠ [] ↔ CyclicStructs d) ∧
    (st.errors = [] → ∃ fuel, ∀ t, defaultArg d (defaultStruct d fuel) t ≠ .outOfFuel)

/-- **The recursion check is exact if and only if every type of a field can be taken
apart.** -/
theorem checkRecursion_exact_iff (d : Desc) : RecursionExact d ↔ ∀ a, WellFormed d a := by
  constructor
  · rintro ⟨st, hst, -⟩ a
    by_cases hdecl : d.structs.lookup a = none
    · rw [WellFormed, Desc.fields, hdecl]
      simp
    · exact checkStructs_ok _ _ st (by simp [Walked]) hst a
        ((Table.mem_keys_iff a d.structs).mpr hdecl)
  · intro hwell
    have hkeys := fun a => (Table.mem_keys_iff a d.structs)
    have hinit : Sound d [] ⟨[], []⟩ := ⟨by simp, fun _ l₁ a l₂ heq => by simp at heq, by simp⟩
    obtain ⟨st, hst, hsound, -, hdone⟩ := checkStructs_advances hwell
      (d.structs.entries.map Prod.fst) ⟨[], []⟩ (fun a => (hkeys a).mp) hinit
    refine ⟨st, hst, ⟨hsound.cyclic, ?_⟩, fun he => ⟨st.checked.length, fun t => ?_⟩⟩
    · rintro ⟨a, hcycle⟩ he
      have hdecl : d.structs.lookup a ≠ none := by
        obtain ⟨c, -, f, -, ha⟩ := Relation.TransGen.tail'_iff.mp hcycle
        exact declared_of_mem_structsIn f.type ha
      obtain ⟨l₁, l₂, heq⟩ := append_of_mem (hdone a ((hkeys a).mpr hdecl))
      exact (hsound.ordered he).irrefl heq hcycle
    · refine defaultArg_terminates t fun b hb => ?_
      obtain ⟨l₁, l₂, heq⟩ := append_of_mem
        (hdone b ((hkeys b).mpr (declared_of_mem_structsIn t hb)))
      refine defaultStruct_terminates (hsound.ordered he) _ l₁ l₂ b heq ?_
      rw [heq, length_append, length_cons]
      omega

/-- A struct that contains itself and has a field `fmt[dec, proc[10, 20]]`. -/
def fmtProc : Desc where
  resources := []
  structs := ⟨[("s", ⟨false,
    [⟨"f", .named "fmt" [.named "dec" [], .named "proc" [.int 10, .int 20]], false⟩,
      ⟨"g", .named "s" [], false⟩]⟩)], by simp⟩

/-- **The check panics on it, as the value of `fmt` has no base type.** -/
theorem checkRecursion_fmtProc :
    checkRecursion fmtProc = .panic ∧ CyclicStructs fmtProc ∧ ¬ RecursionExact fmtProc := by
  have hpanic : checkRecursion fmtProc = .panic := by decide +kernel
  refine ⟨hpanic, ⟨"s", .single ⟨⟨"g", .named "s" [], false⟩, ?_, ?_⟩⟩, ?_⟩
  · exact mem_cons_of_mem _ mem_cons_self
  · decide +kernel
  · rintro ⟨st, hst, -⟩
    cases hst

end Sect.Descriptions
