import SectProof.ProgTypes

/-! # Programs: calls, arguments and results

An argument is a tree.  Every node is an object with an identity `Id` of its own,
and the objects that are referred to from elsewhere, the `ResultArg`s, live in a
store: a leaf `result` of the tree is the object of that identity.
-/

namespace Sect.Program

/-- The identity of an argument object. -/
abbrev Id := Nat

structure ArgCommon where
  ref : Ref
  dir : Dir
  deriving DecidableEq, Repr

/-- A `ResultArg`: a constant or a reference to an earlier one, and the arguments
that refer to this one. -/
structure ResultArg extends ArgCommon where
  res : Option Id := none
  opDiv : UInt64 := 0
  opAdd : UInt64 := 0
  val : UInt64 := 0
  uses : List Id := []
  deriving DecidableEq, Repr

/-- An argument.  `address` and `pointer` are the two forms of `PointerArg`,
without and with a pointee; `size` of a `data` argument is for output arguments. -/
inductive Arg
  | const (id : Id) (common : ArgCommon) (val : UInt64)
  | address (id : Id) (common : ArgCommon) (address vmaSize : UInt64)
  | pointer (id : Id) (common : ArgCommon) (address vmaSize : UInt64) (res : Arg)
  | data (id : Id) (common : ArgCommon) (data : List UInt8) (size : UInt64)
  | group (id : Id) (common : ArgCommon) (inner : List Arg)
  | union (id : Id) (common : ArgCommon) (option : Arg) (index : Nat) (transient : Bool)
  | result (id : Id)

structure CallProps where
  failNth : Nat := 0
  async : Bool := false
  rerun : Nat := 0
  deriving DecidableEq, Repr

/-- A call; `ret` is the object that stands for its return value. -/
structure Call where
  syscall : Syscall
  args : List Arg
  ret : Option Id
  props : CallProps := {}

structure Prog where
  calls : List Call

/-- The contents of all `ResultArg` objects. -/
abbrev Cells := Id → ResultArg

/-- The store: objects from `next` on do not exist yet. -/
structure Store where
  cells : Cells
  next : Id

namespace Arg

/-- Induction over an argument with the hypothesis for all elements of a group. -/
theorem induct {P : Arg → Prop}
    (const : ∀ id c val, P (.const id c val))
    (address : ∀ id c a n, P (.address id c a n))
    (pointer : ∀ id c a n res, P res → P (.pointer id c a n res))
    (data : ∀ id c bytes size, P (.data id c bytes size))
    (group : ∀ id c inner, (∀ a ∈ inner, P a) → P (.group id c inner))
    (union : ∀ id c option index transient, P option → P (.union id c option index transient))
    (result : ∀ id, P (.result id)) : ∀ a, P a := by
  intro a
  refine @Arg.rec P (fun inner => ∀ a ∈ inner, P a) const address
    (fun id c a n res h => pointer id c a n res h) data group
    (fun id c option index transient h => union id c option index transient h) result
    (fun a ha => by cases ha) (fun head tail hhead htail => ?_) a
  intro b hb
  rcases List.mem_cons.mp hb with rfl | hb
  · exact hhead
  · exact htail b hb

def id : Arg → Id
  | const id _ _ | address id _ _ _ | pointer id _ _ _ _ | data id _ _ _ | group id _ _
  | union id _ _ _ _ | result id => id

/-- `ArgCommon` of an argument; that of a result is in the store. -/
def common (cells : Cells) : Arg → ArgCommon
  | const _ c _ | address _ c _ _ | pointer _ c _ _ _ | data _ c _ _ | group _ c _
  | union _ c _ _ _ => c
  | result id => (cells id).toArgCommon

/-- The arguments `ForeachSubArg` visits, in its order. -/
def subArgs : Arg → List Arg
  | pointer id c a n res => pointer id c a n res :: res.subArgs
  | group id c inner => group id c inner :: subArgsList inner
  | union id c option index transient => union id c option index transient :: option.subArgs
  | a => [a]
where
  subArgsList : List Arg → List Arg
    | [] => []
    | a :: as => a.subArgs ++ subArgsList as

def result? : Arg → Option Id
  | result id => some id
  | _ => none

/-- The `ResultArg`s of an argument, in the order of `ForeachSubArg`. -/
def results (a : Arg) : List Id := a.subArgs.filterMap result?

def ids (a : Arg) : List Id := a.subArgs.map id

end Arg

namespace Call

/-- The arguments of a call, its return value left out, in the order of
`ForeachArg`. -/
def subArgs (c : Call) : List Arg := c.args.flatMap Arg.subArgs

def argResults (c : Call) : List Id := c.args.flatMap Arg.results

/-- The results of a call in the order of `ForeachArg`, which visits the return
value first. -/
def results (c : Call) : List Id := c.ret.toList ++ c.argResults

/-- The results of a call in the order of `validateCall`, which visits the return
value last. -/
def validated (c : Call) : List Id := c.argResults ++ c.ret.toList

def ids (c : Call) : List Id := c.args.flatMap Arg.ids ++ c.ret.toList

end Call

namespace Prog

/-- All results in the order of `validate`. -/
def validated (p : Prog) : List Id := p.calls.flatMap Call.validated

def ids (p : Prog) : List Id := p.calls.flatMap Call.ids

end Prog

/-! ## What a traversal visits -/

namespace Arg

theorem subArgsList_eq (as : List Arg) : subArgs.subArgsList as = as.flatMap subArgs := by
  induction as with
  | nil => rfl
  | cons a as ih =>
    rw [subArgs.subArgsList, ih]
    rfl

@[simp] theorem results_const (i c v) : (const i c v).results = [] := rfl
@[simp] theorem results_address (i c a n) : (address i c a n).results = [] := rfl
@[simp] theorem results_data (i c d n) : (data i c d n).results = [] := rfl
@[simp] theorem results_result (i) : (result i).results = [i] := rfl

@[simp] theorem results_pointer (i c a n r) : (pointer i c a n r).results = r.results := by
  rfl

@[simp] theorem results_group (i c inner) :
    (group i c inner).results = inner.flatMap results := by
  rw [results, subArgs, List.filterMap_cons_none rfl, subArgsList_eq, List.filterMap_flatMap]
  rfl

@[simp] theorem results_union (i c o k t) : (union i c o k t).results = o.results := by
  rfl

@[simp] theorem ids_const (i c v) : (const i c v).ids = [i] := rfl
@[simp] theorem ids_address (i c a n) : (address i c a n).ids = [i] := rfl
@[simp] theorem ids_data (i c d n) : (data i c d n).ids = [i] := rfl
@[simp] theorem ids_result (i) : (result i).ids = [i] := rfl

@[simp] theorem ids_pointer (i c a n r) : (pointer i c a n r).ids = i :: r.ids := by
  simp [ids, subArgs, id]

@[simp] theorem ids_group (i c inner) : (group i c inner).ids = i :: inner.flatMap ids := by
  simp [ids, subArgs, subArgsList_eq, id, List.map_flatMap]
  rfl

@[simp] theorem ids_union (i c o k t) : (union i c o k t).ids = i :: o.ids := by
  simp [ids, subArgs, id]

/-- The results of an argument are among its objects, in the same order. -/
theorem results_sublist_ids (a : Arg) : a.results.Sublist a.ids := by
  unfold results ids
  induction a.subArgs with
  | nil => exact .slnil
  | cons b bs ih =>
    cases b with
    | result i => exact ih.cons_cons i
    | _ => exact ih.cons _

end Arg

theorem flatMap_sublist {α β : Type} {f g : α → List β} (h : ∀ a, (f a).Sublist (g a))
    (l : List α) : (l.flatMap f).Sublist (l.flatMap g) := by
  induction l with
  | nil => exact .slnil
  | cons a l ih => exact (h a).append ih

theorem Call.validated_sublist_ids (c : Call) : c.validated.Sublist c.ids :=
  (flatMap_sublist Arg.results_sublist_ids c.args).append (.refl _)

theorem Prog.validated_sublist_ids (p : Prog) : p.validated.Sublist p.ids :=
  flatMap_sublist Call.validated_sublist_ids p.calls

end Sect.Program
