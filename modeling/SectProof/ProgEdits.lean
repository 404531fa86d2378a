import SectProof.ProgArgs

/-! # Editing programs

`Clone`, `insertBefore`, `RemoveCall`, `removeArg` and `replaceArg`: the
operations that change a program together with the references between its
results.  What the source does to an object, the model does to the tree it is in
or, for a `ResultArg`, to its cell in the store.
-/

namespace Sect.Program

namespace Cells

def set (cells : Cells) (i : Id) (a : ResultArg) : Cells := Function.update cells i a

/-- A change of the `uses` map of one result. -/
def modifyUses (cells : Cells) (i : Id) (f : List Id → List Id) : Cells :=
  cells.set i { cells i with uses := f (cells i).uses }

/-- `delete(arg.Res.uses, arg)`, if `arg` refers to a result. -/
def dropUse (cells : Cells) (arg : Id) : Cells :=
  match (cells arg).res with
  | some r => cells.modifyUses r (·.filter (· ≠ arg))
  | none => cells

/-- `arg` gets the contents of the object `arg1`, except for the arguments that
use it, and takes its place among the uses of the result it now refers to. -/
def replaceResultArg (cells : Cells) (arg arg1 : Id) (contents : ResultArg) : Cells :=
  let cells := cells.dropUse arg
  let cells := cells.set arg { contents with uses := (cells arg).uses }
  match contents.res with
  | some r => cells.modifyUses r fun uses => (uses.filter (· ≠ arg1)).insert arg
  | none => cells

end Cells

/-- `DefaultArg` of the type of a result. -/
def ResultArg.default (target : Target) (a : ResultArg) : ResultArg :=
  { a.toArgCommon with val := (target.types a.ref).defaultVal }

/-- An argument that used a removed result becomes the default of its type; the
default is a new object that nothing refers to, so its identity is left out. -/
def Cells.reset (target : Target) (cells : Cells) (arg : Id) : Cells :=
  cells.replaceResultArg arg arg ((cells arg).default target)

/-- `removeArg` at one `ResultArg`. -/
def removeResult (target : Target) (cells : Cells) (a : Id) : Except Panic Cells := do
  match (cells a).res with
  | some r =>
    if a ∈ (cells r).uses then
      let cells := cells.modifyUses r (·.filter (· ≠ a))
      pure ((cells a).uses.foldl (Cells.reset target) cells)
    else throw .brokenTree
  | none => pure ((cells a).uses.foldl (Cells.reset target) cells)

def removeArg (target : Target) (cells : Cells) (arg : Arg) : Except Panic Cells :=
  arg.results.foldlM (removeResult target) cells

def removeArgs (target : Target) (cells : Cells) (args : List Arg) : Except Panic Cells :=
  args.foldlM (removeArg target) cells

def Prog.removeCall (target : Target) (cells : Cells) (p : Prog) (idx : Nat) :
    Except Panic (Prog × Cells) := do
  match p.calls[idx]? with
  | none => throw (.badIndex idx)
  | some c =>
    let cells ← removeArgs target cells c.args
    let cells ← c.ret.toList.foldlM (removeResult target) cells
    pure (⟨p.calls.eraseIdx idx⟩, cells)

/-! ## Copies

The copy of the object `i` is the new object `base + i`. -/

/-- The argument with other identities. -/
def Arg.rename (f : Id → Id) : Arg → Arg
  | .const id c val => .const (f id) c val
  | .address id c a n => .address (f id) c a n
  | .pointer id c a n res => .pointer (f id) c a n (res.rename f)
  | .data id c bytes size => .data (f id) c bytes size
  | .group id c inner => .group (f id) c (renameList inner)
  | .union id c option index transient => .union (f id) c (option.rename f) index transient
  | .result id => .result (f id)
where
  renameList : List Arg → List Arg
    | [] => []
    | a :: as => a.rename f :: renameList as

def Call.rename (f : Id → Id) (c : Call) : Call :=
  { c with args := c.args.map (Arg.rename f), ret := c.ret.map f }

def Prog.rename (f : Id → Id) (p : Prog) : Prog := ⟨p.calls.map (Call.rename f)⟩

/-- `clone` of a result with the map `newargs`, which has the keys `seen`: a
reference is redirected to the copy of the result. -/
def cloneResult (base : Id) (s : List Id × Cells) (a : Id) : Except Panic (List Id × Cells) :=
  match (s.2 a).res with
  | none => pure (a :: s.1, s.2.set (base + a) { s.2 a with uses := [] })
  | some r =>
    if r ∈ s.1 then
      let cells := s.2.modifyUses (base + r) (·.insert (base + a))
      pure (a :: s.1, cells.set (base + a) { s.2 a with res := some (base + r), uses := [] })
    else throw .nilReference

/-- `clone` of a result without a map: the copy refers to the same result. -/
def cloneShared (base : Id) (cells : Cells) (a : Id) : Cells :=
  match (cells a).res with
  | none => cells.set (base + a) { cells a with uses := [] }
  | some r =>
    (cells.modifyUses r (·.insert (base + a))).set (base + a) { cells a with uses := [] }

def Prog.clone (s : Store) (p : Prog) : Except Panic (Prog × Store) := do
  let (_, cells) ← (p.calls.flatMap Call.results).foldlM (cloneResult s.next) ([], s.cells)
  pure (p.rename (s.next + ·), ⟨cells, s.next + s.next⟩)

/-- `cloneCall(c, nil)`. -/
def cloneCall (s : Store) (c : Call) : Call × Store :=
  (c.rename (s.next + ·), ⟨c.results.foldl (cloneShared s.next) s.cells, s.next + s.next⟩)

/-! ## Properties -/

def Call.setFailNth (n : Nat) (c : Call) : Call := { c with props := { c.props with failNth := n } }

/-! ## Insertion and replacement -/

/-- The calls in front of `idx`; an index past the end appends them. -/
def Prog.insertBefore (p : Prog) (idx : Nat) (calls : List Call) : Prog :=
  ⟨p.calls.take idx ++ calls ++ p.calls.drop idx⟩

/-- `arg1` as the new contents of the object `id`. -/
def Arg.setId (id : Id) : Arg → Arg
  | .const _ c val => .const id c val
  | .address _ c a n => .address id c a n
  | .pointer _ c a n res => .pointer id c a n res
  | .data _ c bytes size => .data id c bytes size
  | .group _ c inner => .group id c inner
  | .union _ c option index transient => .union id c option index transient
  | .result _ => .result id

def Arg.isPointer : Arg → Bool
  | .address .. | .pointer .. => true
  | _ => false

/-- `replaceArg` returns what the tree of the old argument has become. -/
def replaceArg (target : Target) (cells : Cells) (arg arg1 : Arg) : Except Panic (Arg × Cells) :=
  if arg.id = arg1.id then throw .replaceItself
  else
    match arg, arg1 with
    | .const id _ _, .const _ c val => pure (.const id c val, cells)
    | .result id, .result id1 => pure (.result id, cells.replaceResultArg id id1 (cells id1))
    | .union id _ option _ _, .union _ c option1 index1 transient1 => do
      let cells ← removeArg target cells option
      pure (.union id c option1 index1 transient1, cells)
    | .data id _ _ _, .data _ c bytes size => pure (.data id c bytes size, cells)
    | .group id c inner, .group _ c1 inner1 => do
      if (target.types c.ref).isStruct ∧ inner.length ≠ inner1.length then
        throw (.groupFields inner.length inner1.length)
      else
        let (replaced, cells) ← replaceArgs cells inner inner1
        let cells ← removeArgs target cells (inner.drop inner1.length).reverse
        pure (.group id c1 (replaced ++ inner1.drop inner.length), cells)
    | .address id _ _ _, arg1 => if arg1.isPointer then pure (arg1.setId id, cells) else throw .badArgKind
    | .pointer id _ _ _ _, arg1 =>
      if arg1.isPointer then pure (arg1.setId id, cells) else throw .badArgKind
    | _, _ => throw .badArgKind
where
  /-- The elements two groups have in common. -/
  replaceArgs (cells : Cells) : List Arg → List Arg → Except Panic (List Arg × Cells)
    | a :: as, b :: bs => do
      let (a, cells) ← replaceArg target cells a b
      let (as, cells) ← replaceArgs cells as bs
      pure (a :: as, cells)
    | _, _ => pure ([], cells)

end Sect.Program
