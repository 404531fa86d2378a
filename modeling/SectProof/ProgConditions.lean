import SectProof.ProgArgs

/-! # Conditional fields

The options of a conditional union carry conditions on other fields of the call.
`checkConditions` evaluates them: a path is followed from the union through its
parents to the field it names, and an option whose condition is false, or one that
is only there until the conditions are known, is stale.
-/

namespace Sect.Program

/-! ## Sizes -/

/-- The size of a struct of variable length: its fields and the alignment at the
end and before the overlay part. -/
def structSize (alignAttr : UInt64) (overlayField n : Nat) :
    Nat → UInt64 → UInt64 → List UInt64 → UInt64
  | _, size, _, [] => size
  | i, size, offset, field :: fields =>
    let offset := (if i = overlayField then 0 else offset) + field
    let offset :=
      if (i + 1 = n ∨ i + 1 = overlayField) ∧ alignAttr ≠ 0 ∧ offset % alignAttr ≠ 0 then
        offset + (alignAttr - offset % alignAttr)
      else offset
    structSize alignAttr overlayField n (i + 1) (if size < offset then offset else size) offset fields

namespace Arg

def type (target : Target) (cells : Cells) (a : Arg) : Ty := target.types (a.common cells).ref

/-- `Size` of an argument; a group of another type panics in the source. -/
def size (target : Target) (cells : Cells) : Arg → UInt64
  | data _ _ bytes size => if bytes = [] then size else bytes.length.toUInt64
  | group _ c inner =>
    if (target.types c.ref).varlen then
      match target.types c.ref with
      | .struct _ _ alignAttr overlayField =>
        structSize alignAttr overlayField inner.length 0 0 0 (sizeList inner)
      | _ => (sizeList inner).sum
    else (target.types c.ref).size
  | union _ c option _ _ =>
    if (target.types c.ref).varlen then option.size target cells else (target.types c.ref).size
  | a => (a.type target cells).size
where
  sizeList : List Arg → List UInt64
    | [] => []
    | a :: as => a.size target cells :: sizeList as

/-- `InnerArg`: the argument behind pointers, if there is one. -/
def innerArg (target : Target) (cells : Cells) : Arg → Except Panic (Option Arg)
  | pointer id c a n res =>
    if (target.types c.ref).isPtr then res.innerArg target cells
    else pure (some (pointer id c a n res))
  | address id c a n =>
    if (target.types c.ref).isPtr then pure none else pure (some (address id c a n))
  | a => if (a.type target cells).isPtr then throw .badCast else pure (some a)

end Arg

/-! ## Parents -/

/-- `parentsMap`, the latest entry first; the key `none` is nil. -/
abbrev Parents := List (Option Id × Arg)

def Parents.find (parents : Parents) (pos : Option Id) : Option Arg := parents.lookup pos

/-- `parentsMap[InnerArg(field)] = arg`. -/
def saveParent (target : Target) (cells : Cells) (arg : Arg) (parents : Parents) (field : Arg) :
    Except Panic Parents := do
  let inner ← field.innerArg target cells
  pure ((inner.map Arg.id, arg) :: parents)

def saveToParentsMap (target : Target) (cells : Cells) (parents : Parents) (arg : Arg) :
    Except Panic Parents :=
  match arg with
  | .group _ c inner =>
    if (target.types c.ref).isStruct then inner.foldlM (saveParent target cells arg) parents
    else pure parents
  | .union _ _ option _ _ => saveParent target cells arg parents option
  | a => if (a.type target cells).isStruct then throw .badCast else pure parents

def callParentsMap (target : Target) (cells : Cells) (c : Call) : Except Panic Parents :=
  c.subArgs.foldlM (saveToParentsMap target cells) []

/-! ## Paths -/

structure FoundArg where
  arg : Option Arg
  offset : UInt64
  isAnyPtr : Bool

def noOffset : UInt64 := 0xffffffffffffffff

def parentRef : String := "parent"

/-- The field named `elem` and its offset. -/
def findField (target : Target) (cells : Cells) (elem : String) (overlayField : Nat) :
    Nat → UInt64 → List Arg → List Field → Except Panic (Option (Arg × UInt64))
  | _, _, [], _ => pure none
  | i, _, _ :: _, [] => throw (.badIndex i)
  | i, offset, buf :: args, field :: fields =>
    let offset := if i = overlayField then 0 else offset
    if elem = field.name then pure (some (buf, offset))
    else findField target cells elem overlayField (i + 1) (offset + buf.size target cells) args fields

/-- The closest parent of `pos` whose type has the name `elem`.  A tree has no
more ancestors than `fuel`, the number of entries. -/
def findParent (target : Target) (cells : Cells) (parents : Parents) (elem : String) :
    Nat → Option Id → Option Arg
  | 0, _ => none
  | fuel + 1, pos =>
    match parents.find pos with
    | none => none
    | some buf =>
      if elem = (buf.type target cells).templateName then some buf
      else findParent target cells parents elem fuel (some buf.id)

/-- Where `findFieldStruct` goes on to look: the fields of a struct, or none. -/
def Arg.fieldStruct (target : Target) (cells : Cells) : Arg →
    Except Panic (List Arg × List Field × Nat)
  | .group id c inner =>
    match (group id c inner).type target cells with
    | .struct _ fields _ overlayField => pure (inner, fields, overlayField)
    | _ => throw .badCast
  | .union .. => pure ([], [], 0)
  | _ => throw .badArgKind

/-- What one element of a path leads to: the end of the search, or an argument and
its offset from where it goes on. -/
def findElem (target : Target) (cells : Cells) (parents : Parents) (elem : String)
    (pos : Option Id) (args : List Arg) (fields : List Field) (overlayField : Nat) :
    Except Panic (FoundArg ⊕ Option Arg × UInt64) := do
  match ← findField target cells elem overlayField 0 0 args fields with
  | some (buf, offset) =>
    if (buf.common cells).ref = target.any.ptrPtr ∨ (buf.common cells).ref = target.any.ptr64 then
      pure (.inl ⟨some buf, offset, true⟩)
    else
      match ← buf.innerArg target cells with
      | none => pure (.inl ⟨none, offset, false⟩)
      | some buf => pure (.inr (some buf, offset))
  | none =>
    if elem = parentRef then pure (.inr (parents.find pos, noOffset))
    else
      match findParent target cells parents elem (parents.length + 1) pos with
      | some buf => pure (.inr (some buf, noOffset))
      | none => throw (.unknownField elem)

/-- `findArg` and `findFieldStruct`. -/
def findArg (target : Target) (cells : Cells) (parents : Parents) :
    List String → Option Id → List Arg → List Field → Nat → Except Panic FoundArg
  | [], _, _, _, _ => throw (.badIndex 0)
  | elem :: path, pos, args, fields, overlayField => do
    match ← findElem target cells parents elem pos args fields overlayField with
    | .inl found => pure found
    | .inr (buf, offset) =>
      if path = [] then pure ⟨buf, offset, false⟩
      else
        match buf with
        | none => throw .badArgKind
        | some buf => do
          let (args, fields, overlayField) ← buf.fieldStruct target cells
          findArg target cells parents path (some buf.id) args fields overlayField

/-! ## Conditions -/

/-- What `Evaluate` gets of an `ArgFinder`: the value of a constant argument, or
nothing if the path leads into a squashed one. -/
abbrev ArgFinder := List String → Except Panic (Option UInt64)

/-- The finder of a union, together with the reading of the found argument. -/
def argFinder (target : Target) (cells : Cells) (parents : Parents) (option : Arg) : ArgFinder :=
  fun path => do
    let found ← findArg target cells parents path (some option.id) [] [] 0
    if found.isAnyPtr then pure none
    else
      match found.arg with
      | none => throw (.noArgument path)
      | some (.const _ _ val) => pure (some val)
      | some _ => throw .notInt

def BinaryOperator.apply (op : BinaryOperator) (left right : UInt64) : UInt64 :=
  match op with
  | .compareEq => if left = right then 1 else 0
  | .compareNeq => if left = right then 0 else 1
  | .binaryAnd => left &&& right

def Expression.evaluate (finder : ArgFinder) : Expression → Except Panic (Option UInt64)
  | .binary op left right => do
    match ← left.evaluate finder with
    | none => pure none
    | some left =>
      match ← right.evaluate finder with
      | none => pure none
      | some right => pure (some (op.apply left right))
  | .value v path => if path = [] then pure (some v) else finder path

structure UnionCheck where
  ok : Bool
  calculated : Bool
  deriving DecidableEq, Repr

def checkUnionArg (fields : List Field) (finder : ArgFinder) (idx : Nat) :
    Except Panic UnionCheck :=
  match fields[idx]? with
  | none => throw (.badIndex idx)
  | some field =>
    match field.condition with
    | none => pure ⟨true, true⟩
    | some condition => do
      match ← condition.evaluate finder with
      | none => pure ⟨true, false⟩
      | some val => pure ⟨val ≠ 0, true⟩

def matchingUnionArgs (fields : List Field) (finder : ArgFinder) : Except Panic (List Nat) :=
  (List.range fields.length).filterM fun i => do pure (← checkUnionArg fields finder i).ok

def isConditional : List Field → Except Panic Bool
  | [] => throw (.badIndex 0)
  | field :: _ => pure field.condition.isSome

/-- The arguments that are not behind a squashed pointer. -/
def Arg.unsquashed (target : Target) : Arg → List Arg
  | .pointer id c a n res =>
    .pointer id c a n res :: if target.isAnyPtr c.ref then [] else res.unsquashed target
  | .group id c inner =>
    .group id c inner :: if target.isAnyPtr c.ref then [] else unsquashedList inner
  | .union id c option index transient =>
    .union id c option index transient ::
      if target.isAnyPtr c.ref then [] else option.unsquashed target
  | a => [a]
where
  unsquashedList : List Arg → List Arg
    | [] => []
    | a :: as => a.unsquashed target ++ unsquashedList as

/-- A union whose option violates the conditions. -/
structure StaleUnion where
  type : Ref
  index : Nat
  transient : Bool
  matching : List Nat
  deriving DecidableEq, Repr

/-- One step of `forEachStaleUnion`. -/
def staleUnion (target : Target) (cells : Cells) (parents : Parents) :
    Arg → Except Panic (Option StaleUnion)
  | .union _ c option index transient =>
    match target.types c.ref with
    | .union _ fields => do
      if ← isConditional fields then
        let finder := argFinder target cells parents option
        let check ← checkUnionArg fields finder index
        if !check.calculated then pure none
        else if !transient && check.ok then pure none
        else
          let matching ← matchingUnionArgs fields finder
          if matching = [] then throw .noMatchingFields
          else pure (some ⟨c.ref, index, transient, matching⟩)
      else pure none
    | _ => pure none
  | _ => pure none

def Call.forEachStaleUnion (target : Target) (cells : Cells) (c : Call) :
    Except Panic (List StaleUnion) := do
  let parents ← callParentsMap target cells c
  let stale ← (c.args.flatMap (Arg.unsquashed target)).mapM (staleUnion target cells parents)
  pure stale.reduceOption

/-- `checkConditions`: the last stale union is reported. -/
def Call.checkConditions (target : Target) (cells : Cells) (ignoreTransient : Bool) (c : Call) :
    Except Panic (Option StaleUnion) := do
  let stale ← c.forEachStaleUnion target cells
  pure (stale.filter fun u => !(ignoreTransient && u.transient)).getLast?

end Sect.Program
