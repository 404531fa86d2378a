import SectProof.ErrorChecks
import SectProof.ProgConditions

/-! # Validation of programs

`validate` walks over all arguments of a program.  It compares each one with the
type and the direction its place asks for, checks its value, and looks at the
links of the results: an argument is met once, a result that is referred to has
been met before and knows its users, and every user is met in the end.
-/

namespace Sect.Program

open ErrorChecks

inductive Invalid
  | disabledCall
  | rerunAndFailNth
  | numberOfArgs (want got : Nat)
  | severalTimes (arg : Id)
  | wrongDir (arg : Id) (dir expect : Dir)
  | wrongType (arg : Id) (type expect : Ref)
  | outInt (val : UInt64)
  | procValue (val : UInt64)
  | csumValue (val : UInt64)
  | outNotDefault (val : UInt64)
  | badType (type : Ref)
  | brokenUses (arg use : Id)
  | outResource (val : UInt64)
  | outOfTreeResult (arg res : Id)
  | brokenLink (arg res : Id)
  | usedDirIn (arg : Id)
  | usedTooBig (arg : Id)
  | outData
  | dataSize (size want : UInt64)
  | stringSize (size want : UInt64)
  | filename
  | numberOfFields (want got : Nat)
  | numberOfElems (want : UInt64) (got : Nat)
  | unionIndex (index : Nat)
  | vmaData
  | pointerSize
  | outPointer
  | specialPointer (address : UInt64)
  | address (address vmaSize size : UInt64)
  | conditions (stale : StaleUnion)
  | retWithoutType
  | retAbsent
  | retNotEmpty
  | outOfTreeUse (orig use : Id)
  | call (idx : Nat) (name : String) (err : Invalid)
  | panic (panic : Panic)
  deriving DecidableEq, Repr

/-- `validCtx`.  `args` has all arguments met so far, `results` the `ResultArg`s
among them, which are all that a `*ResultArg` can be compared with; `uses` has
the users of the results met, each with the result it uses. -/
structure ValidCtx where
  args : List Id := []
  results : List Id := []
  uses : List (Id × Id) := []

def ValidCtx.meet (ctx : ValidCtx) (arg : Arg) : ValidCtx :=
  { ctx with args := arg.id :: ctx.args, results := arg.result?.toList ++ ctx.results }

section Nodes

variable (target : Target)

/-- Pointers are always in. -/
def expectedDir (typ : Ref) (dir : Dir) : Dir := if (target.types typ).isPtr then .dirIn else dir

/-- The checks of `validateArg` before `arg.validate`. -/
def ValidCtx.validateCommon (cells : Cells) (ctx : ValidCtx) (arg : Arg) (typ : Ref) (dir : Dir) :
    Except Invalid ValidCtx := do
  let c := arg.common cells
  reject (arg.id ∈ ctx.args) (.severalTimes arg.id)
  reject (c.dir ≠ expectedDir target typ dir ∧ expectedDir target typ dir ≠ .dirInOut)
    (.wrongDir arg.id c.dir (expectedDir target typ dir))
  reject (target.isAnyPtr c.ref = false ∧ c.ref ≠ typ) (.wrongType arg.id c.ref typ)
  pure (ctx.meet arg)

/-- `validate` of a `ConstArg`. -/
def validateConst (c : ArgCommon) (val : UInt64) : Except Invalid Unit := do
  let default := (target.types c.ref).defaultVal
  match target.types c.ref with
  | .int _ => do
    reject (c.dir = .dirOut ∧ val ≠ default) (.outInt val)
    reject (c.dir = .dirOut ∧ val ≠ default) (.outNotDefault val)
  | .proc _ _ valuesPerProc => do
    reject (valuesPerProc ≤ val ∧ val ≠ default) (.procValue val)
    reject (c.dir = .dirOut ∧ val ≠ default) (.outNotDefault val)
  | .csum _ => do
    reject (val ≠ 0) (.csumValue val)
    reject (c.dir = .dirOut ∧ val ≠ default) (.outNotDefault val)
  | .const .. | .flags _ => reject (c.dir = .dirOut ∧ val ≠ default) (.outNotDefault val)
  | .len _ => pure ()
  | _ => throw (.badType c.ref)

def validateData (c : ArgCommon) (bytes : List UInt8) (size : UInt64) : Except Invalid Unit :=
  match target.types c.ref with
  | .buffer common kind => do
    reject (c.dir = .dirOut ∧ bytes ≠ []) .outData
    reject (common.isVarlen = false ∧ common.typeSize ≠ size) (.dataSize size common.typeSize)
    match kind with
    | .string => reject (common.typeSize ≠ 0 ∧ size ≠ common.typeSize) (.stringSize size common.typeSize)
    | .filename => reject (target.escapingFilename bytes = true) .filename
    | _ => pure ()
  | _ => throw (.badType c.ref)

/-- `IsSpecial` of a pointer without a pointee. -/
def isSpecial (address vmaSize : UInt64) : Bool := vmaSize = 0 ∧ -address < maxSpecialPointers

/-- The address of a pointer to `size` bytes. -/
def validateAddress (address vmaSize size : UInt64) : Except Invalid Unit :=
  let maxMem := target.numPages * target.pageSize
  reject (maxMem ≤ address ∨ maxMem < address + size) (.address address vmaSize size)

/-- `validate` of a `PointerArg` without a pointee. -/
def validateNil (c : ArgCommon) (address vmaSize : UInt64) : Except Invalid Unit := do
  match target.types c.ref with
  | .vma _ => pure ()
  | .ptr .. => do
    reject (vmaSize ≠ 0) .pointerSize
    reject (c.dir = .dirOut) .outPointer
  | _ => throw (.badType c.ref)
  if isSpecial address vmaSize then
    reject (target.specialPointers.length.toUInt64 ≤ -address) (.specialPointer address)
  else validateAddress target address vmaSize vmaSize

/-- `validate` of a `PointerArg` to `size` bytes, behind the pointee. -/
def validatePointer (c : ArgCommon) (address vmaSize size : UInt64) : Except Invalid Unit := do
  reject (vmaSize ≠ 0) .pointerSize
  reject (c.dir = .dirOut) .outPointer
  validateAddress target address vmaSize size

/-- The reference of a `ResultArg`. -/
def ValidCtx.validateReference (cells : Cells) (ctx : ValidCtx) (id : Id) : Except Invalid Unit :=
  match (cells id).res with
  | none => pure ()
  | some r => do
    reject (r ∉ ctx.results) (.outOfTreeResult id r)
    reject (id ∉ (cells r).uses) (.brokenLink id r)

/-- `validate` of a `ResultArg` that is already among the arguments of `ctx`. -/
def ValidCtx.validateResult (cells : Cells) (ctx : ValidCtx) (id : Id) :
    Except Invalid ValidCtx :=
  let arg := cells id
  match target.types arg.ref with
  | .resource common _ default => do
    arg.uses.forM fun u => reject ((cells u).res ≠ some id) (.brokenUses id u)
    reject (arg.dir = .dirOut ∧ arg.val ≠ 0 ∧ arg.val ≠ default) (.outResource arg.val)
    ctx.validateReference cells id
    reject (arg.dir = .dirIn ∧ arg.uses ≠ []) (.usedDirIn id)
    reject (arg.uses ≠ [] ∧ 8 < common.typeSize) (.usedTooBig id)
    pure { ctx with uses := arg.uses.map (·, id) ++ ctx.uses }
  | _ => throw (.badType arg.ref)

end Nodes

/-- The places of the fields of a struct. -/
def fieldPlaces (fields : List Field) (dir : Dir) : List (Ref × Dir) :=
  fields.map fun f => (f.type, f.dir dir)

/-- `validateArg` with `validate` of all kinds of arguments. -/
def Arg.validate (target : Target) (cells : Cells) :
    Arg → Ref → Dir → ValidCtx → Except Invalid ValidCtx
  | .const id c val, typ, dir, ctx => do
    let ctx ← ctx.validateCommon target cells (.const id c val) typ dir
    validateConst target c val
    pure ctx
  | .data id c bytes size, typ, dir, ctx => do
    let ctx ← ctx.validateCommon target cells (.data id c bytes size) typ dir
    validateData target c bytes ((data id c bytes size).size target cells)
    pure ctx
  | .address id c addr vmaSize, typ, dir, ctx => do
    let ctx ← ctx.validateCommon target cells (.address id c addr vmaSize) typ dir
    validateNil target c addr vmaSize
    pure ctx
  | .pointer id c addr vmaSize res, typ, dir, ctx => do
    let ctx ← ctx.validateCommon target cells (.pointer id c addr vmaSize res) typ dir
    match target.types c.ref with
    | .vma _ => throw .vmaData
    | .ptr _ elem elemDir => do
      let ctx ← res.validate target cells elem elemDir ctx
      validatePointer target c addr vmaSize (res.size target cells)
      pure ctx
    | _ => throw (.badType c.ref)
  | .group id c inner, typ, dir, ctx => do
    let ctx ← ctx.validateCommon target cells (.group id c inner) typ dir
    match target.types c.ref with
    | .struct _ fields _ _ => do
      reject (inner.length ≠ fields.length) (.numberOfFields fields.length inner.length)
      validateList inner (fieldPlaces fields (expectedDir target typ dir)) ctx
    | .array _ elem kind rangeBegin rangeEnd => do
      reject (kind = .rangeLen ∧ rangeBegin = rangeEnd ∧ inner.length.toUInt64 ≠ rangeBegin)
        (.numberOfElems rangeBegin inner.length)
      validateList inner (List.replicate inner.length (elem, expectedDir target typ dir)) ctx
    | _ => throw (.badType c.ref)
  | .union id c option index transient, typ, dir, ctx => do
    let ctx ← ctx.validateCommon target cells (.union id c option index transient) typ dir
    match target.types c.ref with
    | .union _ fields =>
      match fields[index]? with
      | none => throw (.unionIndex index)
      | some opt =>
        option.validate target cells opt.type (opt.dir (expectedDir target typ dir)) ctx
    | _ => throw (.badType c.ref)
  | .result id, typ, dir, ctx => do
    let ctx ← ctx.validateCommon target cells (.result id) typ dir
    ctx.validateResult target cells id
where
  validateList : List Arg → List (Ref × Dir) → ValidCtx → Except Invalid ValidCtx
    | a :: as, place :: places, ctx => do
      let ctx ← a.validate target cells place.1 place.2 ctx
      validateList as places ctx
    | _, _, ctx => pure ctx

section Calls

variable (target : Target) (cells : Cells)

def Call.validateRet (c : Call) (ctx : ValidCtx) : Except Invalid ValidCtx :=
  match c.syscall.ret, c.ret with
  | none, none => pure ctx
  | none, some _ => throw .retWithoutType
  | some _, none => throw .retAbsent
  | some typ, some ret => do
    let arg := cells ret
    reject (arg.res ≠ none ∨ arg.val ≠ 0 ∨ arg.opDiv ≠ 0 ∨ arg.opAdd ≠ 0) .retNotEmpty
    (Arg.result ret).validate target cells typ .dirOut ctx

def Call.validateConditions (ignoreTransient : Bool) (c : Call) : Except Invalid Unit :=
  match c.checkConditions target cells ignoreTransient with
  | .error p => throw (.panic p)
  | .ok (some stale) => throw (.conditions stale)
  | .ok none => pure ()

/-- `validateCall`; the places of the arguments are those of the fields of the
system call, all of them in. -/
def Call.validate (ignoreTransient : Bool) (c : Call) (ctx : ValidCtx) :
    Except Invalid ValidCtx := do
  reject (c.syscall.disabled = true) .disabledCall
  reject (0 < c.props.rerun ∧ 0 < c.props.failNth) .rerunAndFailNth
  reject (c.args.length ≠ c.syscall.args.length)
    (.numberOfArgs c.syscall.args.length c.args.length)
  let ctx ← Arg.validate.validateList target cells c.args
    (c.syscall.args.map fun f => (f.type, .dirIn)) ctx
  c.validateConditions target cells ignoreTransient
  c.validateRet target cells ctx

/-- The calls from number `i` on. -/
def validateCalls (ignoreTransient : Bool) :
    Nat → List Call → ValidCtx → Except Invalid ValidCtx
  | _, [], ctx => pure ctx
  | i, c :: calls, ctx => do
    let ctx ← (c.validate target cells ignoreTransient ctx).mapError (.call i c.syscall.name)
    validateCalls ignoreTransient (i + 1) calls ctx

/-- `validateWithOpts`. -/
def Prog.validateWithOpts (ignoreTransient : Bool) (p : Prog) : Except Invalid Unit := do
  let ctx ← validateCalls target cells ignoreTransient 0 p.calls {}
  ctx.uses.forM fun (u, orig) => reject (u ∉ ctx.results) (.outOfTreeUse orig u)

def Prog.validate (p : Prog) : Except Invalid Unit := p.validateWithOpts target cells false

end Calls

end Sect.Program
