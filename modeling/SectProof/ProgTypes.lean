import Mathlib

/-! # The types of system call arguments

`prog.Type` and what hangs on it.  A type is known by its `Ref`, the index in the
table of all types, so that two types are the same object exactly if their
references agree; types refer to each other by reference.
-/

namespace Sect.Program

abbrev Ref := Nat

/-- The ways in which the package panics. -/
inductive Panic
  | brokenTree
  | nilReference
  | replaceItself
  | groupFields (old new : Nat)
  | badArgKind
  | badIndex (idx : Nat)
  | badCast
  | unknownField (elem : String)
  | noArgument (path : List String)
  | notInt
  | noMatchingFields
  deriving DecidableEq, Repr

inductive Dir
  | dirIn
  | dirOut
  | dirInOut
  deriving DecidableEq, Repr

inductive BinaryFormat
  | native
  | bigEndian
  | strDec
  | strHex
  | strOct
  deriving DecidableEq, Repr

inductive BinaryOperator
  | compareEq
  | compareNeq
  | binaryAnd
  deriving DecidableEq, Repr

/-- The condition of a field: a comparison of constants and of other fields. -/
inductive Expression
  | binary (op : BinaryOperator) (left right : Expression)
  | value (value : UInt64) (path : List String)
  deriving DecidableEq, Repr

/-- A field of a struct, a union or a system call; `direction` is `none` if the
field has no direction of its own. -/
structure Field where
  name : String
  type : Ref
  direction : Option Dir := none
  condition : Option Expression := none
  deriving DecidableEq, Repr

def Field.dir (f : Field) (default : Dir) : Dir := f.direction.getD default

structure TypeCommon where
  typeName : String
  typeSize : UInt64
  isOptional : Bool := false
  isVarlen : Bool := false
  deriving DecidableEq, Repr

structure IntTypeCommon extends TypeCommon where
  argFormat : BinaryFormat := .native
  bitfieldOff : UInt64 := 0
  bitfieldLen : UInt64 := 0
  bitfieldUnit : UInt64 := 0
  bitfieldUnitOff : UInt64 := 0
  deriving DecidableEq, Repr

inductive BufferKind
  | blobRand
  | blobRange
  | string
  | filename
  | text
  | glob
  | compressed
  deriving DecidableEq, Repr

inductive ArrayKind
  | randLen
  | rangeLen
  deriving DecidableEq, Repr

/-- `prog.Type`; `default` of a resource is the first of its special values. -/
inductive Ty
  | resource (common : TypeCommon) (argFormat : BinaryFormat) (default : UInt64)
  | const (common : IntTypeCommon) (val : UInt64) (isPad : Bool)
  | int (common : IntTypeCommon)
  | flags (common : IntTypeCommon)
  | len (common : IntTypeCommon)
  | proc (common : IntTypeCommon) (valuesStart valuesPerProc : UInt64)
  | csum (common : IntTypeCommon)
  | vma (common : TypeCommon)
  | buffer (common : TypeCommon) (kind : BufferKind)
  | array (common : TypeCommon) (elem : Ref) (kind : ArrayKind) (rangeBegin rangeEnd : UInt64)
  | ptr (common : TypeCommon) (elem : Ref) (elemDir : Dir)
  | struct (common : TypeCommon) (fields : List Field) (alignAttr : UInt64)
    (overlayField : Nat)
  | union (common : TypeCommon) (fields : List Field)
  deriving DecidableEq, Repr

namespace Ty

def common : Ty → TypeCommon
  | resource c _ _ | vma c | buffer c _ | array c _ _ _ _ | ptr c _ _ | struct c _ _ _
  | union c _ => c
  | const c _ _ | int c | flags c | len c | proc c _ _ | csum c => c.toTypeCommon

/-- The static size; the source panics if it is asked for the size of a type of
variable length, and never asks. -/
def size (t : Ty) : UInt64 := t.common.typeSize

def varlen (t : Ty) : Bool := t.common.isVarlen

/-- The name of a template struct without its arguments. -/
def templateName (t : Ty) : String := (t.common.typeName.takeWhile (· ≠ '[')).toString

def isPtr : Ty → Bool
  | ptr .. => true
  | _ => false

def isStruct : Ty → Bool
  | struct .. => true
  | _ => false

end Ty

/-- The special value of a `proc` argument that stands for 0 in all processes. -/
def procDefaultValue : UInt64 := 0xffffffffffffffff

/-- The value of the `DefaultArg` of a scalar type. -/
def Ty.defaultVal : Ty → UInt64
  | .const _ val _ => val
  | .proc .. => procDefaultValue
  | .resource _ _ default => default
  | _ => 0

structure Syscall where
  id : Nat
  name : String
  args : List Field
  ret : Option Ref
  disabled : Bool := false
  deriving DecidableEq, Repr

/-- The types with which squashed arguments are built. -/
structure AnyTypes where
  ptrPtr : Ref
  ptr64 : Ref
  array : Ref

/-- A target.  `escapingFilename` is the test of the same name on the bytes of a
file name, which rests on the path functions of the standard library. -/
structure Target where
  types : Ref → Ty
  any : AnyTypes
  pageSize : UInt64
  numPages : UInt64
  specialPointers : List UInt64
  escapingFilename : List UInt8 → Bool

def maxSpecialPointers : UInt64 := 16

def Target.isAnyPtr (target : Target) (ref : Ref) : Bool :=
  match target.types ref with
  | .ptr _ elem _ => elem == target.any.array
  | _ => false

end Sect.Program
