import SectProof.KeyedTable

/-! # Types of descriptions

The types of a description as the parser leaves them, and what the compiler knows of
the builtin ones: which of their arguments are types again, and whether a base type
comes after the arguments. -/

namespace Sect.Descriptions

/-- `ast.Type`: an identifier, an integer (its identifier is empty) or a string, with
what comes after a colon and the arguments in brackets. -/
inductive AstType
  | mk (ident : String) (value : Nat) (string : Option String) (colon : List (String × Nat))
    (args : List AstType)

namespace AstType

def ident : AstType → String
  | mk ident _ _ _ _ => ident

def value : AstType → Nat
  | mk _ value _ _ _ => value

def string : AstType → Option String
  | mk _ _ string _ _ => string

def colon : AstType → List (String × Nat)
  | mk _ _ _ colon _ => colon

def args : AstType → List AstType
  | mk _ _ _ _ args => args

end AstType

/-- A type that is only an identifier. -/
def AstType.named (ident : String) (args : List AstType) : AstType := .mk ident 0 none [] args

/-- A literal integer. -/
def AstType.int (value : Nat) : AstType := .mk "" value none [] []

/-! ## Builtin types -/

/-- An argument of a type: whether it is a type again, and if so whether it is used
like the argument of a system call, without base type. -/
structure ArgDesc where
  isType : Bool
  isArg : Bool
  deriving DecidableEq, Repr

inductive Builtin
  | int | ptr | void | array | len | const | flags | vma | csum | proc | text | string | fmt
  | compressedImage
  deriving DecidableEq, Repr

def builtinTypes (name : String) : Option Builtin :=
  if name ∈ ["int8", "int16", "int32", "int64", "int16be", "int32be", "int64be", "intptr"] then
    some .int
  else if name ∈ ["ptr", "ptr64"] then some .ptr
  else if name = "void" then some .void
  else if name = "array" then some .array
  else if name ∈ ["len", "bytesize", "bytesize2", "bytesize4", "bytesize8", "bitsize",
      "offsetof"] then some .len
  else if name = "const" then some .const
  else if name = "flags" then some .flags
  else if name ∈ ["vma", "vma64"] then some .vma
  else if name = "csum" then some .csum
  else if name = "proc" then some .proc
  else if name = "text" then some .text
  else if name ∈ ["string", "glob", "stringnoz"] then some .string
  else if name = "fmt" then some .fmt
  else if name = "compressed_image" then some .compressedImage
  else none

namespace Builtin

/-- An argument that is no type. -/
def plain : ArgDesc := ⟨false, false⟩

def args : Builtin → List ArgDesc
  | int => [plain, plain]
  | ptr => [plain, ⟨true, false⟩]
  | void => []
  | array => [⟨true, false⟩, plain]
  | len => [plain]
  | const => [plain]
  | flags => [plain]
  | vma => [plain]
  | csum => [plain, plain, plain]
  | proc => [plain, plain]
  | text => [plain]
  | string => [plain, plain]
  | fmt => [plain, ⟨true, true⟩]
  | compressedImage => []

/-- The number of arguments that can be left out at the end. -/
def optArgs : Builtin → Nat
  | int => 2
  | array => 1
  | vma => 1
  | csum => 1
  | string => 2
  | ptr | void | len | const | flags | proc | text | fmt | compressedImage => 0

/-- The type needs a base type when it is used as a field. -/
def needBase : Builtin → Bool
  | len | const | flags | csum | proc => true
  | int | ptr | void | array | vma | text | string | fmt | compressedImage => false

/-- The arguments of a type with a base type are no types. -/
theorem not_isType_of_needBase {b : Builtin} (h : b.needBase = true) :
    ∀ arg ∈ b.args, arg.isType = false := by
  cases b with
  | len | const | flags | csum | proc => decide
  | int | ptr | void | array | vma | text | string | fmt | compressedImage => cases h

end Builtin

/-- The last argument marks the type as optional. -/
def isOpt (args : List AstType) : Bool :=
  match args.getLast? with
  | some last => last.ident = "opt"
  | none => false

/-- The arguments without the mark. -/
def removeOpt (args : List AstType) : List AstType :=
  if isOpt args then args.dropLast else args

end Sect.Descriptions
