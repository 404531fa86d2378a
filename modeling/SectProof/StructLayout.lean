import Mathlib

/-! # Struct layout in the description compiler

`layoutStructFields` walks over the fields of a struct with a byte and a bit
offset, inserts padding, and tells each bitfield at which bit of its storage
unit it starts (`bitfieldOff`) and how far before the field's own position that
unit begins (`bitfieldUnitOff`).  `layoutStruct` then computes the size of the
struct.  Sizes and offsets are unbounded; the one subtraction that wraps around
in a struct of any size is `sub64`.
-/

namespace Sect.Compiler

/-- The properties of a field's type that layout reads and writes. -/
structure FieldType where
  typeSize : Nat
  align : Nat
  varlen : Bool := false
  bitfieldLen : Nat := 0
  bitfieldUnit : Nat := 0
  bitfieldOff : Nat := 0
  bitfieldUnitOff : Nat := 0
  isPad : Bool := false
  deriving DecidableEq, Repr

namespace FieldType

def isBitfield (f : FieldType) : Bool := f.bitfieldLen != 0

def unitSize (f : FieldType) : Nat := if f.isBitfield then f.bitfieldUnit else f.typeSize

end FieldType

/-- A struct after type generation.  `overlayField` is 0 if no field has the
`out_overlay` attribute, `alignAttr` is 0 if the struct has no `align`. -/
structure StructType where
  fields : List FieldType
  overlayField : Nat := 0
  packed : Bool := false
  alignAttr : Nat := 0
  sizeAttr : Option Nat := none
  typeSize : Nat := 0
  deriving DecidableEq, Repr

inductive LayoutError
  | rounddown (a : Nat)
  | badBitOffset (pad bitOffset : Nat)
  | sizeAttr (size structSize : Nat)
  deriving DecidableEq, Repr

/-- Clears the low bits of `v`; panics unless `a` is a power of two. -/
def rounddown (v a : Nat) : Except LayoutError Nat :=
  if a &&& (a - 1) ≠ 0 then throw (.rounddown a) else pure (v / a * a)

def roundup (v a : Nat) : Except LayoutError Nat := rounddown (v + a - 1) a

/-- Subtraction of unsigned 64-bit integers. -/
def sub64 (a b : Nat) : Nat := (a + (2 ^ 64 - b % 2 ^ 64)) % 2 ^ 64

def genPad (size : Nat) : FieldType := { typeSize := size, align := 0, isPad := true }

/-- `setBitfieldTypeSize` on the last of the fields. -/
def setLastTypeSize (v : Nat) : List FieldType → List FieldType
  | [] => []
  | [f] => [{ f with typeSize := v }]
  | f :: g :: fs => f :: setLastTypeSize v (g :: fs)

/-- `pad` bytes after the fields: given to the bitfield that ends there, or to a
padding field of their own. -/
def addPad (lastIsBitfield : Bool) (pad : Nat) (fields : List FieldType) : List FieldType :=
  if lastIsBitfield then setLastTypeSize pad fields else fields ++ [genPad pad]

/-- The first half of `finalizeStructFields`: the bytes of the bits left over. -/
def finalizeBits (fields : List FieldType) (byteOffset bitOffset : Nat) :
    Except LayoutError (List FieldType × Nat) := do
  if bitOffset ≠ 0 then
    let pad := (← roundup bitOffset 8) / 8
    pure (addPad (fields.getLast?.any FieldType.isBitfield) pad fields, byteOffset + pad)
  else pure (fields, byteOffset)

/-- Trailing padding of a struct or of one of its overlay parts. -/
def finalizeStructFields (t : StructType) (fields : List FieldType) (varlen : Bool)
    (structAlign byteOffset bitOffset : Nat) : Except LayoutError (List FieldType) := do
  let (fields, byteOffset) ← finalizeBits fields byteOffset bitOffset
  let structAlign := if t.alignAttr ≠ 0 then t.alignAttr else structAlign
  if !varlen ∧ structAlign ≠ 0 ∧ byteOffset % structAlign ≠ 0 then
    pure (fields ++ [genPad (structAlign - byteOffset % structAlign)])
  else pure fields

/-- The variables of the loop of `layoutStructFields`; `prevBitfield` says
whether the field of the previous iteration is a bitfield. -/
structure Cursor where
  newFields : List FieldType := []
  overlayField : Nat
  structAlign : Nat := 0
  byteOffset : Nat := 0
  bitOffset : Nat := 0
  prevBitfield : Bool := false

/-- Where a field goes: `fieldOffset`, the new `bitOffset` and, for a bitfield,
the bit of its unit. -/
structure Spot where
  fieldOffset : Nat
  bitOffset : Nat
  fieldBitOffset : Nat := 0

def placeBitfield (packed : Bool) (fullBitOffset bitOffset : Nat) (f : FieldType) :
    Except LayoutError Spot := do
  let unitAlign := if packed then 1 else f.unitSize
  let fieldOffset ← rounddown (fullBitOffset / 8) unitAlign
  let unitBits := f.unitSize * 8
  let occupiedBits := fullBitOffset - fieldOffset * 8
  let remainBits := unitBits - occupiedBits
  if remainBits < f.bitfieldLen then do
    let fieldOffset ← roundup ((← roundup fullBitOffset 8) / 8) unitAlign
    pure ⟨fieldOffset, 0, sub64 0 (fieldOffset * 8) % unitBits⟩
  else if fieldOffset * 8 ≥ fullBitOffset then
    pure ⟨fieldOffset, 0, sub64 (fieldOffset * 8) (fieldOffset * 8) % unitBits⟩
  else
    pure ⟨fieldOffset, bitOffset, sub64 fullBitOffset (fieldOffset * 8) % unitBits⟩

def placePlain (fieldAlign fullBitOffset : Nat) : Except LayoutError Spot := do
  let fieldOffset ← roundup ((← roundup fullBitOffset 8) / 8) fieldAlign
  pure ⟨fieldOffset, 0, 0⟩

def place (packed : Bool) (fullBitOffset bitOffset : Nat) (f : FieldType) :
    Except LayoutError Spot :=
  if f.isBitfield then placeBitfield packed fullBitOffset bitOffset f
  else placePlain (if packed then 1 else f.align) fullBitOffset

/-- Padding up to the place of the field.  The bitfield before it is the last of
`newFields`, since the first field of an overlay needs no padding. -/
def Cursor.fill (c : Cursor) (fieldOffset : Nat) : Except LayoutError Cursor :=
  if fieldOffset > c.byteOffset then
    let pad := fieldOffset - c.byteOffset
    let filled := { c with
      byteOffset := c.byteOffset + pad, newFields := addPad c.prevBitfield pad c.newFields }
    if c.prevBitfield then
      -- the padding is due to bitfields, so it consumes the bit offset
      if c.bitOffset ≥ 8 * pad then pure { filled with bitOffset := c.bitOffset - 8 * pad }
      else if c.bitOffset ≥ 8 then throw (.badBitOffset pad c.bitOffset)
      else pure filled
    else pure filled
  else pure c

/-- Appends the field and moves past it. -/
def Cursor.append (c : Cursor) (spot : Spot) (f : FieldType) : Cursor :=
  if f.isBitfield then
    { c with
      newFields := c.newFields ++ [{ f with
        bitfieldOff := spot.fieldBitOffset
        bitfieldUnitOff :=
          if c.byteOffset > spot.fieldOffset then c.byteOffset - spot.fieldOffset
          else f.bitfieldUnitOff }]
      bitOffset := c.bitOffset + f.bitfieldLen, prevBitfield := true }
  else
    { c with
      newFields := c.newFields ++ [f]
      byteOffset := if f.varlen then c.byteOffset else c.byteOffset + f.typeSize
      prevBitfield := false }

/-- One iteration of the loop, after the start of an overlay has been handled. -/
def Cursor.layoutField (packed : Bool) (c : Cursor) (f : FieldType) :
    Except LayoutError Cursor := do
  let structAlign := if packed then c.structAlign else max c.structAlign f.align
  let spot ← place packed (c.byteOffset * 8 + c.bitOffset) c.bitOffset f
  let filled ← { c with structAlign, bitOffset := spot.bitOffset }.fill spot.fieldOffset
  pure (filled.append spot f)

/-- The overlay fields are laid out as an independent struct. -/
def Cursor.startOverlay (t : StructType) (varlen : Bool) (c : Cursor) :
    Except LayoutError Cursor := do
  let newFields ← finalizeStructFields t c.newFields varlen c.structAlign c.byteOffset c.bitOffset
  pure { c with
    newFields, overlayField := newFields.length, structAlign := 0, byteOffset := 0, bitOffset := 0 }

def layoutLoop (t : StructType) (varlen : Bool) :
    Nat → List FieldType → Cursor → Except LayoutError Cursor
  | _, [], c => pure c
  | i, f :: fs, c => do
    let c ← if i = t.overlayField then c.startOverlay t varlen else pure c
    layoutLoop t varlen (i + 1) fs (← c.layoutField t.packed f)

def layoutStructFields (t : StructType) (varlen : Bool) : Except LayoutError StructType := do
  let c ← layoutLoop t varlen 0 t.fields { overlayField := t.overlayField }
  let fields ← finalizeStructFields t c.newFields varlen c.structAlign c.byteOffset c.bitOffset
  pure { t with fields, overlayField := c.overlayField }

/-- The size loop of `layoutStruct`: the largest running size, which restarts at
the overlay. -/
def sizeLoop (overlayField : Nat) : Nat → List FieldType → Nat → Nat → Nat
  | _, [], _, typeSize => typeSize
  | i, f :: fs, size, typeSize =>
    let size := (if i = overlayField then 0 else size) + f.typeSize
    sizeLoop overlayField (i + 1) fs size (max typeSize size)

/-- The part of `layoutStruct` for structs of fixed size. -/
def assignSize (t : StructType) : Except LayoutError StructType :=
  let size := sizeLoop t.overlayField 0 t.fields 0 0
  match t.sizeAttr with
  | none => pure { t with typeSize := size }
  | some sizeAttr =>
    if size > sizeAttr then throw (.sizeAttr sizeAttr size)
    else
      let pad := sizeAttr - size
      pure { t with
        fields := if pad ≠ 0 then t.fields ++ [genPad pad] else t.fields, typeSize := sizeAttr }

def layoutStruct (t : StructType) : Except LayoutError StructType := do
  let varlen := t.fields.any FieldType.varlen
  let t ← layoutStructFields t varlen
  if varlen then pure { t with typeSize := 0 } else assignSize t

end Sect.Compiler
