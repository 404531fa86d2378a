import SectProof.StructLayout

/-! # What struct layout is for

`StructType.Sound` says what a laid out struct promises its users: every
bitfield lies inside its storage unit, the bits of different fields of an
overlay part are disjoint and inside the struct, fields are aligned, and the
sizes add up.  The left-to-right walk of `layoutStructFields` is compared with
`FieldType.startBit`, which says where a field is expected, bit by bit.
-/

namespace Sect.Compiler

/-! ## Where the fields of a struct lie -/

/-- A field of a laid out struct, `offset` bytes into its overlay part. -/
structure Slot where
  field : FieldType
  offset : Nat
  size : Nat

namespace Slot

def unitStart (s : Slot) : Nat := s.offset - s.field.bitfieldUnitOff

def firstBit (s : Slot) : Nat :=
  if s.field.isBitfield then 8 * s.unitStart + s.field.bitfieldOff else 8 * s.offset

def endBit (s : Slot) : Nat :=
  s.firstBit + if s.field.isBitfield then s.field.bitfieldLen else 8 * s.size

def Occupies (s : Slot) (bit : Nat) : Prop := s.firstBit ≤ bit ∧ bit < s.endBit

end Slot

/-- The fields one after the other from `offset` on, with the sizes given. -/
def locate : Nat → List FieldType → List Nat → List Slot
  | offset, f :: fs, n :: ns => ⟨f, offset, n⟩ :: locate (offset + n) fs ns
  | _, _, _ => []

/-- Sizes of the fields in a value of the struct: a field of variable length has
any size. -/
def Extents (fields : List FieldType) (sizes : List Nat) : Prop :=
  List.Forall₂ (fun f n => f.varlen = false → n = f.typeSize) fields sizes

def sizes (fields : List FieldType) : Nat := (fields.map FieldType.typeSize).sum

/-- The slots with every field of variable length left empty. -/
def slots (fields : List FieldType) : List Slot := locate 0 fields (fields.map FieldType.typeSize)

def FieldType.InUnit (f : FieldType) : Prop :=
  f.isBitfield = true → f.bitfieldOff + f.bitfieldLen ≤ 8 * f.unitSize

namespace StructType

def varlen (t : StructType) : Bool := t.fields.any FieldType.varlen

/-- The fields before the overlay; none if the struct has no overlay. -/
def firstPart (t : StructType) : List FieldType := t.fields.take t.overlayField

def overlayPart (t : StructType) : List FieldType := t.fields.drop t.overlayField

def parts (t : StructType) : List (List FieldType) := [t.firstPart, t.overlayPart]

/-- What layout promises.  In a struct that is not packed only the last field may
have variable length, so `slots` has the real offsets of its fields. -/
structure Sound (t : StructType) : Prop where
  inUnit : ∀ f ∈ t.fields, f.InUnit
  unitInside : ∀ part ∈ t.parts, ∀ s ∈ slots part, s.field.bitfieldUnitOff ≤ s.offset
  apart : ∀ part ∈ t.parts, ∀ ns, Extents part ns →
    (locate 0 part ns).Pairwise fun a b => ∀ bit, ¬ (a.Occupies bit ∧ b.Occupies bit)
  inside : ∀ part ∈ t.parts, ∀ ns, Extents part ns →
    ∀ s ∈ locate 0 part ns, s.endBit ≤ 8 * ns.sum
  fits : t.varlen = false → ∀ part ∈ t.parts, sizes part ≤ t.typeSize
  aligned : t.packed = false → ∀ part ∈ t.parts, ∀ s ∈ slots part,
    s.field.isPad = false → s.field.align ∣ s.unitStart
  total : t.varlen = false → t.typeSize = max (sizes t.firstPart) (sizes t.overlayPart)

end StructType

/-! ## Where a field is expected -/

/-- `n` rounded up to a multiple of `a`. -/
def ceilTo (n a : Nat) : Nat := (n + a - 1) / a * a

namespace FieldType

def unitAlign (packed : Bool) (f : FieldType) : Nat := if packed then 1 else f.unitSize

def fieldAlign (packed : Bool) (f : FieldType) : Nat := if packed then 1 else f.align

/-- A bitfield whose turn comes at bit `p` fits into the unit that covers `p`. -/
def FitsAt (packed : Bool) (p : Nat) (f : FieldType) : Prop :=
  p % (8 * f.unitAlign packed) + f.bitfieldLen ≤ 8 * f.unitSize

instance (packed : Bool) (p : Nat) (f : FieldType) : Decidable (f.FitsAt packed p) :=
  inferInstanceAs (Decidable (_ ≤ _))

/-- The first bit of a field whose turn comes at bit `p` of its part. -/
def startBit (packed : Bool) (p : Nat) (f : FieldType) : Nat :=
  if f.isBitfield then
    if f.FitsAt packed p then p else ceilTo p (8 * f.unitAlign packed)
  else ceilTo p (8 * f.fieldAlign packed)

def nextBit (packed : Bool) (p : Nat) (f : FieldType) : Nat :=
  f.startBit packed p +
    if f.isBitfield then f.bitfieldLen else if f.varlen then 0 else 8 * f.typeSize

/-- A bitfield that does not fit into the current unit is moved to a multiple of
its own unit.  Only packing can violate this. -/
def WrapsAligned (packed : Bool) (p : Nat) (f : FieldType) : Prop :=
  f.isBitfield = true → ¬ f.FitsAt packed p → 8 * f.unitSize ∣ f.startBit packed p

end FieldType

/-- The bit at which the turn of the next field comes. -/
def sweep (packed : Bool) (fields : List FieldType) : Nat :=
  fields.foldl (FieldType.nextBit packed) 0

/-- Every bitfield of the part that is moved is moved to a multiple of its unit. -/
def WrapAligned (packed : Bool) (part : List FieldType) : Prop :=
  ∀ before f after, part = before ++ f :: after → f.WrapsAligned packed (sweep packed before)

namespace StructType

/-- The alignment of a part: the attribute, or the largest alignment of its
fields. -/
def partAlign (t : StructType) (part : List FieldType) : Nat :=
  if t.alignAttr ≠ 0 then t.alignAttr
  else if t.packed then 0 else part.foldl (fun a f => max a f.align) 0

/-- The size of a part on its own, with trailing padding. -/
def partSize (t : StructType) (part : List FieldType) : Nat :=
  let bytes := (sweep t.packed part + 7) / 8
  if t.partAlign part = 0 then bytes else ceilTo bytes (t.partAlign part)

/-- Moved bitfields land on multiples of their unit, in both parts. -/
def BitfieldsWrapAligned (t : StructType) : Prop :=
  WrapAligned t.packed t.firstPart ∧ WrapAligned t.packed t.overlayPart

/-- A `size` attribute that asks for padding finds the overlay at least as large
as the fields before it. -/
def SizeFillsOverlay (t : StructType) : Prop :=
  ∀ size, t.sizeAttr = some size →
    t.partSize t.firstPart ≤ t.partSize t.overlayPart ∨ t.partSize t.firstPart = size

end StructType

/-- What the checks of the compiler say about a field of a struct. -/
structure FieldType.Checked (f : FieldType) : Prop where
  align : ∃ k, f.align = 2 ^ k
  unit : f.isBitfield = true → f.bitfieldUnit ∈ [1, 2, 4, 8]
  len : f.bitfieldLen ≤ 8 * f.bitfieldUnit
  unitAlign : f.isBitfield = true → f.align ∣ f.bitfieldUnit
  unplaced : f.isBitfield = true → f.typeSize = 0 ∧ f.varlen = false
  unitOff : f.bitfieldUnitOff = 0
  varlen : f.varlen = true → f.typeSize = 0

/-- A struct that passed the checks of the compiler before layout. -/
structure StructType.Checked (t : StructType) : Prop where
  fields : ∀ f ∈ t.fields, f.Checked
  overlay : t.overlayField < t.fields.length
  alignAttr : t.alignAttr = 0 ∨ ∃ k, t.alignAttr = 2 ^ k
  sizeAttr : t.varlen = true → t.sizeAttr = none
  varlenLast : t.packed = false → ∀ f ∈ t.fields.dropLast, f.varlen = false

end Sect.Compiler
