import Mathlib

/-! # Hint replacers

`shrinkExpand` looks for comparisons of a value, cast to narrower and wider integers of
both byte orders, and puts the other operand in its place.  **The values returned are
sorted, fit in the bit size and come from an operand compared with such a cast.** -/

namespace Sect.Hints

abbrev Word := BitVec 64

/-- The operands that a value was compared with, in some order. -/
abbrev CompMap := Word → List Word

/-- `1 << bits - 1` -/
def mask (bits : Nat) : Word := (1 : Word) <<< bits - 1

/-- `specialIntsSet` -/
def specialInts : List Word :=
  ([0, 1, 31, 32, 63, 64, 127, 128, 129, 255, 256, 257, 511, 512, 1023, 1024, 1025, 2047, 2048,
    4095, 4096] : List Word) ++
      ([15, 16, 31, 32, 63].flatMap fun n => [mask n, mask n + 1, mask n + 2]) ++ [mask 64]

/-- The bytes of a number of `size` bytes in the other order. -/
def swapBytes (v : Word) (size : Nat) : Word :=
  (List.range size).foldl
    (fun res i => res ||| ((v >>> (8 * i)) &&& 255) <<< (8 * (size - 1 - i))) 0

def swapInt (v : Word) (size : Nat) : Word := if size = 1 then v else swapBytes v size

def swapIf (swapped : Bool) (v : Word) (size : Nat) : Word := if swapped then swapInt v size else v

def truncateToBitSize (v : Word) (bitSize : Nat) : Option Word :=
  if bitSize = 0 ∨ bitSize > 64 then none else some (v &&& mask bitSize)

/-- A cast of the value: to `width` bytes, of which `size` bits are looked at. -/
structure Cast where
  width : Nat
  size : Nat
  mutant : Word

/-- Of images only long integers are used, and not those that are all zeros or all ones. -/
def keepCast (image : Bool) (c : Cast) : Option Cast :=
  if image ∧ (c.width < 4 ∨ c.mutant = 0 ∨ c.mutant ||| ~~~ mask c.size = mask 64) then none
  else some c

/-- The cast for a width; a negative one stands for sign extension. -/
def castTo (v : Word) (bitsize : Nat) (image : Bool) (iwidth : Int) : Option Cast :=
  let width := iwidth.natAbs
  if iwidth > 0 then keepCast image ⟨width, 8 * width, v &&& mask (8 * width)⟩
  else
    let size := min (8 * width) bitsize
    if v &&& (1 : Word) <<< (size - 1) = 0 then none
    else keepCast image ⟨width, size, v ||| ~~~ mask size⟩

/-- What the operand `newV` gives for a cast. -/
def replacer (v : Word) (bitsize : Nat) (image : Bool) (c : Cast) (bigendian : Bool)
    (newV : Word) : Option Word :=
  let limit := mask bitsize
  if newV > limit ∧ ~~~ (limit >>> 1) &&& newV ≠ ~~~ (limit >>> 1) then none
  else
    let newHi := newV &&& ~~~ mask c.size
    let newV := newV &&& mask c.size
    if newHi ≠ 0 ∧ newHi ^^^ ~~~ mask c.size ≠ 0 then none
    else
      let newV := swapIf bigendian newV c.width
      if ¬ image ∧ newV ∈ specialInts then none
      else
        let replacer := (v &&& ~~~ mask c.size) ||| newV
        if replacer = v then none else truncateToBitSize replacer bitsize

/-- All values found, in the order of the loops. -/
def replacers (v : Word) (compMap : CompMap) (bitsize : Nat) (image : Bool) : List Word :=
  [8, 4, 2, 1, -4, -2, -1].flatMap fun iwidth =>
    (castTo v bitsize image iwidth).toList.flatMap fun c =>
      [false, true].flatMap fun bigendian =>
        if bigendian = true ∧ c.width = 1 then []
        else
          (compMap (swapIf bigendian c.mutant c.width)).filterMap
            (replacer v bitsize image c bigendian)

/-- `none` stands for a panic. -/
def shrinkExpand (v : Word) (compMap : CompMap) (bitsize : Nat) (image : Bool) :
    Option (List Word) :=
  (truncateToBitSize v bitsize).map fun v =>
    (replacers v compMap bitsize image).dedup.insertionSort fun a b => a.toNat ≤ b.toNat

/-! ## What a replacer is -/

/-- The bits that a cast to `width` bytes looks at. -/
def castSize (bitsize width : Nat) (signed : Bool) : Nat :=
  if signed then min (8 * width) bitsize else 8 * width

/-- `v` cast to `width` bytes, sign extended or not, of one byte order or the other. -/
def castOf (v : Word) (bitsize width : Nat) (signed swapped : Bool) : Word :=
  let low := mask (castSize bitsize width signed)
  swapIf swapped (if signed then v ||| ~~~ low else v &&& low) width

/-- `v` with these low bits replaced by those of `operand`. -/
def replaceLow (v : Word) (bitsize width : Nat) (signed swapped : Bool) (operand : Word) : Word :=
  let low := mask (castSize bitsize width signed)
  (v &&& ~~~ low) ||| swapIf swapped (operand &&& low) width

theorem toNat_mask {bits : Nat} (h : bits ≤ 64) : (mask bits).toNat = 2 ^ bits - 1 := by
  have hpos : 0 < 2 ^ bits := Nat.two_pow_pos bits
  have hone : (1 : Word).toNat = 1 := rfl
  rw [mask, BitVec.toNat_sub, BitVec.toNat_shiftLeft, hone, Nat.one_shiftLeft]
  rcases Nat.lt_or_eq_of_le h with hlt | rfl
  · have hlt : 2 ^ bits < 2 ^ 64 := Nat.pow_lt_pow_right (by decide) hlt
    omega
  · rfl

theorem truncateToBitSize_eq {v : Word} {bitsize : Nat} (h : 1 ≤ bitsize) (h' : bitsize ≤ 64) :
    truncateToBitSize v bitsize = some (v &&& mask bitsize) := if_neg (by omega)

theorem toNat_and_mask_lt (v : Word) {bits : Nat} (h : bits ≤ 64) :
    (v &&& mask bits).toNat < 2 ^ bits := by
  rw [BitVec.toNat_and, toNat_mask h, Nat.and_two_pow_sub_one_eq_mod]
  exact Nat.mod_lt _ (Nat.two_pow_pos bits)

section Replacers
variable {v r : Word} {compMap : CompMap} {bitsize : Nat} {image : Bool}

theorem castTo_eq_some {iwidth : Int} {c : Cast} (h : castTo v bitsize image iwidth = some c) :
    c.width = iwidth.natAbs ∧ ∃ signed, c.size = castSize bitsize c.width signed ∧
      c.mutant = castOf v bitsize c.width signed false := by
  have hkept : ∀ {c' : Cast}, keepCast image c' = some c → c' = c := by
    intro c' h
    rw [keepCast] at h
    split at h
    · cases h
    · exact Option.some.inj h
  rw [castTo] at h
  split at h
  · obtain rfl := hkept h
    exact ⟨rfl, false, rfl, rfl⟩
  · dsimp only at h
    split at h
    · cases h
    · obtain rfl := hkept h
      exact ⟨rfl, true, rfl, rfl⟩

/-- The filters leave operands that change the value. -/
theorem replacer_eq_some {c : Cast} {bigendian : Bool} {newV : Word}
    (h : replacer v bitsize image c bigendian newV = some r) :
    ∃ new, new = (v &&& ~~~ mask c.size) ||| swapIf bigendian (newV &&& mask c.size) c.width ∧
      new ≠ v ∧ truncateToBitSize new bitsize = some r := by
  rw [replacer] at h
  dsimp only at h
  split at h
  · cases h
  split at h
  · cases h
  · split at h
    · cases h
    · split at h
      · cases h
      · next hne => exact ⟨_, rfl, hne, h⟩

theorem mem_replacers (h : r ∈ replacers v compMap bitsize image) :
    ∃ width ∈ [1, 2, 4, 8], ∃ signed swapped,
      ∃ operand ∈ compMap (castOf v bitsize width signed swapped),
        replaceLow v bitsize width signed swapped operand ≠ v ∧
        truncateToBitSize (replaceLow v bitsize width signed swapped operand) bitsize = some r := by
  obtain ⟨iwidth, hiwidth, h⟩ := List.mem_flatMap.mp h
  obtain ⟨c, hc, h⟩ := List.mem_flatMap.mp h
  obtain ⟨bigendian, -, h⟩ := List.mem_flatMap.mp h
  split at h
  · cases h
  obtain ⟨operand, hoperand, hr⟩ := List.mem_filterMap.mp h
  obtain ⟨new, rfl, hne, htrunc⟩ := replacer_eq_some hr
  obtain ⟨hwidth, signed, hsize, hmutant⟩ := castTo_eq_some (Option.mem_toList.mp hc)
  rw [hsize] at hne htrunc
  rw [hmutant] at hoperand
  refine ⟨c.width, ?_, signed, bigendian, operand, hoperand, hne, htrunc⟩
  rw [hwidth]
  simp only [List.mem_cons, List.not_mem_nil, or_false] at hiwidth
  rcases hiwidth with rfl | rfl | rfl | rfl | rfl | rfl | rfl <;> decide

end Replacers

end Sect.Hints
