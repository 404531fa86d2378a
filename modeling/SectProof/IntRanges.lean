import Mathlib

/-! # Integer ranges of descriptions

A description can give an integer a range and an alignment, `intN[begin:end, align]`,
where `N` is the size of the base type or of a bitfield.  The compiler checks the range
in 64-bit arithmetic, in which a negative number is a large one; the fuzzer generates
and mutates values of the range in the same arithmetic. -/

open BitVec Nat

namespace Sect.IntRanges

abbrev U64 := BitVec 64

/-! ## The checks of the compiler -/

/-- A range as written; `size` is the number of bits of the base type or bitfield. -/
structure IntRange where
  size : Nat
  rangeBegin : U64
  rangeEnd : U64
  align : Option U64
  deriving DecidableEq, Repr

inductive RangeError
  | badIntAlignment
  | badIntRange
  | tooLargeForBase
  | alignmentTooLarge
  deriving DecidableEq, Repr

def maxUInt (size : Nat) : U64 := (1#64 <<< size) - 1#64

def maxSInt (size : Nat) : U64 := (1#64 <<< (size - 1)) - 1#64

/-- `intN[0:-1, align]` is a special value for all possible values, but aligned. -/
def IntRange.all (t : IntRange) : Bool :=
  t.align.isSome && (t.rangeBegin = 0#64 && t.rangeEnd.toInt = -1)

/-- The end of the range that is checked. -/
def IntRange.lastValue (t : IntRange) : U64 := if t.all then maxUInt t.size else t.rangeEnd

/-- The range fits into the size if treated as unsigned. -/
def IntRange.inUnsignedBase (t : IntRange) : Bool :=
  t.rangeBegin ≤ maxUInt t.size && t.lastValue ≤ maxUInt t.size

/-- The range fits into the size if treated as signed. -/
def IntRange.inSignedBase (t : IntRange) : Bool :=
  t.rangeBegin + maxSInt t.size ≤ maxUInt t.size && t.lastValue + maxSInt t.size ≤ maxUInt t.size

/-- `CheckConsts` of `typeInt`. -/
def IntRange.checkConsts (t : IntRange) : Option RangeError :=
  if !t.all && t.rangeEnd - t.rangeBegin > 0xFFFFFFFF00000000#64 then some .badIntRange
  else if t.size < 64 && !t.inUnsignedBase && !t.inSignedBase then some .tooLargeForBase
  else match t.align with
    | none => none
    | some align =>
      if align ≠ 0#64 && (t.lastValue - t.rangeBegin) / align = 0#64 then some .alignmentTooLarge
      else none

/-- `CheckConsts` of `typeArgIntAlign`. -/
def IntRange.checkAlign (t : IntRange) : Option RangeError :=
  match t.align with
  | none => none
  | some align => if align ≤ 1#64 then some .badIntAlignment else none

/-- A range that the compiler accepts. -/
structure IntRange.Accepted (t : IntRange) : Prop where
  size_pos : 1 ≤ t.size
  size_le : t.size ≤ 64
  consts : t.checkConsts = none
  align : t.checkAlign = none

/-! ## Generation and mutation -/

/-- The generated type; the alignment is 0 if there is none. -/
structure IntType where
  bitSize : Nat
  rangeBegin : U64
  rangeEnd : U64
  align : U64
  deriving DecidableEq, Repr

def IntRange.gen (t : IntRange) : IntType :=
  ⟨t.size, t.rangeBegin, t.rangeEnd, t.align.getD 0#64⟩

inductive Fault
  | divideByZero
  | noDraw
  deriving DecidableEq, Repr

def udiv (a b : U64) : Except Fault U64 :=
  if b = 0#64 then .error .divideByZero else .ok (a / b)

def umod (a b : U64) : Except Fault U64 :=
  if b = 0#64 then .error .divideByZero else .ok (a % b)

/-- What one call of `randRangeInt` draws. -/
structure Draw where
  oneOf : Bool
  randInt : U64
  uint64 : U64
  deriving DecidableEq, Repr

/-- Special `[0:-1]` range for all possible values. -/
def specialEnd (bitSize : Nat) (rangeBegin rangeEnd : U64) : U64 :=
  if rangeBegin = 0#64 ∧ rangeEnd.toInt = -1 then maxUInt bitSize else rangeEnd

/-- An aligned range draws again for the index of the value. -/
def randRangeInt (bitSize : Nat) : List Draw → U64 → U64 → U64 → Except Fault U64
  | [], _, _, _ => .error .noDraw
  | d :: rest, rangeBegin, rangeEnd, align =>
    if d.oneOf then .ok d.randInt
    else if align ≠ 0#64 then do
      let endAlign ← udiv (specialEnd bitSize rangeBegin rangeEnd - rangeBegin) align
      let k ← randRangeInt bitSize rest 0#64 endAlign 0#64
      return rangeBegin + k * align
    else do
      let k ← umod d.uint64 (rangeEnd - rangeBegin + 1#64)
      return rangeBegin + k

/-- The change of a number: up or down by one to four, or one bit flipped. -/
inductive Change
  | up (n : Fin 4)
  | down (n : Fin 4)
  | flip (bit : Nat)
  deriving DecidableEq, Repr

def Change.apply : Change → U64 → U64
  | .up n, v => v + (BitVec.ofNat 64 n + 1#64)
  | .down n, v => v - (BitVec.ofNat 64 n + 1#64)
  | .flip bit, v => v ^^^ (1#64 <<< bit)

def mutateInt (change : Change) (val : U64) : U64 := change.apply val

def mutateAlignedInt (t : IntType) (change : Change) (val : U64) : Except Fault U64 := do
  let index ← udiv (val - t.rangeBegin) t.align
  let misalignment ← umod (val - t.rangeBegin) t.align
  let lastIndex ← udiv (specialEnd t.bitSize t.rangeBegin t.rangeEnd - t.rangeBegin) t.align
  let index ← umod (change.apply index) (lastIndex + 1#64)
  return t.rangeBegin + index * t.align + misalignment

/-- `IntType.mutate` when it does not generate anew. -/
def IntType.mutate (t : IntType) (change : Change) (val : U64) : Except Fault U64 := do
  let val ← if t.align = 0#64 then .ok (mutateInt change val) else mutateAlignedInt t change val
  return val &&& maxUInt t.bitSize

/-! ## Intervals -/

inductive Signedness
  | unsigned
  | signed
  deriving DecidableEq, Repr

namespace Signedness

/-- The number that a 64-bit value stands for. -/
def value : Signedness → U64 → Int
  | unsigned, v => v.toNat
  | signed, v => v.toInt

/-- The value is an integer of the given size. -/
def Fits : Signedness → Nat → U64 → Prop
  | unsigned, size, v => v.toNat < 2 ^ size
  | signed, size, v => -2 ^ (size - 1) ≤ v.toInt ∧ v.toInt < 2 ^ (size - 1)

end Signedness

/-- The range is a non-empty interval of the integers of its size. -/
structure IntRange.Interval (t : IntRange) (s : Signedness) : Prop where
  fits_begin : s.Fits t.size t.rangeBegin
  fits_end : s.Fits t.size t.lastValue
  nonempty : s.value t.rangeBegin ≤ s.value t.lastValue

/-- Outside the uniform branch a value of the interval is generated, a multiple of the
alignment away from its begin. -/
def IntRange.Generates (t : IntRange) (s : Signedness) : Prop :=
  ∀ first second : Draw, first.oneOf = false → second.oneOf = false →
    ∃ v k : U64, randRangeInt t.gen.bitSize [first, second] t.gen.rangeBegin t.gen.rangeEnd
        t.gen.align = .ok v ∧
      s.value v = s.value t.rangeBegin + k.toNat * (t.align.getD 1#64).toNat ∧
      s.value v ≤ s.value t.lastValue

/-- The range is real, and its values can be generated and mutated. -/
structure IntRange.Sound (t : IntRange) : Prop where
  generate : ∀ draws, randRangeInt t.gen.bitSize draws t.gen.rangeBegin t.gen.rangeEnd
    t.gen.align ≠ .error .divideByZero
  mutate : ∀ change val, t.gen.mutate change val ≠ .error .divideByZero
  interval : ∃ s, t.Interval s ∧ t.Generates s

/-- The begin is not after the end; in 64 bits as signed or as unsigned numbers. -/
def IntRange.InOrder (t : IntRange) : Prop :=
  t.rangeBegin.toInt ≤ t.rangeEnd.toInt ∨ t.size = 64 ∧ t.rangeBegin ≤ t.rangeEnd

/-- The range goes from a negative number to one above the largest signed one. -/
def IntRange.Overshoots (t : IntRange) : Prop :=
  t.size < 64 ∧ t.rangeBegin.toInt < 0 ∧ t.rangeEnd = 1#64 <<< (t.size - 1)

/-! ### Bounds -/

variable {size : Nat} {b a : U64}

theorem toNat_maxUInt (h : size ≤ 64) : (maxUInt size).toNat = 2 ^ size - 1 := by
  have hpos := Nat.two_pow_pos size
  rw [maxUInt, toNat_sub, toNat_shiftLeft, Nat.shiftLeft_eq]
  rcases Nat.lt_or_eq_of_le h with hlt | rfl
  · have hpow : 2 ^ size < 2 ^ 64 := Nat.pow_lt_pow_right (by decide) hlt
    have hmod : (1#64).toNat * 2 ^ size % 2 ^ 64 = 2 ^ size := by
      rw [toNat_ofNat, mod_eq_of_lt (by decide : 1 < 2 ^ 64), one_mul,
        mod_eq_of_lt hpow]
    rw [hmod, toNat_ofNat]
    omega
  · rfl

theorem toNat_maxSInt (hle : size ≤ 64) : (maxSInt size).toNat = 2 ^ (size - 1) - 1 :=
  toNat_maxUInt (by omega : size - 1 ≤ 64)

theorem toNat_signBit (hpos : 1 ≤ size) (hle : size ≤ 64) :
    (1#64 <<< (size - 1)).toNat = 2 ^ (size - 1) := by
  have hpow : 2 ^ (size - 1) < 2 ^ 64 := Nat.pow_lt_pow_right (by decide) (by omega)
  rw [toNat_shiftLeft, Nat.shiftLeft_eq, toNat_ofNat,
    Nat.mod_eq_of_lt (by decide : 1 < 2 ^ 64), Nat.one_mul, Nat.mod_eq_of_lt hpow]

theorem two_pow_halves (hpos : 1 ≤ size) : 2 ^ size = 2 * 2 ^ (size - 1) := by
  rw [← Nat.pow_succ', Nat.succ_eq_add_one, Nat.sub_add_cancel hpos]

/-- The difference of two values in order. -/
theorem Signedness.toNat_sub {s : Signedness} {e : U64} (h : s.value b ≤ s.value e) :
    ((e - b).toNat : Int) = s.value e - s.value b := by
  have hb := b.isLt
  have he := e.isLt
  rw [BitVec.toNat_sub]
  cases s with
  | unsigned =>
    simp only [Signedness.value] at h ⊢
    omega
  | signed =>
    simp only [Signedness.value, toInt_eq_toNat_cond] at h ⊢
    omega

/-- A sum that stays in order does not wrap. -/
theorem Signedness.value_add {s : Signedness} {x e : U64} (h : s.value b + x.toNat ≤ s.value e) :
    s.value (b + x) = s.value b + x.toNat := by
  have hb := b.isLt
  have hx := x.isLt
  have he := e.isLt
  cases s with
  | unsigned =>
    simp only [Signedness.value, toNat_add] at h ⊢
    omega
  | signed =>
    simp only [Signedness.value, toInt_eq_toNat_cond, toNat_add] at h ⊢
    omega

/-! ### What is accepted -/

namespace IntRange
variable {t : IntRange}

theorem Accepted.span_le (h : t.Accepted) (hall : t.all = false) :
    (t.rangeEnd - t.rangeBegin).toNat ≤ 2 ^ 64 - 2 ^ 32 := by
  have hconsts := h.consts
  rw [checkConsts, hall] at hconsts
  by_contra hspan
  have hgt : t.rangeEnd - t.rangeBegin > 0xFFFFFFFF00000000#64 := by
    rw [gt_iff_lt, lt_def]
    show 18446744069414584320 < _
    omega
  simp [hgt] at hconsts

theorem Accepted.fits_base (h : t.Accepted) :
    t.size = 64 ∨ t.inUnsignedBase = true ∨ t.inSignedBase = true := by
  have hconsts := h.consts
  rw [checkConsts] at hconsts
  by_contra hfits
  push Not at hfits
  obtain ⟨hsize, hunsigned, hsigned⟩ := hfits
  have hlt := Nat.lt_of_le_of_ne h.size_le hsize
  simp only [hlt, hunsigned, hsigned] at hconsts
  split at hconsts <;> simp at hconsts

theorem Accepted.two_le_align (h : t.Accepted) {align : U64} (ha : t.align = some align) :
    2 ≤ align.toNat := by
  have halign := h.align
  rw [checkAlign, ha] at halign
  by_contra hlt
  have hle : align ≤ 1#64 := by
    rw [le_def]
    show _ ≤ 1
    omega
  simp [hle] at halign

theorem lastValue_eq_specialEnd {align : U64} (ha : t.align = some align) :
    specialEnd t.size t.rangeBegin t.rangeEnd = t.lastValue := by
  rw [specialEnd, lastValue, all, ha]
  simp

theorem lastValue_of_not_all (h : t.all = false) : t.lastValue = t.rangeEnd := by
  rw [lastValue, h]
  rfl

/-- The special range is the interval of all unsigned numbers. -/
theorem Accepted.interval_of_all (h : t.Accepted) (hall : t.all = true) :
    t.Interval .unsigned := by
  have hzero : t.rangeBegin = 0#64 := by
    rw [all, Bool.and_eq_true, Bool.and_eq_true, decide_eq_true_eq] at hall
    exact hall.2.1
  have hlast : t.lastValue.toNat = 2 ^ t.size - 1 := by
    rw [lastValue, if_pos hall, toNat_maxUInt h.size_le]
  have hpos := Nat.two_pow_pos t.size
  refine ⟨?_, ?_, ?_⟩
  · rw [hzero]
    exact hpos
  · show t.lastValue.toNat < _
    omega
  · rw [hzero]
    exact Int.natCast_nonneg _

/-- **Which accepted ranges are intervals of their integers.** -/
theorem Accepted.interval_iff (h : t.Accepted) :
    (∃ s, t.Interval s) ↔ t.all = true ∨ t.InOrder ∧ ¬ t.Overshoots := by
  cases hall : t.all with
  | true => exact ⟨fun _ => .inl rfl, fun _ => ⟨.unsigned, h.interval_of_all hall⟩⟩
  | false =>
    have hspan := h.span_le hall
    have hlast := lastValue_of_not_all hall
    have hpow := two_pow_halves h.size_pos
    have hhalf := Nat.two_pow_pos (t.size - 1)
    have hb := t.rangeBegin.isLt
    have he := t.rangeEnd.isLt
    have hwide : t.size < 64 → 2 ^ t.size ≤ 2 ^ 63 := fun hlt =>
      Nat.pow_le_pow_right (by decide) (by omega)
    have hfull : t.size = 64 → 2 ^ t.size = 2 ^ 64 := fun heq => by rw [heq]
    have hsize := h.size_le
    have hfits : t.size = 64 ∨
        (t.rangeBegin.toNat ≤ 2 ^ t.size - 1 ∧ t.rangeEnd.toNat ≤ 2 ^ t.size - 1) ∨
        ((t.rangeBegin.toNat + (2 ^ (t.size - 1) - 1)) % 2 ^ 64 ≤ 2 ^ t.size - 1 ∧
          (t.rangeEnd.toNat + (2 ^ (t.size - 1) - 1)) % 2 ^ 64 ≤ 2 ^ t.size - 1) := by
      rcases h.fits_base with hfull | hunsigned | hsigned
      · exact .inl hfull
      · rw [inUnsignedBase, hlast, Bool.and_eq_true, decide_eq_true_eq, decide_eq_true_eq,
          le_def, le_def, toNat_maxUInt h.size_le] at hunsigned
        exact .inr (.inl hunsigned)
      · rw [inSignedBase, hlast, Bool.and_eq_true, decide_eq_true_eq, decide_eq_true_eq,
          le_def, le_def, toNat_add, toNat_add,
          toNat_maxUInt h.size_le, toNat_maxSInt h.size_le] at hsigned
        exact .inr (.inr hsigned)
    have hsign : t.rangeEnd = 1#64 <<< (t.size - 1) ↔ t.rangeEnd.toNat = 2 ^ (t.size - 1) := by
      rw [← toNat_inj, toNat_signBit h.size_pos h.size_le]
    simp only [Bool.false_eq_true, false_or, InOrder, Overshoots, hsign, le_def,
      toInt_eq_toNat_cond]
    generalize hH : 2 ^ (t.size - 1) = H at *
    generalize hM : 2 ^ t.size = M at *
    have hHint : (2 : Int) ^ (t.size - 1) = H := by
      norm_cast
    constructor
    · rintro ⟨s, hbegin, hend, hle⟩
      rw [hlast] at hend hle
      cases s with
      | unsigned =>
        simp only [Signedness.Fits, Signedness.value, hM] at hbegin hend hle
        omega
      | signed =>
        simp only [Signedness.Fits, Signedness.value, toInt_eq_toNat_cond, hHint]
          at hbegin hend hle
        omega
    · rintro ⟨horder, hshoot⟩
      by_cases hneg : t.rangeBegin.toNat < 2 ^ 63 ∧
          (t.size < 64 ∨ t.rangeBegin.toNat ≤ t.rangeEnd.toNat)
      · refine ⟨.unsigned, ?_, ?_, ?_⟩
        all_goals
          simp only [Signedness.Fits, Signedness.value, hM, hlast]
          omega
      · refine ⟨.signed, ?_, ?_, ?_⟩
        all_goals
          simp only [Signedness.Fits, Signedness.value, hHint, hlast,
            toInt_eq_toNat_cond]
          omega

end IntRange

/-! ### What is generated -/

theorem udiv_ok (h : b ≠ 0#64) : udiv a b = .ok (a / b) := if_neg h

theorem umod_ok (h : b ≠ 0#64) : umod a b = .ok (a % b) := if_neg h

theorem ne_zero_of_toNat_pos (h : 0 < a.toNat) : a ≠ 0#64 := by
  rintro rfl
  exact absurd h (by decide)

/-- One more than a span that is not the largest one. -/
theorem toNat_add_one (h : a.toNat < 2 ^ 64 - 1) : (a + 1#64).toNat = a.toNat + 1 := by
  rw [toNat_add, toNat_ofNat]
  omega

/-- The index of an aligned range is at most half of the largest number. -/
theorem toNat_udiv_lt {span align : U64} (h : 2 ≤ align.toNat) :
    (span / align).toNat < 2 ^ 64 - 1 := by
  have hspan := span.isLt
  have hle : span.toNat / align.toNat ≤ span.toNat / 2 := div_le_div_left h (by decide)
  rw [toNat_udiv]
  omega

section Generate
variable (bitSize : Nat) {b e align : U64}

/-- A range without alignment: the remainder of the draw. -/
theorem randRangeInt_plain (h : (e - b).toNat < 2 ^ 64 - 1) (d : Draw) (rest : List Draw) :
    ∃ k : U64, k.toNat ≤ (e - b).toNat ∧
      randRangeInt bitSize (d :: rest) b e 0#64 =
        if d.oneOf then .ok d.randInt else .ok (b + k) := by
  have hspan := toNat_add_one h
  have hne : e - b + 1#64 ≠ 0#64 := ne_zero_of_toNat_pos (by omega)
  refine ⟨d.uint64 % (e - b + 1#64), ?_, ?_⟩
  · have hlt := mod_lt d.uint64.toNat (by omega : 0 < (e - b + 1#64).toNat)
    rw [toNat_umod]
    omega
  · rw [randRangeInt, umod_ok hne]
    rfl

/-- An aligned range: an index of a range without alignment. -/
theorem randRangeInt_aligned (h : 2 ≤ align.toNat) (d : Draw) (rest : List Draw) :
    randRangeInt bitSize (d :: rest) b e align =
      if d.oneOf then .ok d.randInt
      else do
        let k ← randRangeInt bitSize rest 0#64 ((specialEnd bitSize b e - b) / align) 0#64
        return b + k * align := by
  have hne : align ≠ 0#64 := ne_zero_of_toNat_pos (by omega)
  rw [randRangeInt, if_pos hne, udiv_ok hne]
  rfl

theorem randRangeInt_plain_ne (h : (e - b).toNat < 2 ^ 64 - 1) (draws : List Draw) :
    randRangeInt bitSize draws b e 0#64 ≠ .error .divideByZero := by
  cases draws with
  | nil => exact fun heq => nomatch heq
  | cons d rest =>
    obtain ⟨k, -, hrun⟩ := randRangeInt_plain bitSize h d rest
    rw [hrun]
    split <;> exact fun heq => nomatch heq

theorem randRangeInt_aligned_ne (h : 2 ≤ align.toNat) (draws : List Draw) :
    randRangeInt bitSize draws b e align ≠ .error .divideByZero := by
  cases draws with
  | nil => exact fun heq => nomatch heq
  | cons d rest =>
    rw [randRangeInt_aligned bitSize h]
    split
    · exact fun heq => nomatch heq
    have hindex : ((specialEnd bitSize b e - b) / align - 0#64).toNat < 2 ^ 64 - 1 := by
      rw [BitVec.sub_zero]
      exact toNat_udiv_lt h
    have hinner := randRangeInt_plain_ne bitSize hindex rest
    generalize randRangeInt bitSize rest 0#64 ((specialEnd bitSize b e - b) / align) 0#64 = r
      at hinner ⊢
    cases r with
    | error fault => exact fun heq => hinner (congrArg Except.error (Except.error.inj heq))
    | ok k => exact fun heq => nomatch heq

end Generate

/-- Mutation of an aligned integer divides by the alignment and by the number of
indices. -/
theorem mutateAlignedInt_ok {t : IntType} (h : 2 ≤ t.align.toNat) (change : Change) (val : U64) :
    ∃ v, mutateAlignedInt t change val = .ok v := by
  have hne : t.align ≠ 0#64 := ne_zero_of_toNat_pos (by omega)
  have hlast : (specialEnd t.bitSize t.rangeBegin t.rangeEnd - t.rangeBegin) / t.align + 1#64 ≠
      0#64 := by
    refine ne_zero_of_toNat_pos ?_
    rw [toNat_add_one (toNat_udiv_lt h)]
    exact succ_pos _
  simp only [mutateAlignedInt, udiv_ok hne, umod_ok hne, umod_ok hlast, bind, Except.bind]
  exact ⟨_, rfl⟩

namespace IntRange
variable {t : IntRange}

theorem Accepted.generate_ne (h : t.Accepted) (draws : List Draw) :
    randRangeInt t.gen.bitSize draws t.gen.rangeBegin t.gen.rangeEnd t.gen.align ≠
      .error .divideByZero := by
  cases ha : t.align with
  | none =>
    have hall : t.all = false := by rw [all, ha]; rfl
    have hspan := h.span_le hall
    have halign : t.gen.align = 0#64 := by rw [gen, ha]; rfl
    rw [halign]
    exact randRangeInt_plain_ne t.size (lt_of_le_of_lt hspan (by decide)) draws
  | some align =>
    have halign : t.gen.align = align := by rw [gen, ha]; rfl
    rw [halign]
    exact randRangeInt_aligned_ne t.size (h.two_le_align ha) draws

theorem Accepted.mutate_ne (h : t.Accepted) (change : Change) (val : U64) :
    t.gen.mutate change val ≠ .error .divideByZero := by
  rw [IntType.mutate]
  cases ha : t.align with
  | none =>
    have halign : t.gen.align = 0#64 := by rw [gen, ha]; rfl
    rw [if_pos halign]
    exact fun heq => nomatch heq
  | some align =>
    have halign : t.gen.align = align := by rw [gen, ha]; rfl
    have htwo := h.two_le_align ha
    have hne : t.gen.align ≠ 0#64 := ne_zero_of_toNat_pos (by rw [halign]; omega)
    obtain ⟨v, hv⟩ := mutateAlignedInt_ok (halign ▸ htwo) change val
    rw [if_neg hne, hv]
    exact fun heq => nomatch heq

/-- **An interval that is accepted can be generated.** -/
theorem Accepted.generates (h : t.Accepted) {s : Signedness} (hi : t.Interval s) :
    t.Generates s := by
  intro first second hfirst hsecond
  have hdiff := Signedness.toNat_sub hi.nonempty
  cases ha : t.align with
  | none =>
    have hall : t.all = false := by rw [all, ha]; rfl
    have hspan := h.span_le hall
    have halign : t.gen.align = 0#64 := by rw [gen, ha]; rfl
    rw [lastValue_of_not_all hall] at hdiff ⊢
    obtain ⟨k, hk, hrun⟩ := randRangeInt_plain t.size
      (lt_of_le_of_lt hspan (by decide)) first [second]
    rw [hfirst] at hrun
    have hadd := Signedness.value_add (s := s) (b := t.rangeBegin) (x := k) (e := t.rangeEnd)
      (by omega)
    refine ⟨t.rangeBegin + k, k, ?_, ?_, ?_⟩
    · rw [halign]
      exact hrun
    · rw [hadd]
      simp
    · omega
  | some align =>
    have htwo := h.two_le_align ha
    have halign : t.gen.align = align := by rw [gen, ha]; rfl
    have hindex : ((specialEnd t.size t.rangeBegin t.rangeEnd - t.rangeBegin) / align -
        0#64).toNat < 2 ^ 64 - 1 := by
      rw [BitVec.sub_zero]
      exact toNat_udiv_lt htwo
    obtain ⟨k, hk, hrun⟩ := randRangeInt_plain t.size hindex second []
    rw [hsecond] at hrun
    rw [BitVec.sub_zero, lastValue_eq_specialEnd ha, BitVec.toNat_udiv] at hk
    have hmul : k.toNat * align.toNat ≤ (t.lastValue - t.rangeBegin).toNat :=
      (mul_le_mul_right _ hk).trans (div_mul_le_self _ _)
    have hkalign : (k * align).toNat = k.toNat * align.toNat := by
      exact mod_eq_of_lt (lt_of_le_of_lt hmul (BitVec.isLt _))
    have hadd := Signedness.value_add (s := s) (b := t.rangeBegin) (x := k * align)
      (e := t.lastValue) (by omega)
    refine ⟨t.rangeBegin + k * align, k, ?_, ?_, ?_⟩
    · rw [halign]
      show randRangeInt t.size [first, second] t.rangeBegin t.rangeEnd align = _
      rw [randRangeInt_aligned t.size htwo, hfirst, hrun]
      simp
    · rw [hadd, hkalign]
      simp
    · omega

end IntRange

/-- **Accepted ranges.**  For every accepted range, whether it is an interval of the
integers of its size whose values are generated is a matter of the order of its ends and
of one end that is accepted in excess; there is never a division by zero. -/
theorem accepted_sound_iff (t : IntRange) (h : t.Accepted) :
    t.Sound ↔ t.all = true ∨ t.InOrder ∧ ¬ t.Overshoots := by
  rw [← h.interval_iff]
  constructor
  · exact fun ⟨_, _, s, hi, _⟩ => ⟨s, hi⟩
  · exact fun ⟨s, hi⟩ => ⟨h.generate_ne, h.mutate_ne, s, hi, h.generates hi⟩

/-- `int8[-4:10, 2]`. -/
def smallRange : IntRange := ⟨8, -4#64, 10#64, some 2#64⟩

theorem accepted_sound_small : smallRange.Accepted ∧ smallRange.Sound := by
  have haccepted : smallRange.Accepted := ⟨by decide, by decide, by decide, by decide⟩
  refine ⟨haccepted, (accepted_sound_iff smallRange haccepted).mpr (.inr ⟨.inl (by decide), ?_⟩)⟩
  rintro ⟨-, -, hend⟩
  exact absurd hend (by decide)

/-- `int8[-1:128]`. -/
def overshootingRange : IntRange := ⟨8, -1#64, 128#64, none⟩

/-- **A range is accepted that no integer type of its size has.** -/
theorem accepted_not_sound : overshootingRange.Accepted ∧ ¬ overshootingRange.Sound := by
  refine ⟨⟨by decide, by decide, by decide, by decide⟩, fun hsound => ?_⟩
  obtain ⟨s, hi, -⟩ := hsound.interval
  cases s with
  | unsigned =>
    have hfits : overshootingRange.rangeBegin.toNat < 2 ^ 8 := hi.fits_begin
    exact absurd hfits (by decide)
  | signed =>
    have hfits : overshootingRange.lastValue.toInt < 2 ^ 7 := hi.fits_end.2
    exact absurd hfits (by decide)

end Sect.IntRanges
