import SectProof.OutputReplies
import SectProof.ReplyParser

/-! # Comparison operands across the executor boundary

The executor casts the operands of a comparison to the signed type of its size
before it writes them, but sends every size below eight bytes as 32-bit words,
and `readComps` widens those words without a sign.  The operands that arrive are
therefore the sign extensions exactly when the 32 high bits the wire drops were
zero (`compMap_signExtended_iff`).
-/

namespace Sect.Executor
open Sect.Ipc Reader

/-- The size in bits of the operands of a comparison. -/
def KcovComparison.bits (type : UInt64) : Nat :=
  if type &&& kcovCmpSizeMask = kcovCmpSize1 then 8
  else if type &&& kcovCmpSizeMask = kcovCmpSize2 then 16
  else if type &&& kcovCmpSizeMask = kcovCmpSize4 then 32
  else 64

/-- The operand as the kernel recorded it, in its own size. -/
def KcovComparison.operand (type arg : UInt64) : BitVec (bits type) := arg.toBitVec.setWidth _

/-- The 64-bit sign extension of a recorded operand. -/
def KcovComparison.signExtended (type arg : UInt64) : UInt64 :=
  UInt64.ofBitVec ((operand type arg).signExtend 64)

/-- The operand that `readComps` sees. -/
def KcovComparison.wireOperand (type arg : UInt64) : UInt64 :=
  if type &&& kcovCmpSizeMask = kcovCmpSize8 then castOperand type arg
  else (castOperand type arg).toUInt32.toUInt64

namespace KcovComparison

theorem signExtended_of_bits {type : UInt64} {n : Nat} (h : bits type = n) (arg : UInt64) :
    signExtended type arg = UInt64.ofBitVec ((arg.toBitVec.setWidth n).signExtend 64) := by
  subst h
  rfl

theorem castOperand_eq_signExtended (type arg : UInt64) :
    castOperand type arg = signExtended type arg := by
  unfold castOperand
  split
  · rename_i h1
    rw [signExtended_of_bits (n := 8) (if_pos h1)]
    rfl
  rename_i h1
  split
  · rename_i h2
    rw [signExtended_of_bits (n := 16) ((if_neg h1).trans (if_pos h2))]
    rfl
  rename_i h2
  split
  · rename_i h4
    rw [signExtended_of_bits (n := 32) ((if_neg h1).trans ((if_neg h2).trans (if_pos h4)))]
    rfl
  · rename_i h4
    rw [signExtended_of_bits (n := 64) ((if_neg h1).trans ((if_neg h2).trans (if_neg h4)))]
    apply UInt64.eq_of_toBitVec_eq
    simp

theorem type_cases {type : UInt64} (h : type ≤ 7) :
    type = 0 ∨ type = 1 ∨ type = 2 ∨ type = 3 ∨ type = 4 ∨ type = 5 ∨ type = 6 ∨ type = 7 := by
  have h7 : type.toNat ≤ 7 := h
  simp only [← UInt64.toNat_inj]
  simp
  omega

/-- Writer and reader agree on the size bits and on the constant bit of a type. -/
theorem toUInt32_type {type : UInt64} (h : type ≤ 7) :
    ¬ type.toUInt32 > compConstMask ||| compSizeMask ∧
      (type.toUInt32 &&& compSizeMask = compSize8 ↔
        type &&& kcovCmpSizeMask = kcovCmpSize8) := by
  rcases type_cases h with rfl | rfl | rfl | rfl | rfl | rfl | rfl | rfl <;> decide

end KcovComparison

section Reads
variable (o : ByteOrder)

theorem reads_readUint32 (err : ParseError) (w : UInt32) :
    Reads (readUint32 o err) (o.store 4 w.toNat) w :=
  (reads_bytes _ (o.length_store 4 _)).bind_pure (congrArg _ (o.load_store_uint32 w))

theorem reads_readUint64 (err : ParseError) (w : UInt64) :
    Reads (readUint64 o err) (o.store 8 w.toNat) w :=
  (reads_bytes _ (o.length_store 8 _)).bind_pure (congrArg _ (o.load_store_uint64 w))

/-- What `readComps` adds for one comparison. -/
def KcovComparison.addTo (c : KcovComparison) (compMap : CompMap) : CompMap :=
  addOperands c.type.toUInt32 (wireOperand c.type c.arg1) (wireOperand c.type c.arg2) compMap

/-- **The reader takes a written comparison apart again.** -/
theorem reads_readComp (i : Nat) (compMap : CompMap) (c : KcovComparison) (h : c.type ≤ 7) :
    Reads (readComp o i compMap) (c.bytes o) (c.addTo compMap) := by
  obtain ⟨hvalid, hsize⟩ := KcovComparison.toUInt32_type h
  refine (reads_readUint32 o _ _).bind ?_
  rw [if_neg hvalid]
  unfold KcovComparison.addTo KcovComparison.wireOperand
  by_cases h8 : c.type &&& kcovCmpSizeMask = kcovCmpSize8
  · simp only [if_pos h8, if_pos (hsize.mpr h8)]
    exact (reads_readUint64 o _ _).bind ((reads_readUint64 o _ _).bind_pure rfl)
  · simp only [if_neg h8, if_neg (mt hsize.mp h8)]
    exact (reads_readUint32 o _ _).bind ((reads_readUint32 o _ _).bind_pure rfl)

theorem reads_readCompsFrom (i : Nat) (compMap : CompMap) (cs : List KcovComparison)
    (h : ∀ c ∈ cs, c.type ≤ 7) :
    Reads (readCompsFrom o i cs.length compMap) (cs.flatMap (KcovComparison.bytes o))
      (cs.foldl (fun m c => c.addTo m) compMap) := by
  induction cs generalizing i compMap with
  | nil => exact .pure compMap
  | cons c cs ih =>
    exact (reads_readComp o i compMap c (h c List.mem_cons_self)).bind
      (ih _ _ fun d hd => h d (List.mem_cons_of_mem c hd))

end Reads

namespace KcovComparison

variable {type arg : UInt64} {c : KcovComparison}

/-- Below eight bytes the wire keeps the operand exactly when it is not negative. -/
theorem wireOperand_eq_signExtended_iff (h : bits type ≤ 32)
    (h8 : type &&& kcovCmpSizeMask ≠ kcovCmpSize8) :
    wireOperand type arg = signExtended type arg ↔ (operand type arg).msb = false := by
  rw [wireOperand, if_neg h8, castOperand_eq_signExtended, signExtended]
  set x := operand type arg
  constructor
  · intro heq
    -- a negative operand extends to a number the wire cannot carry
    by_contra hneg
    rw [Bool.not_eq_false] at hneg
    have hmsb : (x.signExtend 64).msb = true := by
      rw [BitVec.msb_signExtend]
      simp [show ¬ bits type ≥ 64 by omega, hneg]
    have hlt : (x.signExtend 64).toNat < 2 ^ 32 := by
      have hnat := congrArg UInt64.toNat heq
      simp only [UInt64.toNat_ofBitVec] at hnat
      rw [← hnat]
      exact (UInt64.ofBitVec (x.signExtend 64)).toUInt32.toNat_lt
    rw [BitVec.msb_eq_decide] at hmsb
    simp at hmsb
    omega
  · intro hpos
    apply UInt64.toNat_inj.mp
    rw [BitVec.signExtend_eq_setWidth_of_msb_false hpos]
    have hx := x.isLt
    have hpow : 2 ^ bits type ≤ 2 ^ 32 := Nat.pow_le_pow_right (by decide) h
    simp
    omega

/-- The wire keeps the bits of the operand's own size. -/
theorem setWidth_wireOperand (h : bits type ≤ 32) (h8 : type &&& kcovCmpSizeMask ≠ kcovCmpSize8) :
    (wireOperand type arg).toBitVec.setWidth (bits type) = operand type arg := by
  rw [wireOperand, if_neg h8, castOperand_eq_signExtended, signExtended]
  apply BitVec.eq_of_getElem_eq
  intro i hi
  simp [BitVec.getElem_signExtend, hi, show i < 32 by omega, show i < 64 by omega]

theorem setWidth_signExtended (h : bits type ≤ 32) :
    (signExtended type arg).toBitVec.setWidth (bits type) = operand type arg := by
  apply BitVec.eq_of_getElem_eq
  intro i hi
  simp [signExtended, BitVec.getElem_signExtend, hi, show i < 64 by omega]

theorem bits_le (h : type ≤ 7) (h8 : type &&& kcovCmpSizeMask ≠ kcovCmpSize8) : bits type ≤ 32 := by
  rcases type_cases h with rfl | rfl | rfl | rfl | rfl | rfl | rfl | rfl <;>
    first | decide | exact absurd (by decide) h8

/-- The map that the sign-extended operands of a comparison would give: the value
each operand was compared with, unless that operand is a constant of the code,
and nothing for operands that agree. -/
def signedComps (c : KcovComparison) : CompMap :=
  let op1 := signExtended c.type c.arg1
  let op2 := signExtended c.type c.arg2
  if op1 = op2 then ∅
  else if c.type &&& kcovCmpConst ≠ 0 then {(op2, op1)}
  else {(op2, op1), (op1, op2)}

theorem toUInt32_const (h : type ≤ 7) :
    type.toUInt32 &&& compConstMask ≠ 0 ↔ type &&& kcovCmpConst ≠ 0 := by
  rcases type_cases h with rfl | rfl | rfl | rfl | rfl | rfl | rfl | rfl <;> decide

theorem mem_addOperands {typ : UInt32} {op1 op2 : UInt64} {p : UInt64 × UInt64} :
    p ∈ addOperands typ op1 op2 ∅ ↔
      op1 ≠ op2 ∧ (p = (op2, op1) ∨ typ &&& compConstMask = 0 ∧ p = (op1, op2)) := by
  unfold addOperands CompMap.addComp
  split <;> rename_i heq
  · simp [heq]
  · split <;> rename_i hconst <;> simp at hconst <;> simp [heq, hconst, or_comm]

theorem mem_signedComps (h : c.type ≤ 7) {p : UInt64 × UInt64} :
    p ∈ c.signedComps ↔ p ∈ addOperands c.type.toUInt32 (signExtended c.type c.arg1)
      (signExtended c.type c.arg2) ∅ := by
  have hconst := toUInt32_const h
  rw [mem_addOperands]
  unfold signedComps
  dsimp only
  split <;> rename_i heq
  · simp [heq]
  split <;> rename_i hc
  · simp [heq, hconst.mpr hc]
  · have hc' : c.type.toUInt32 &&& compConstMask = 0 := by
      by_contra hne
      exact hc (hconst.mp hne)
    simp [heq, hc']

/-- When the operands differ, the arriving map is the signed one only if both
operands arrive sign extended. -/
theorem wireOperands_of_addTo_eq (h : c.type ≤ 7) (h8 : c.type &&& kcovCmpSizeMask ≠ kcovCmpSize8)
    (hne : operand c.type c.arg1 ≠ operand c.type c.arg2) (hmap : c.addTo ∅ = c.signedComps) :
    wireOperand c.type c.arg1 = signExtended c.type c.arg1 ∧
      wireOperand c.type c.arg2 = signExtended c.type c.arg2 := by
  have hbits := bits_le h h8
  have hwire : wireOperand c.type c.arg1 ≠ wireOperand c.type c.arg2 := by
    intro heq
    apply hne
    rw [← setWidth_wireOperand hbits h8, heq, setWidth_wireOperand hbits h8]
  have hmem : (wireOperand c.type c.arg2, wireOperand c.type c.arg1) ∈ c.signedComps := by
    rw [← hmap]
    exact mem_addOperands.mpr ⟨hwire, .inl rfl⟩
  obtain ⟨-, heq | ⟨-, heq⟩⟩ := mem_addOperands.mp ((mem_signedComps h).mp hmem)
  · exact ⟨(Prod.mk.inj heq).2, (Prod.mk.inj heq).1⟩
  · -- crossed over, each operand would have the other's bits
    exfalso
    apply hne
    rw [← setWidth_wireOperand hbits h8, (Prod.mk.inj heq).2, setWidth_signExtended hbits]

/-- The condition under which no information is lost: eight-byte operands,
operands that are not negative in their size, or equal operands. -/
def SurvivesWire (c : KcovComparison) : Prop :=
  c.type &&& kcovCmpSizeMask = kcovCmpSize8 ∨
    ((operand c.type c.arg1).msb = false ∧ (operand c.type c.arg2).msb = false) ∨
    operand c.type c.arg1 = operand c.type c.arg2

theorem addTo_eq_signedComps_iff (h : c.type ≤ 7) : c.addTo ∅ = c.signedComps ↔ c.SurvivesWire := by
  have hsame : c.signedComps = addOperands c.type.toUInt32 (signExtended c.type c.arg1)
      (signExtended c.type c.arg2) ∅ := Finset.ext fun _ => mem_signedComps h
  constructor
  · intro hmap
    by_cases h8 : c.type &&& kcovCmpSizeMask = kcovCmpSize8
    · exact .inl h8
    by_cases hne : operand c.type c.arg1 = operand c.type c.arg2
    · exact .inr (.inr hne)
    · obtain ⟨h1, h2⟩ := wireOperands_of_addTo_eq h h8 hne hmap
      have hbits := bits_le h h8
      exact .inr (.inl ⟨(wireOperand_eq_signExtended_iff hbits h8).mp h1,
        (wireOperand_eq_signExtended_iff hbits h8).mp h2⟩)
  · intro hcond
    rw [hsame, addTo]
    by_cases h8 : c.type &&& kcovCmpSizeMask = kcovCmpSize8
    · simp only [wireOperand, if_pos h8, castOperand_eq_signExtended]
    have hbits := bits_le h h8
    rcases hcond with hcond | ⟨h1, h2⟩ | heq
    · exact absurd hcond h8
    · rw [(wireOperand_eq_signExtended_iff hbits h8).mpr h1,
        (wireOperand_eq_signExtended_iff hbits h8).mpr h2]
    · have hsigned : signExtended c.type c.arg1 = signExtended c.type c.arg2 := by
        rw [signExtended, heq, signExtended]
      have hwire : wireOperand c.type c.arg1 = wireOperand c.type c.arg2 := by
        simp only [wireOperand, castOperand_eq_signExtended, hsigned]
      simp [addOperands, hsigned, hwire]

end KcovComparison

/-- **Which operands survive the boundary.**  What the executor writes for a
comparison is read back as the map of its sign-extended operands exactly when
the operands have eight bytes, are both non-negative in their size, or agree. -/
theorem compMap_signExtended_iff (cfg : Config) (c : KcovComparison) (s s' : Output)
    (hwrite : c.write cfg s = some ((), s')) (rest : List UInt8) :
    ∃ bs compMap, s'.data = s.data ++ bs ∧
      readComps cfg.order 1 (bs ++ rest) = .ok (compMap, rest) ∧
      (compMap = c.signedComps ↔ c.SurvivesWire) := by
  obtain ⟨htype, rfl, -⟩ := KcovComparison.write_some hwrite
  have hreads := reads_readCompsFrom cfg.order 0 ∅ [c] (by simpa using htype)
  refine ⟨c.bytes cfg.order, c.addTo ∅, rfl, ?_, KcovComparison.addTo_eq_signedComps_iff htype⟩
  have hfull := hreads.full rest
  rwa [List.flatMap_singleton] at hfull

/-- A machine that collects comparisons, with nothing filtered. -/
def comparisonsConfig : Config where
  order := .little
  isKernel64Bit := true
  flagCoverage := true
  flagCollectSignal := false
  flagCollectCover := false
  flagDedupCover := false
  flagComparisons := true
  flagExtraCoverage := false
  useCoverEdges := fun _ => true
  coverageFilter := fun _ => true
  sortComps := id
  outputData := 0x1b2bc30000
  outputSize := kMaxOutput
  outputSize_le := Nat.le_refl _

/-- The state in front of the first write. -/
def emptyOutput : Output := { data := [], dedupTable := fun _ => 0, completed := 0 }

theorem compMap_signExtended_fiveSeven :
    ∃ s', KcovComparison.write comparisonsConfig ⟨4, 5, 7, 0⟩ emptyOutput = some ((), s') ∧
      ∃ bs compMap, s'.data = emptyOutput.data ++ bs ∧
        readComps .little 1 (bs ++ []) = .ok (compMap, []) ∧
        (compMap = KcovComparison.signedComps ⟨4, 5, 7, 0⟩ ↔
          KcovComparison.SurvivesWire ⟨4, 5, 7, 0⟩) :=
  ⟨_, rfl, compMap_signExtended_iff comparisonsConfig ⟨4, 5, 7, 0⟩ emptyOutput _ rfl []⟩

/-- The one-byte operand `0xfe` arrives as `0xfffffffe`, not as `0xfffffffffffffffe`. -/
theorem compMap_signExtended_fails :
    ∃ s', KcovComparison.ignore comparisonsConfig ⟨0, 0xfe, 1, 0⟩ = false ∧
      KcovComparison.write comparisonsConfig ⟨0, 0xfe, 1, 0⟩ emptyOutput = some ((), s') ∧
      readComps .little 1 s'.data = .ok ({(0xfffffffe, 1), (1, 0xfffffffe)}, []) ∧
      KcovComparison.signedComps ⟨0, 0xfe, 1, 0⟩ =
        {(1, 0xfffffffffffffffe), (0xfffffffffffffffe, 1)} ∧
      ({(0xfffffffe, 1), (1, 0xfffffffe)} : CompMap) ≠ KcovComparison.signedComps ⟨0, 0xfe, 1, 0⟩ := by
  have hreads := reads_readCompsFrom .little 0 ∅ [⟨0, 0xfe, 1, 0⟩] (by decide)
  have hmap : KcovComparison.addTo ⟨0, 0xfe, 1, 0⟩ ∅ = {(0xfffffffe, 1), (1, 0xfffffffe)} := by decide
  refine ⟨_, rfl, rfl, ?_, by decide, by decide⟩
  exact (hreads.full []).trans (congrArg (fun m => Except.ok (m, [])) hmap)

end Sect.Executor
