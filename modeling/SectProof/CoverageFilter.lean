import SectProof.ByteReaders
import SectProof.ByteBitmaps

/-! # The coverage filter, from the manager to the executor

The manager writes a file with the region of the selected PCs and one bit for
each 16-byte block that holds the instruction after a selected PC
(`createCoverageBitmap`); the executor maps the file and looks up each address
that the kernel reports (`coverageFilter`).

The region is computed from the selected PCs, the bits from the addresses after
them.  The bitmap has room for the difference, and the executor never reads
outside it nor accepts an address in a block without a selected PC
(`coverageFilter_sound`).  But the executor first compares the address with the
end of the region, so **the address reported for a selected PC is accepted exactly
when it does not lie above every selected PC**: the last selected PCs of the
region are filtered out on every architecture whose call has a length.
-/

open List Nat Option UInt32

namespace Sect.Cover

/-! ### Targets -/

/-- The architectures of `sys/targets`. -/
inductive Arch
  | AMD64
  | ARM64
  | ARM
  | I386
  | MIPS64LE
  | PPC64LE
  | S390x
  | RiscV64
  | TestArch64
  | TestArch64Fuzz
  | TestArch64Fork
  | TestArch32Shmem
  | TestArch32ForkShmem
  deriving DecidableEq, Repr

/-- What the filter reads of a target. -/
structure Target where
  arch : Arch
  littleEndian : Bool
  deriving DecidableEq, Repr

/-- The byte order of the manager's file, and of the machine that maps it. -/
def Target.order (target : Target) : ByteOrder :=
  if target.littleEndian then .little else .big

/-- The length of the call that reports a PC; `none` models the panic on an
architecture that is not listed. -/
def instructionLen : Arch → Option UInt64
  | .AMD64 => some 5
  | .I386 => some 5
  | .ARM64 => some 4
  | .ARM => some 3
  | .PPC64LE => some 4
  | .MIPS64LE => some 8
  | .S390x => some 6
  | .RiscV64 => some 4
  | .TestArch64 => some 0
  | .TestArch64Fuzz => none
  | .TestArch64Fork => none
  | .TestArch32Shmem => none
  | .TestArch32ForkShmem => none

/-- The address that kcov reports for the call at `pc`. -/
def nextInstructionPC (target : Target) (pc : UInt64) : Option UInt64 :=
  (instructionLen target.arch).map fun offset =>
    -- THUMB instructions are 2 or 4 bytes with the low bit set.
    if target.arch = .ARM then (pc + offset) &&& ~~~1 else pc + offset

/-! ### The manager's side -/

/-- One round of the loop that looks for the ends of the region. -/
def regionStep (region : UInt32 × UInt32) (pc : UInt32) : UInt32 × UInt32 :=
  (if region.1 > pc then pc else region.1, if region.2 < pc then pc else region.2)

/-- The lowest and the highest PC. -/
def regionEnds (pcs : List UInt32) : UInt32 × UInt32 :=
  pcs.foldl regionStep (~~~0, 0)

/-- The start and the size of the region. -/
def coverageFilterRegion (pcs : List UInt32) : UInt32 × UInt32 :=
  ((regionEnds pcs).1, (regionEnds pcs).2 - (regionEnds pcs).1)

/-- The number of bytes of the bitmap of a region. -/
def bitmapSize (size : UInt32) : UInt32 :=
  (size >>> 4) / 8 + 2

/-- The bit of an address: the lowest 4 bits of its offset are dropped. -/
def blockOf (start pc : UInt32) : UInt32 :=
  (pc - start) >>> 4

/-- Sets the bit of the address after `pc`; fails where the source panics. -/
def markPC (target : Target) (start : UInt32) (bitmap : List UInt8) (pc : UInt32) :
    Option (List UInt8) :=
  (nextInstructionPC target pc.toUInt64).bind fun next =>
    Bitmap.set? bitmap (blockOf start next.toUInt32).toNat

/-- The file for the executor: two words and the bitmap; `none` models a panic.
The PCs are the keys of the source's map, in the order of its iteration. -/
def createCoverageBitmap (target : Target) (pcs : List UInt32) : Option (List UInt8) :=
  if pcs.isEmpty then some []
  else
    (pcs.foldlM (markPC target (coverageFilterRegion pcs).1)
        (List.replicate (bitmapSize (coverageFilterRegion pcs).2).toNat 0)).map fun bitmap =>
      target.order.store 4 (coverageFilterRegion pcs).1.toNat ++
        (target.order.store 4 (coverageFilterRegion pcs).2.toNat ++ bitmap)

/-! ### The executor's side -/

/-- The mapped file. -/
structure CovFilter where
  pcstart : UInt32
  pcsize : UInt32
  bitmap : List UInt8
  deriving DecidableEq, Repr

/-- Maps the file; fails on a file whose size does not fit its region. -/
def initCoverageFilter (target : Target) (data : List UInt8) : Option CovFilter :=
  let filter : CovFilter :=
    { pcstart := UInt32.ofNat (target.order.load (data.take 4))
      pcsize := UInt32.ofNat (target.order.load ((data.drop 4).take 4))
      bitmap := data.drop 8 }
  if UInt32.ofNat data.length ≠ 8 + bitmapSize filter.pcsize then none else some filter

/-- Whether the executor keeps a reported address, with the filter enabled;
`none` is a read outside the bitmap. -/
def coverageFilter (filter : CovFilter) (pc : UInt64) : Option Bool :=
  let pc32 := pc.toUInt32
  -- Prevents out of bound while searching the bitmap.
  if pc32 < filter.pcstart ∨ pc32 > filter.pcstart + filter.pcsize then some false
  else Bitmap.test? filter.bitmap (blockOf filter.pcstart pc32).toNat

/-! ### The region -/

theorem regionStep_spec (region : UInt32 × UInt32) (pc : UInt32) :
    (regionStep region pc).1 ≤ region.1 ∧ (regionStep region pc).1 ≤ pc ∧
      region.2 ≤ (regionStep region pc).2 ∧ pc ≤ (regionStep region pc).2 ∧
      ((regionStep region pc).2 = region.2 ∨ (regionStep region pc).2 = pc) := by
  simp only [regionStep, le_iff_toNat_le, lt_iff_toNat_lt, gt_iff_lt]
  split <;> split <;> simp <;> omega

theorem foldl_regionStep_spec (pcs : List UInt32) (region : UInt32 × UInt32) :
    (pcs.foldl regionStep region).1 ≤ region.1 ∧ region.2 ≤ (pcs.foldl regionStep region).2 ∧
      (∀ pc ∈ pcs, (pcs.foldl regionStep region).1 ≤ pc ∧
        pc ≤ (pcs.foldl regionStep region).2) ∧
      ((pcs.foldl regionStep region).2 = region.2 ∨ (pcs.foldl regionStep region).2 ∈ pcs) := by
  induction pcs generalizing region with
  | nil => simp
  | cons pc pcs ih =>
    obtain ⟨hlow, hpcLow, hhigh, hpcHigh, hend⟩ := regionStep_spec region pc
    obtain ⟨ihLow, ihHigh, ihAll, ihEnd⟩ := ih (regionStep region pc)
    rw [foldl_cons]
    refine ⟨UInt32.le_trans ihLow hlow, UInt32.le_trans hhigh ihHigh, ?_, ?_⟩
    · rintro other (_ | ⟨_, hmem⟩)
      · exact ⟨UInt32.le_trans ihLow hpcLow, UInt32.le_trans hpcHigh ihHigh⟩
      · exact ihAll other hmem
    · rcases ihEnd with heq | hmem
      · rcases hend with hsame | hpc
        · exact Or.inl (heq.trans hsame)
        · exact Or.inr (by rw [heq, hpc]; exact mem_cons_self)
      · exact Or.inr (mem_cons_of_mem pc hmem)

variable {pcs : List UInt32} {pc : UInt32} {target : Target}

theorem regionEnds_bounds (h : pc ∈ pcs) :
    (regionEnds pcs).1.toNat ≤ pc.toNat ∧ pc.toNat ≤ (regionEnds pcs).2.toNat := by
  have hbounds := (foldl_regionStep_spec pcs (~~~0, 0)).2.2.1 pc h
  exact ⟨le_iff_toNat_le.mp hbounds.1, le_iff_toNat_le.mp hbounds.2⟩

/-- The region of a non-empty set ends at a selected PC. -/
theorem regionEnds_mem (h : pc ∈ pcs) : (regionEnds pcs).2 ∈ pcs := by
  rcases (foldl_regionStep_spec pcs (~~~0, 0)).2.2.2 with hzero | hmem
  · have hle : pc.toNat ≤ 0 := by
      have hpc := (regionEnds_bounds h).2
      rwa [regionEnds, hzero] at hpc
    have hpc : pc = 0 := UInt32.toNat_inj.mp (le_zero.mp hle)
    rw [regionEnds, hzero]
    exact hpc ▸ h
  · exact hmem

/-- Some selected PC lies at or above an address iff the region does. -/
theorem exists_selected_ge_iff (h : pc ∈ pcs) (addr : Nat) :
    (∃ other ∈ pcs, addr ≤ other.toNat) ↔ addr ≤ (regionEnds pcs).2.toNat := by
  constructor
  · rintro ⟨other, hother, hle⟩
    exact hle.trans (regionEnds_bounds hother).2
  · exact fun hle => ⟨_, regionEnds_mem h, hle⟩

/-- The size of the region, as a number. -/
theorem toNat_regionSize (h : pc ∈ pcs) :
    (coverageFilterRegion pcs).2.toNat =
      (regionEnds pcs).2.toNat - (regionEnds pcs).1.toNat := by
  obtain ⟨hlow, hhigh⟩ := regionEnds_bounds h
  exact UInt32.toNat_sub_of_le _ _ (UInt32.le_iff_toNat_le.mpr (hlow.trans hhigh))

theorem toNat_bitmapSize (size : UInt32) : (bitmapSize size).toNat = size.toNat / 128 + 2 := by
  have hsize := size.toNat_lt
  simp [bitmapSize, Nat.shiftRight_eq_div_pow, Nat.div_div_eq_div_mul]
  omega

variable {start : UInt32} {next : UInt64} {bitmap : List UInt8}

theorem toNat_blockOf (h : start.toNat ≤ pc.toNat) :
    (blockOf start pc).toNat = (pc.toNat - start.toNat) / 16 := by
  have hsub := UInt32.toNat_sub_of_le _ _ (UInt32.le_iff_toNat_le.mpr h)
  simp [blockOf, UInt32.toNat_shiftRight, hsub, shiftRight_eq_div_pow]

/-! ### The next instruction -/

theorem and_two_mul (n m : Nat) : n &&& (2 * m) = 2 * (n / 2 &&& m) := by
  apply eq_of_testBit_eq
  intro i
  cases i with
  | zero => simp
  | succ i => rw [testBit_and]; simp [testBit_succ]

/-- Clearing the low bit of a 64-bit word. -/
theorem and_clearLowBit {n : Nat} (h : n < 2 ^ 64) : n &&& 18446744073709551614 = n / 2 * 2 := by
  have hhalf : n / 2 < 2 ^ 63 := by omega
  calc n &&& 18446744073709551614 = 2 * (n / 2 &&& (2 ^ 63 - 1)) := and_two_mul n (2 ^ 63 - 1)
    _ = 2 * (n / 2) := by rw [and_two_pow_sub_one_eq_mod, mod_eq_of_lt hhalf]
    _ = n / 2 * 2 := mul_comm _ _

/-- The address after a PC is at most 8 bytes above it. -/
theorem nextInstructionPC_bounds (h : nextInstructionPC target pc.toUInt64 = some next) :
    pc.toNat ≤ next.toNat ∧ next.toNat ≤ pc.toNat + 8 := by
  obtain ⟨arch, littleEndian⟩ := target
  have hpc := pc.toNat_lt
  have hclear : (pc.toNat + 3) % 18446744073709551616 &&& 18446744073709551614 =
      (pc.toNat + 3) / 2 * 2 := by
    rw [mod_eq_of_lt (by omega), and_clearLowBit (by omega)]
  cases arch <;> simp [nextInstructionPC, instructionLen] at h <;> subst h <;> simp <;> omega

/-- **No address after a selected PC wraps 32 bits**: the architecture is a listed
one and the addresses fit. -/
def NoWrap (target : Target) (pcs : List UInt32) : Prop :=
  ∀ pc ∈ pcs, ∃ next, nextInstructionPC target pc.toUInt64 = some next ∧ next.toNat < 2 ^ 32

/-- The word that the manager files for a selected PC. -/
def nextWord (target : Target) (pc : UInt32) : UInt32 :=
  ((nextInstructionPC target pc.toUInt64).getD 0).toUInt32

theorem NoWrap.toNat_nextWord (h : NoWrap target pcs) (hpc : pc ∈ pcs)
    (hnext : nextInstructionPC target pc.toUInt64 = some next) :
    next.toNat < 2 ^ 32 ∧ (nextWord target pc).toNat = next.toNat := by
  obtain ⟨other, hother, hlt⟩ := h pc hpc
  obtain rfl := some.inj (hnext.symm.trans hother)
  exact ⟨hlt, by simpa [nextWord, hnext] using hlt⟩

/-- The filed word lies in the region, or at most 8 bytes above its end. -/
theorem NoWrap.nextWord_bounds (h : NoWrap target pcs) (hpc : pc ∈ pcs) :
    (regionEnds pcs).1.toNat ≤ (nextWord target pc).toNat ∧
      (nextWord target pc).toNat ≤ (regionEnds pcs).2.toNat + 8 := by
  obtain ⟨next, hnext, _⟩ := h pc hpc
  have hword := (h.toNat_nextWord hpc hnext).2
  have hregion := regionEnds_bounds hpc
  have hstep := nextInstructionPC_bounds hnext
  omega

/-! ### The file -/

/-- The bits that the manager sets. -/
def marks (target : Target) (pcs : List UInt32) : List Nat :=
  pcs.map fun pc => (blockOf (regionEnds pcs).1 (nextWord target pc)).toNat

theorem foldlM_markPC (h : ∀ pc ∈ pcs, ∃ next, nextInstructionPC target pc.toUInt64 = some next)
    (bitmap : List UInt8) :
    pcs.foldlM (markPC target start) bitmap =
      Bitmap.setAll bitmap (pcs.map fun pc => (blockOf start (nextWord target pc)).toNat) := by
  induction pcs generalizing bitmap with
  | nil => rfl
  | cons pc pcs ih =>
    obtain ⟨next, hnext⟩ := h pc mem_cons_self
    have hmark : markPC target start bitmap pc =
        Bitmap.set? bitmap (blockOf start (nextWord target pc)).toNat := by
      simp [markPC, nextWord, hnext]
    rw [foldlM_cons, hmark, Bitmap.setAll, map_cons, foldlM_cons]
    congr 1
    funext mid
    exact ih (fun other hother => h other (mem_cons_of_mem pc hother)) mid

/-- The bitmap has a byte for every block up to 8 bytes above the region. -/
theorem block_in_bitmap {addr : UInt32} (hpc : pc ∈ pcs)
    (hlow : (regionEnds pcs).1.toNat ≤ addr.toNat)
    (hhigh : addr.toNat ≤ (regionEnds pcs).2.toNat + 8) :
    (blockOf (regionEnds pcs).1 addr).toNat / 8 <
      (bitmapSize (coverageFilterRegion pcs).2).toNat := by
  rw [toNat_blockOf hlow, toNat_bitmapSize, toNat_regionSize hpc]
  omega

/-- **The manager writes every bit inside the bitmap**, and the bits it sets are
those of the addresses after the selected PCs. -/
theorem createCoverageBitmap_spec (h : NoWrap target pcs) (hpc : pc ∈ pcs) :
    ∃ bitmap, createCoverageBitmap target pcs =
        some (target.order.store 4 (coverageFilterRegion pcs).1.toNat ++
          (target.order.store 4 (coverageFilterRegion pcs).2.toNat ++ bitmap)) ∧
      bitmap.length = (bitmapSize (coverageFilterRegion pcs).2).toNat ∧
      ∀ j, j / 8 < bitmap.length → Bitmap.test? bitmap j = some (decide (j ∈ marks target pcs)) := by
  have hinside : ∀ k ∈ marks target pcs, k / 8 <
      (List.replicate (bitmapSize (coverageFilterRegion pcs).2).toNat (0 : UInt8)).length := by
    intro k hk
    obtain ⟨other, hother, rfl⟩ := mem_map.mp hk
    have hbounds := h.nextWord_bounds hother
    rw [length_replicate]
    exact block_in_bitmap hother hbounds.1 hbounds.2
  obtain ⟨bitmap, hset, hlen, htest⟩ := Bitmap.setAll_spec hinside
  rw [length_replicate] at hlen
  refine ⟨bitmap, ?_, hlen, fun j hj => ?_⟩
  · have hloop : pcs.foldlM (markPC target (coverageFilterRegion pcs).1)
        (List.replicate (bitmapSize (coverageFilterRegion pcs).2).toNat 0) = some bitmap := by
      rw [foldlM_markPC fun other hother => (h other hother).imp fun _ hnext => hnext.1]
      exact hset
    rw [createCoverageBitmap, if_neg (by simpa using ne_nil_of_mem hpc), hloop]
    rfl
  · rw [htest j, Bitmap.test?_replicate_zero (hlen ▸ hj)]
    simp

/-- **The executor maps what the manager wrote.** -/
theorem initCoverageFilter_file (target : Target) (start size : UInt32)
    (h : bitmap.length = (bitmapSize size).toNat) :
    initCoverageFilter target
        (target.order.store 4 start.toNat ++ (target.order.store 4 size.toNat ++ bitmap)) =
      some { pcstart := start, pcsize := size, bitmap := bitmap } := by
  have hsize := toNat_bitmapSize size
  have hlt := size.toNat_lt
  have hword : UInt32.ofNat (4 + (4 + bitmap.length)) = 8 + bitmapSize size := by
    apply UInt32.toNat_inj.mp
    simp [UInt32.toNat_add, h]
    omega
  simp [initCoverageFilter, drop_append, hword]

/-- **What the executor keeps**: the addresses of the region in a block with a set
bit.  The lookup never leaves the bitmap. -/
theorem coverageFilter_eq (hpc : pc ∈ pcs)
    (hlen : bitmap.length = (bitmapSize (coverageFilterRegion pcs).2).toNat)
    (htest : ∀ j, j / 8 < bitmap.length →
      Bitmap.test? bitmap j = some (decide (j ∈ marks target pcs)))
    (addr : UInt64) :
    coverageFilter
        { pcstart := (coverageFilterRegion pcs).1, pcsize := (coverageFilterRegion pcs).2,
          bitmap := bitmap } addr =
      some (decide ((regionEnds pcs).1.toNat ≤ addr.toUInt32.toNat ∧
        addr.toUInt32.toNat ≤ (regionEnds pcs).2.toNat ∧
        (blockOf (regionEnds pcs).1 addr.toUInt32).toNat ∈ marks target pcs)) := by
  have hregion := regionEnds_bounds hpc
  have hend : (regionEnds pcs).1 + (coverageFilterRegion pcs).2 = (regionEnds pcs).2 := by
    show (regionEnds pcs).1 + ((regionEnds pcs).2 - (regionEnds pcs).1) = _
    rw [add_sub_cancel]
  have hstart : (coverageFilterRegion pcs).1 = (regionEnds pcs).1 := rfl
  simp only [coverageFilter, hstart, hend, lt_iff_toNat_lt, gt_iff_lt]
  by_cases hout : addr.toUInt32.toNat < (regionEnds pcs).1.toNat ∨
      (regionEnds pcs).2.toNat < addr.toUInt32.toNat
  · rw [if_pos hout]
    congr 1
    apply Eq.symm
    apply decide_eq_false
    omega
  · have hlow : (regionEnds pcs).1.toNat ≤ addr.toUInt32.toNat := by omega
    have hhigh : addr.toUInt32.toNat ≤ (regionEnds pcs).2.toNat := by omega
    rw [if_neg hout, htest _ (hlen ▸ block_in_bitmap hpc hlow (hhigh.trans (le_add_right _ 8)))]
    simp only [hlow, hhigh, true_and]

/-! ### End to end -/

/-- Two addresses of the same 16-byte block, counted from the start of the region. -/
def SameBlock (pcs : List UInt32) (addr next : UInt64) : Prop :=
  (coverageFilterRegion pcs).1.toNat ≤ addr.toUInt32.toNat ∧
    (addr.toUInt32.toNat - (coverageFilterRegion pcs).1.toNat) / 16 =
      (next.toNat - (coverageFilterRegion pcs).1.toNat) / 16

/-- **The filter works for the address `next` that is reported for a selected PC**:
the manager writes the file without leaving its bitmap, the executor maps it and
keeps `next`, and of all reported addresses it keeps only those in the block of an
address after a selected PC, without reading outside the bitmap. -/
def FilterWorks (target : Target) (pcs : List UInt32) (next : UInt64) : Prop :=
  ∃ data filter, createCoverageBitmap target pcs = some data ∧
    initCoverageFilter target data = some filter ∧
    coverageFilter filter next = some true ∧
    ∀ addr, ∃ keep, coverageFilter filter addr = some keep ∧
      (keep = true → ∃ sel ∈ pcs, ∃ selNext,
        nextInstructionPC target sel.toUInt64 = some selNext ∧ SameBlock pcs addr selNext)

/-- A set bit belongs to the address after some selected PC. -/
theorem NoWrap.sameBlock_of_mem_marks (h : NoWrap target pcs) {addr : UInt64}
    (hlow : (regionEnds pcs).1.toNat ≤ addr.toUInt32.toNat)
    (hmem : (blockOf (regionEnds pcs).1 addr.toUInt32).toNat ∈ marks target pcs) :
    ∃ sel ∈ pcs, ∃ selNext, nextInstructionPC target sel.toUInt64 = some selNext ∧
      SameBlock pcs addr selNext := by
  obtain ⟨sel, hsel, hblock⟩ := mem_map.mp hmem
  obtain ⟨selNext, hnext, _⟩ := h sel hsel
  have hword := (h.toNat_nextWord hsel hnext).2
  rw [toNat_blockOf (h.nextWord_bounds hsel).1, toNat_blockOf hlow, hword] at hblock
  exact ⟨sel, hsel, selNext, hnext, hlow, hblock.symm⟩

/-- **The address reported for a selected PC passes the filter iff it does not lie
above every selected PC.**  Everything else holds for every set of PCs. -/
theorem filterWorks_iff {target : Target} {pcs : List UInt32} (h : NoWrap target pcs)
    {pc : UInt32} (hpc : pc ∈ pcs) {next : UInt64}
    (hnext : nextInstructionPC target pc.toUInt64 = some next) :
    FilterWorks target pcs next ↔ ∃ other ∈ pcs, next.toNat ≤ other.toNat := by
  obtain ⟨bitmap, hcreate, hlen, htest⟩ := createCoverageBitmap_spec h hpc
  have hinit := initCoverageFilter_file target (coverageFilterRegion pcs).1 _ hlen
  have hkeeps := coverageFilter_eq hpc hlen htest
  obtain ⟨hlt, hword⟩ := h.toNat_nextWord hpc hnext
  have hnextWord : next.toUInt32 = nextWord target pc := by simp [nextWord, hnext]
  rw [exists_selected_ge_iff hpc]
  constructor
  · rintro ⟨data, filter, hdata, hfilter, hkeep, -⟩
    obtain rfl := some.inj (hcreate.symm.trans hdata)
    obtain rfl := some.inj (hinit.symm.trans hfilter)
    rw [hkeeps next, some.injEq, decide_eq_true_iff, hnextWord, hword] at hkeep
    exact hkeep.2.1
  · intro hle
    refine ⟨_, _, hcreate, hinit, ?_, fun addr => ⟨_, hkeeps addr, fun hkeep => ?_⟩⟩
    · -- The bit of `next` was set when the manager came to `pc`.
      have hmark : (blockOf (regionEnds pcs).1 (nextWord target pc)).toNat ∈ marks target pcs :=
        mem_map.mpr ⟨pc, hpc, rfl⟩
      rw [hkeeps next, some.injEq, decide_eq_true_iff, hnextWord]
      exact ⟨(h.nextWord_bounds hpc).1, hword ▸ hle, hmark⟩
    · have hin := of_decide_eq_true hkeep
      exact h.sameBlock_of_mem_marks hin.1 hin.2.2

/-- The first of two selected PCs on AMD64 is reported inside the region. -/
theorem filterWorks_first :
    FilterWorks ⟨.AMD64, true⟩ [0x81000000, 0x81000100] 0x81000005 := by
  have hnowrap : NoWrap ⟨.AMD64, true⟩ [0x81000000, 0x81000100] := by
    intro pc hpc
    simp only [mem_cons, not_mem_nil, or_false] at hpc
    rcases hpc with rfl | rfl
    · exact ⟨0x81000005, by decide +kernel, by decide⟩
    · exact ⟨0x81000105, by decide +kernel, by decide⟩
  have hnext : nextInstructionPC ⟨.AMD64, true⟩ (0x81000000 : UInt32).toUInt64 =
      some 0x81000005 := by decide +kernel
  exact (filterWorks_iff hnowrap mem_cons_self hnext).mpr
    ⟨0x81000100, by simp, by decide⟩

/-- The last one is reported above it, and filtered out. -/
theorem filterWorks_last_lost :
    ¬ FilterWorks ⟨.AMD64, true⟩ [0x81000000, 0x81000100] 0x81000105 := by
  rintro ⟨data, filter, hdata, hfilter, hkeep, -⟩
  have hrun : ((createCoverageBitmap ⟨.AMD64, true⟩ [0x81000000, 0x81000100]).bind
      (initCoverageFilter ⟨.AMD64, true⟩)).bind (coverageFilter · 0x81000105) = some false := by
    decide +kernel
  rw [hdata, bind_some, hfilter, bind_some, hkeep] at hrun
  cases hrun

end Sect.Cover
