import SectProof.StepRuns

/-! # Memory allocation

`memAlloc` keeps a bit for each granule of 64 bytes, in words of chunks that are created
when a bit of theirs is set first.  **An allocation gets the lowest address whose granules
are free**; if there is none the allocator forgets all regions and starts again. -/

open Nat

namespace Sect.Alloc

def memAllocGranule : Nat := 64
def memAllocMaxMem : Nat := 16 * 2 ^ 20
def memAllocL0Size : Nat := 64
def bitsPerUint64 : Nat := 64
def memAllocL0Mem : Nat := memAllocL0Size * memAllocGranule * bitsPerUint64
def memAllocL1Size : Nat := memAllocMaxMem / memAllocL0Mem

/-- The number of granules of the arena, and the chunks. -/
structure MemAlloc where
  size : Nat
  mem : Nat → Option (Nat → BitVec 64)

namespace MemAlloc

def new (totalMemSize : Nat) : Option MemAlloc :=
  if totalMemSize > memAllocMaxMem then none
  else if totalMemSize % memAllocL0Mem ≠ 0 then none
  else some ⟨totalMemSize / memAllocGranule, fun i1 => if i1 = 0 then some fun _ => 0 else none⟩

/-- The chunk, the word and the bit of a granule. -/
def pos (idx : Nat) : Nat × Nat × BitVec 64 :=
  let r1 := idx % (memAllocL0Size * bitsPerUint64)
  (idx / (memAllocL0Size * bitsPerUint64), r1 / bitsPerUint64, .twoPow 64 (r1 % bitsPerUint64))

/-- A chunk that is not there yet is created. -/
def setBit (ma : MemAlloc) (i1 i0 : Nat) (bit : BitVec 64) : MemAlloc :=
  let chunk := (ma.mem i1).getD fun _ => 0
  { ma with mem := Function.update ma.mem i1 (Function.update chunk i0 (chunk i0 ||| bit)) }

/-- `none` for an index out of range. -/
def set (ma : MemAlloc) (idx : Nat) : Option MemAlloc :=
  let (i1, i0, bit) := pos idx
  if i1 ≥ memAllocL1Size then none else some (ma.setBit i1 i0 bit)

def get (ma : MemAlloc) (idx : Nat) : Option Bool :=
  let (i1, i0, bit) := pos idx
  if i1 ≥ memAllocL1Size then none
  else
    match ma.mem i1 with
    | none => some false
    | some chunk => some (decide (chunk i0 &&& bit ≠ 0))

def noteAlloc (ma : MemAlloc) (addr0 size0 : Nat) : Option MemAlloc :=
  let addr := addr0 / memAllocGranule
  let size := (addr0 + size0 + memAllocGranule - 1) / memAllocGranule - addr
  (List.range' addr size).foldlM set ma

def bankruptcy (ma : MemAlloc) : MemAlloc :=
  { ma with mem := fun i1 =>
      if i1 < ma.size / (memAllocL0Size * bitsPerUint64) then (ma.mem i1).map fun _ _ => 0
      else ma.mem i1 }

/-- The loop over the granules of a region. -/
def isEmpty (ma : MemAlloc) : Nat → Nat → Option Bool
  | 0, _ => some true
  | n + 1, idx => do if ← ma.get idx then some false else ma.isEmpty n (idx + 1)

/-- The loop over the places for a region; `none` also if the fuel runs out. -/
def search (ma : MemAlloc) (size alignment last : Nat) : Nat → Nat → Option (Option Nat)
  | 0, _ => none
  | fuel + 1, start =>
    if start > last then some none
    else do
      if ← ma.isEmpty size start then some (some start)
      else ma.search size alignment last fuel (start + alignment)

/-- `none` stands for a panic and for running out of fuel, of which each attempt takes one. -/
def alloc : Nat → MemAlloc → Nat → Nat → Option (Nat × MemAlloc)
  | 0, _, _, _ => none
  | fuel + 1, ma, size0, alignment0 =>
    let size0 := if size0 = 0 then 1 else size0
    let alignment0 := if alignment0 = 0 then 1 else alignment0
    let size := (size0 + memAllocGranule - 1) / memAllocGranule
    let alignment := (alignment0 + memAllocGranule - 1) / memAllocGranule
    let last := (ma.size + 2 ^ 64 - size) % 2 ^ 64
    (ma.search size alignment last (last + 2) 0).bind fun
      | some start =>
        (ma.noteAlloc (start * memAllocGranule) size0).map (start * memAllocGranule, ·)
      | none => alloc fuel ma.bankruptcy size0 alignment0

end MemAlloc

/-! ## Bits -/

namespace MemAlloc

variable {ma ma' : MemAlloc}

/-- The number of granules that there are bits for. -/
def maxGranules : Nat := memAllocMaxMem / memAllocGranule

theorem pos_eq (idx : Nat) : pos idx = (idx / 4096, idx % 4096 / 64, .twoPow 64 (idx % 64)) := by
  have hbit : idx % 4096 % 64 = idx % 64 := by omega
  exact hbit ▸ rfl

theorem chunk_lt {idx : Nat} (h : idx < maxGranules) : ¬ idx / 4096 ≥ memAllocL1Size := by
  have hmax : maxGranules = 262144 := rfl
  have hsize : memAllocL1Size = 64 := rfl
  omega

def word (ma : MemAlloc) (i1 i0 : Nat) : BitVec 64 := (ma.mem i1).getD (fun _ => 0) i0

/-- Whether a granule is marked. -/
def Used (ma : MemAlloc) (idx : Nat) : Prop :=
  (ma.word (idx / 4096) (idx % 4096 / 64)).getLsbD (idx % 64) = true

theorem get_spec {idx : Nat} (h : idx < maxGranules) :
    ∃ b, ma.get idx = some b ∧ (b = true ↔ ma.Used idx) := by
  have hne : BitVec.twoPow 64 (idx % 64) ≠ 0#64 := fun heq => by
    have hset := congrArg (BitVec.getLsbD · (idx % 64)) heq
    have hlt : idx % 64 < 64 := mod_lt _ (by decide)
    simp at hset
    omega
  rw [get, pos_eq]
  dsimp only
  rw [if_neg (chunk_lt h), Used, word]
  cases ma.mem (idx / 4096) with
  | none => exact ⟨false, rfl, by simp⟩
  | some chunk =>
    refine ⟨_, rfl, ?_⟩
    rw [decide_eq_true_iff, BitVec.and_twoPow]
    cases h : (chunk (idx % 4096 / 64)).getLsbD (idx % 64) with
    | true => simpa [h] using hne
    | false => simp [h]

theorem used_setBit (idx j : Nat) :
    (ma.setBit (idx / 4096) (idx % 4096 / 64) (.twoPow 64 (idx % 64))).Used j ↔
      ma.Used j ∨ j = idx := by
  have hword : ∀ i1 i0 i1' i0' bit, (ma.setBit i1 i0 bit).word i1' i0' =
      if i1' = i1 ∧ i0' = i0 then ma.word i1 i0 ||| bit else ma.word i1' i0' := by
    intro i1 i0 i1' i0' bit
    rw [setBit, word, word, word]
    dsimp only
    by_cases h1 : i1' = i1
    · subst h1
      rw [Function.update_self, Option.getD_some, Function.update_apply]
      simp
    · rw [Function.update_of_ne h1, if_neg fun h => h1 h.1]
  rw [Used, Used, hword]
  split
  · next hpos =>
      have hlt : idx % 64 < 64 := mod_lt _ (by decide)
      have hbit : idx % 64 = j % 64 ↔ j = idx := by omega
      simp [hpos, hlt, hbit]
  · next hpos =>
      have hne : j ≠ idx := fun heq => hpos ⟨heq ▸ rfl, heq ▸ rfl⟩
      simp [hne]

theorem set_spec {idx : Nat} (h : idx < maxGranules) : ∃ ma', ma.set idx = some ma' ∧
    ma'.size = ma.size ∧ ∀ j, ma'.Used j ↔ ma.Used j ∨ j = idx := by
  refine ⟨ma.setBit _ _ _, ?_, rfl, used_setBit idx⟩
  rw [set, pos_eq]
  exact if_neg (chunk_lt h)

theorem setAll_spec (n : Nat) : ∀ {ma : MemAlloc} {addr : Nat}, addr + n ≤ maxGranules →
    ∃ ma', (List.range' addr n).foldlM set ma = some ma' ∧ ma'.size = ma.size ∧
      ∀ j, ma'.Used j ↔ ma.Used j ∨ (addr ≤ j ∧ j < addr + n) := by
  induction n with
  | zero => exact fun {ma addr} _ => ⟨ma, rfl, rfl, by grind⟩
  | succ n ih =>
    intro ma addr h
    obtain ⟨ma₁, hset, hsize₁, hused₁⟩ := @set_spec ma addr (by omega)
    obtain ⟨ma₂, hrest, hsize₂, hused₂⟩ := @ih ma₁ (addr + 1) (by omega)
    refine ⟨ma₂, ?_, hsize₂.trans hsize₁, fun j => ?_⟩
    · rw [List.range'_succ, List.foldlM_cons, hset]
      exact hrest
    · grind

/-! ## Regions -/

end MemAlloc

/-- The bytes of a region. -/
structure Region where
  addr : Nat
  size : Nat

/-- The granules of a region, those it has only a part of included. -/
def Region.Covers (r : Region) (idx : Nat) : Prop :=
  r.addr / memAllocGranule ≤ idx ∧ idx < (r.addr + r.size + memAllocGranule - 1) / memAllocGranule

namespace MemAlloc

variable {ma ma' : MemAlloc}

theorem noteAlloc_spec {addr size : Nat} (h : addr + size ≤ memAllocMaxMem) :
    ∃ ma', ma.noteAlloc addr size = some ma' ∧ ma'.size = ma.size ∧
      ∀ j, ma'.Used j ↔ ma.Used j ∨ Region.Covers ⟨addr, size⟩ j := by
  have hmax : memAllocMaxMem = 16777216 := rfl
  have hbits : maxGranules = 262144 := rfl
  obtain ⟨ma', hok, hsize, hused⟩ := @setAll_spec ((addr + size + 63) / 64 - addr / 64) ma
    (addr / 64) (by omega)
  refine ⟨ma', hok, hsize, fun j => ?_⟩
  rw [hused, Region.Covers, memAllocGranule]
  refine or_congr_right ?_
  dsimp only
  omega

theorem isEmpty_spec (n : Nat) : ∀ {idx : Nat}, idx + n ≤ maxGranules →
    ∃ b, ma.isEmpty n idx = some b ∧ (b = true ↔ ∀ j, idx ≤ j → j < idx + n → ¬ ma.Used j) := by
  induction n with
  | zero => exact fun {idx} _ => ⟨true, rfl, by grind⟩
  | succ n ih =>
    intro idx h
    obtain ⟨b, hget, hb⟩ := @get_spec ma idx (by omega)
    obtain ⟨b', hrest, hb'⟩ := @ih (idx + 1) (by omega)
    rw [isEmpty, hget]
    cases b with
    | true => exact ⟨false, rfl, by grind⟩
    | false => exact ⟨b', hrest, by grind⟩

/-- The granules of the place are free. -/
def Free (ma : MemAlloc) (size place : Nat) : Prop :=
  ∀ j, place ≤ j → j < place + size → ¬ ma.Used j

/-- **The search finds the first free place.** -/
theorem search_spec {size alignment last : Nat} (hlast : last + size ≤ maxGranules)
    (fuel : Nat) : ∀ {k : Nat}, last < (k + fuel) * alignment →
    (∀ i < k, ¬ ma.Free size (i * alignment)) →
    ∃ found, ma.search size alignment last (fuel + 1) (k * alignment) = some found ∧
      (∀ place, found = some place →
        IsLeast {p | alignment ∣ p ∧ p ≤ last ∧ ma.Free size p} place) ∧
      (found = none → ∀ p, alignment ∣ p → p ≤ last → ¬ ma.Free size p) := by
  have hover : ∀ {k : Nat}, k * alignment > last → (∀ i < k, ¬ ma.Free size (i * alignment)) →
      ∀ p, alignment ∣ p → p ≤ last → ¬ ma.Free size p := by
    rintro k hk hbefore _ ⟨i, rfl⟩ hp
    rw [mul_comm] at hp ⊢
    exact hbefore i (Nat.lt_of_mul_lt_mul_right (Nat.lt_of_le_of_lt hp hk))
  induction fuel with
  | zero =>
    intro k hk hbefore
    rw [add_zero] at hk
    rw [search, if_pos hk]
    exact ⟨none, rfl, nofun, fun _ => hover hk hbefore⟩
  | succ fuel ih =>
    intro k hk hbefore
    rw [search]
    split
    · next hstart => exact ⟨none, rfl, nofun, fun _ => hover hstart hbefore⟩
    next hstart =>
      obtain ⟨b, hempty, hb⟩ := @isEmpty_spec ma size (k * alignment) (by omega)
      rw [hempty]
      cases b with
      | true =>
        refine ⟨_, rfl, ?_, nofun⟩
        rintro _ ⟨⟩
        refine ⟨⟨dvd_mul_left _ _, le_of_not_gt hstart, hb.mp rfl⟩, ?_⟩
        rintro _ ⟨⟨i, rfl⟩, -, hfree⟩
        rw [mul_comm] at hfree
        rw [mul_comm alignment]
        exact Nat.mul_le_mul_right _ (Nat.le_of_not_lt fun hlt => hbefore i hlt hfree)
      | false =>
        have hnext := @ih (k + 1) (by rwa [add_right_comm]) fun i hi => by
          rcases Nat.lt_succ_iff_lt_or_eq.mp hi with hi | rfl
          · exact hbefore i hi
          · exact fun hfree => Bool.false_ne_true (hb.mpr hfree)
        rwa [succ_mul] at hnext

theorem used_bankruptcy (j : Nat) :
    ma.bankruptcy.Used j ↔ ma.Used j ∧ ¬ j / 4096 < ma.size / 4096 := by
  have hmem : ma.bankruptcy.mem (j / 4096) = if j / 4096 < ma.size / 4096 then
      (ma.mem (j / 4096)).map fun _ _ => 0 else ma.mem (j / 4096) := rfl
  rw [Used, Used, word, word, hmem]
  split
  · next h => cases ma.mem (j / 4096) <;> simp [h]
  · next h => simp [h]

end MemAlloc

/-! ## Allocations -/

/-- A place for a region: aligned, inside the arena, without granules of live regions. -/
structure Fits (arena : Nat) (live : List Region) (size alignment addr : Nat) : Prop where
  granule : memAllocGranule ∣ addr
  aligned : max alignment 1 ∣ addr
  inside : addr + max size 1 ≤ arena
  apart : ∀ r ∈ live, ∀ idx, r.Covers idx → ¬ Region.Covers ⟨addr, max size 1⟩ idx

/-- The marked granules are those of the regions noted and allocated. -/
structure Tracks (arena : Nat) (ma : MemAlloc) (live : List Region) : Prop where
  arena : arena = ma.size * 64
  bound : ma.size ≤ 262144
  chunks : ma.size % 4096 = 0
  used : ∀ j, ma.Used j ↔ ∃ r ∈ live, r.Covers j
  inside : ∀ j, ma.Used j → j < ma.size

theorem dvd_place {alignment : Nat} (h : alignment = 0 ∨ ∃ k, alignment = 2 ^ k) (place : Nat) :
    max alignment 1 ∣ 64 * place ↔ (max alignment 1 + 63) / 64 ∣ place := by
  have hpow : ∀ k, 2 ^ k ∣ 64 * place ↔ (2 ^ k + 63) / 64 ∣ place := by
    intro k
    rcases le_total k 6 with hk | hk
    · have hone : (2 ^ k + 63) / 64 = 1 := by
        have hle := Nat.pow_le_pow_right (n := 2) (by decide) hk
        have hpos := Nat.two_pow_pos k
        omega
      rw [hone]
      exact iff_of_true ((pow_dvd_pow 2 hk).trans (dvd_mul_right 64 place)) (one_dvd _)
    · obtain ⟨n, rfl⟩ := Nat.exists_eq_add_of_le hk
      have hdiv : (2 ^ (6 + n) + 63) / 64 = 2 ^ n := by
        rw [pow_add]
        omega
      rw [hdiv, pow_add]
      exact mul_dvd_mul_iff_left (by decide)
  rcases h with rfl | ⟨k, rfl⟩
  · exact hpow 0
  · rw [max_eq_left (Nat.one_le_two_pow)]
    exact hpow k

namespace Tracks

variable {arena size alignment : Nat} {ma : MemAlloc} {live : List Region}

/-- Places in granules and in bytes. -/
theorem fits_iff (h : Tracks arena ma live)
    (halign : alignment = 0 ∨ ∃ k, alignment = 2 ^ k) (place : Nat) :
    Fits arena live size alignment (64 * place) ↔ (max alignment 1 + 63) / 64 ∣ place ∧
      place + (max size 1 + 63) / 64 ≤ ma.size ∧ ma.Free ((max size 1 + 63) / 64) place := by
  have harena := h.arena
  have hcovers : ∀ j, Region.Covers ⟨64 * place, max size 1⟩ j ↔
      place ≤ j ∧ j < place + (max size 1 + 63) / 64 := by
    intro j
    rw [Region.Covers, memAllocGranule]
    dsimp only
    omega
  have hfree : ma.Free ((max size 1 + 63) / 64) place ↔
      ∀ r ∈ live, ∀ idx, r.Covers idx → ¬ Region.Covers ⟨64 * place, max size 1⟩ idx := by
    simp only [MemAlloc.Free, h.used, hcovers]
    grind
  rw [← dvd_place halign, hfree]
  refine ⟨fun hfit => ⟨hfit.aligned, ?_, hfit.apart⟩, fun ⟨hdvd, hle, hapart⟩ =>
    ⟨dvd_mul_right 64 place, hdvd, ?_, hapart⟩⟩
  · have hin := hfit.inside
    omega
  · omega

theorem note (h : Tracks arena ma live) (r : Region) (hr : r.addr + r.size ≤ arena) :
    ∃ ma', ma.noteAlloc r.addr r.size = some ma' ∧ Tracks arena ma' (live ++ [r]) := by
  have harena := h.arena
  have hmax : memAllocMaxMem = 16777216 := rfl
  have hle := h.bound
  obtain ⟨ma', hok, hsize, hused⟩ := @MemAlloc.noteAlloc_spec ma r.addr r.size (by omega)
  refine ⟨ma', hok, hsize ▸ harena, hsize ▸ hle, hsize ▸ h.chunks, fun j => ?_, fun j hj => ?_⟩
  · rw [hused, h.used]
    simp [or_and_right, exists_or]
  rw [hsize]
  rcases (hused j).mp hj with hj | hj
  · exact h.inside j hj
  · rw [Region.Covers, memAllocGranule] at hj
    dsimp only at hj
    omega

theorem bankruptcy (h : Tracks arena ma live) : Tracks arena ma.bankruptcy [] := by
  have hnone : ∀ j, ¬ ma.bankruptcy.Used j := by
    intro j hj
    obtain ⟨hused, hout⟩ := (MemAlloc.used_bankruptcy j).mp hj
    have hin := h.inside j hused
    have hchunks := h.chunks
    omega
  exact ⟨h.arena, h.bound, h.chunks, fun j => iff_of_false (hnone j) (by simp),
    fun j hj => absurd hj (hnone j)⟩

/-- One attempt: the lowest place, or a bankruptcy if there is none. -/
theorem attempt (h : Tracks arena ma live) (hsize : max size 1 ≤ arena)
    (halign : alignment = 0 ∨ ∃ k, alignment = 2 ^ k) :
    (∃ addr ma', (∀ fuel, ma.alloc (fuel + 1) size alignment = some (addr, ma')) ∧
      IsLeast {a | Fits arena live size alignment a} addr ∧
      Tracks arena ma' (live ++ [⟨addr, max size 1⟩])) ∨
    ((∀ a, ¬ Fits arena live size alignment a) ∧ ∀ fuel, ma.alloc (fuel + 1) size alignment =
      ma.bankruptcy.alloc fuel (max size 1) (max alignment 1)) := by
  have harena := h.arena
  have hmax := h.bound
  have hmax₁ : ∀ n : Nat, (if n = 0 then 1 else n) = max n 1 := by
    intro n
    split <;> omega
  have hlast : (ma.size + 2 ^ 64 - (max size 1 + 63) / 64) % 2 ^ 64 =
      ma.size - (max size 1 + 63) / 64 := by
    omega
  have hbound : ma.size - (max size 1 + 63) / 64 + (max size 1 + 63) / 64 ≤
      MemAlloc.maxGranules := by
    have hbits : MemAlloc.maxGranules = 262144 := rfl
    omega
  obtain ⟨found, hsearch, hsome, hnone⟩ := @MemAlloc.search_spec ma _
    ((max alignment 1 + 63) / 64) _ hbound (ma.size - (max size 1 + 63) / 64 + 1) 0 (by
      have hpos : 0 < (max alignment 1 + 63) / 64 := by omega
      rw [zero_add]
      exact Nat.lt_of_lt_of_le (Nat.lt_succ_self _) (Nat.le_mul_of_pos_right _ hpos)) nofun
  rw [zero_mul, ← hlast] at hsearch
  have halloc : ∀ fuel, ma.alloc (fuel + 1) size alignment = (some found).bind fun
      | some start => (ma.noteAlloc (start * 64) (max size 1)).map (start * 64, ·)
      | none => ma.bankruptcy.alloc fuel (max size 1) (max alignment 1) := by
    intro fuel
    rw [MemAlloc.alloc, hmax₁, hmax₁, ← hsearch]
    rfl
  cases found with
  | none =>
    refine .inr ⟨fun a hfit => ?_, halloc⟩
    obtain ⟨place, rfl⟩ := hfit.granule
    obtain ⟨hdvd, hle, hfree⟩ := (h.fits_iff halign place).mp hfit
    exact hnone rfl place hdvd (le_sub_of_add_le hle) hfree
  | some start =>
    obtain ⟨⟨hdvd, hle, hfree⟩, hlowest⟩ := hsome start rfl
    have hfit := (h.fits_iff halign start).mpr ⟨hdvd, by omega, hfree⟩
    obtain ⟨ma', hnote, htracks⟩ := h.note ⟨64 * start, max size 1⟩ hfit.inside
    refine .inl ⟨64 * start, ma', fun fuel => ?_, ⟨hfit, ?_⟩, htracks⟩
    · rw [halloc, Option.bind_some]
      dsimp only at hnote ⊢
      rw [mul_comm start, hnote, Option.map_some]
    · rintro a hfit'
      obtain ⟨place, rfl⟩ := hfit'.granule
      obtain ⟨hdvd', hle', hfree'⟩ := (h.fits_iff halign place).mp hfit'
      exact mul_le_mul_left 64 (hlowest ⟨hdvd', le_sub_of_add_le hle', hfree'⟩)

end Tracks

/-- The requests, and the regions since the last bankruptcy beside the allocator. -/
inductive MemOp
  | noteAlloc (addr size : Nat)
  | alloc (size alignment : Nat)

/-- Without a second attempt an allocation fails where a bankruptcy is due. -/
def MemAlloc.step (st : MemAlloc × List Region) : MemOp → Option (MemAlloc × List Region)
  | .noteAlloc addr size => (st.1.noteAlloc addr size).map (·, st.2 ++ [⟨addr, size⟩])
  | .alloc size alignment => (st.1.alloc 2 size alignment).map fun res =>
      (res.2, (if (st.1.alloc 1 size alignment).isSome then st.2 else []) ++
        [⟨res.1, max size 1⟩])

/-- A request within the arena; one of no bytes counts as one byte. -/
def MemOp.Within (arena : Nat) : MemOp → Prop
  | .noteAlloc addr size => addr + size ≤ arena
  | .alloc size alignment => max size 1 ≤ arena ∧ (alignment = 0 ∨ ∃ k, alignment = 2 ^ k)

namespace Tracks

variable {arena size alignment : Nat} {ma : MemAlloc} {live : List Region}

/-- **An allocation gets the lowest place**, after a bankruptcy if there was none. -/
theorem alloc (h : Tracks arena ma live) (hreq : (MemOp.alloc size alignment).Within arena) :
    ∃ addr ma' live', (∀ fuel, ma.alloc (fuel + 2) size alignment = some (addr, ma')) ∧
      (live' = if (ma.alloc 1 size alignment).isSome then live else []) ∧
      (ma.alloc 1 size alignment = none → ∀ a, ¬ Fits arena live size alignment a) ∧
      IsLeast {a | Fits arena live' size alignment a} addr ∧
      Tracks arena ma' (live' ++ [⟨addr, max size 1⟩]) := by
  obtain ⟨hsize, halign⟩ := hreq
  rcases h.attempt hsize halign with ⟨addr, ma', hok, hleast, htracks⟩ | ⟨hnone, hretry⟩
  · refine ⟨addr, ma', live, fun fuel => hok (fuel + 1), ?_, ?_, hleast, htracks⟩
    · rw [hok 0]
      rfl
    · rw [hok 0]
      exact nofun
  · -- after the bankruptcy address 0 is free
    have hmax : ∀ n : Nat, max (max n 1) 1 = max n 1 := by omega
    have hfits : ∀ a, Fits arena [] (max size 1) (max alignment 1) a ↔
        Fits arena [] size alignment a := by
      intro a
      constructor
      · rintro ⟨h1, h2, h3, -⟩
        rw [hmax] at h2 h3
        exact ⟨h1, h2, h3, by simp⟩
      · rintro ⟨h1, h2, h3, -⟩
        exact ⟨h1, (hmax alignment).symm ▸ h2, (hmax size).symm ▸ h3, by simp⟩
    have halign' : max alignment 1 = 0 ∨ ∃ k, max alignment 1 = 2 ^ k := by
      rcases halign with rfl | ⟨k, rfl⟩
      · exact .inr ⟨0, rfl⟩
      · exact .inr ⟨k, max_eq_left Nat.one_le_two_pow⟩
    have hzero : Fits arena [] (max size 1) (max alignment 1) 0 :=
      ⟨dvd_zero _, dvd_zero _, by rw [hmax]; omega, by simp⟩
    obtain ⟨addr, ma', hok, hleast, htracks⟩ :=
      (h.bankruptcy.attempt (by rwa [hmax]) halign').resolve_right fun ⟨hnot, _⟩ => hnot 0 hzero
    refine ⟨addr, ma', [], fun fuel => (hretry (fuel + 1)).trans (hok fuel), ?_, fun _ => hnone, ?_,
      ?_⟩
    · rw [hretry 0]
      rfl
    · simpa only [hfits] using hleast
    · rwa [hmax] at htracks

/-- Requests within the arena succeed. -/
theorem step (h : Tracks arena ma live) {op : MemOp} (hop : op.Within arena) :
    ∃ st, MemAlloc.step (ma, live) op = some st ∧ Tracks arena st.1 st.2 := by
  cases op with
  | noteAlloc addr size =>
    obtain ⟨ma', hok, htracks⟩ := h.note ⟨addr, size⟩ hop
    refine ⟨(_, _), ?_, htracks⟩
    rw [MemAlloc.step, hok, Option.map_some]
  | alloc size alignment =>
    obtain ⟨addr, ma', live', hok, rfl, -, -, htracks⟩ := h.alloc hop
    refine ⟨(_, _), ?_, htracks⟩
    rw [MemAlloc.step, hok 0, Option.map_some]

end Tracks

theorem tracks_new {arena : Nat} {ma : MemAlloc} (h : MemAlloc.new arena = some ma) :
    Tracks arena ma [] := by
  rw [MemAlloc.new] at h
  have hmem : memAllocMaxMem = 16777216 := rfl
  have hchunk : memAllocL0Mem = 262144 := rfl
  have hgranule : memAllocGranule = 64 := rfl
  rw [hmem, hchunk, hgranule] at h
  split at h
  · cases h
  split at h
  · cases h
  cases h
  have hfree : ∀ j, ¬ MemAlloc.Used ⟨arena / 64, fun i1 =>
      if i1 = 0 then some fun _ => 0 else none⟩ j := by
    intro j
    rw [MemAlloc.Used, MemAlloc.word]
    dsimp only
    split <;> simp
  refine ⟨?_, ?_, ?_, fun j => iff_of_false (hfree j) (by simp), fun j hj =>
    absurd hj (hfree j)⟩
  all_goals
    dsimp only
    omega

/-- **Every allocation terminates and gets the lowest place** among those that share no
granule with a region noted or allocated since the last bankruptcy. -/
theorem memAlloc_lowest (arena size alignment : Nat) (ops : List MemOp) (ma₀ : MemAlloc)
    (hnew : MemAlloc.new arena = some ma₀) (hops : ∀ op ∈ ops, op.Within arena)
    (hreq : (MemOp.alloc size alignment).Within arena) :
    ∃ ma live, StepRuns.run MemAlloc.step (ma₀, []) ops = some (ma, live) ∧
      ∃ addr ma', (∀ fuel, ma.alloc (fuel + 2) size alignment = some (addr, ma')) ∧
        IsLeast {a | Fits arena (if (ma.alloc 1 size alignment).isSome then live else []) size
          alignment a} addr ∧
        (ma.alloc 1 size alignment = none → ∀ a, ¬ Fits arena live size alignment a) := by
  have hrun : ∀ (ops : List MemOp) (st : MemAlloc × List Region), (∀ op ∈ ops, op.Within arena) →
      Tracks arena st.1 st.2 →
      ∃ st', StepRuns.run MemAlloc.step st ops = some st' ∧ Tracks arena st'.1 st'.2 := by
    intro ops
    induction ops with
    | nil => exact fun st _ h => ⟨st, rfl, h⟩
    | cons op ops ih =>
      intro st hops h
      obtain ⟨hop, hops⟩ := List.forall_mem_cons.mp hops
      obtain ⟨st₁, hstep, h₁⟩ := h.step hop
      obtain ⟨st₂, hrest, h₂⟩ := ih st₁ hops h₁
      exact ⟨st₂, by rw [StepRuns.run, hstep]; exact hrest, h₂⟩
  obtain ⟨⟨ma, live⟩, hok, htracks⟩ := hrun ops (ma₀, []) hops (tracks_new hnew)
  obtain ⟨addr, ma', live', halloc, rfl, hnone, hleast, -⟩ := htracks.alloc hreq
  exact ⟨ma, live, hok, addr, ma', halloc, hleast, hnone⟩

/-- One page in the smallest arena. -/
theorem memAlloc_lowest_page : (MemOp.alloc 4096 4096).Within 262144 ∧ ∃ ma live,
    StepRuns.run MemAlloc.step (⟨4096, fun i1 => if i1 = 0 then some fun _ => 0 else none⟩, [])
      [.noteAlloc 10 10] = some (ma, live) ∧
      ∃ addr ma', ∀ fuel, ma.alloc (fuel + 2) 4096 4096 = some (addr, ma') := by
  have hreq : (MemOp.alloc 4096 4096).Within 262144 := ⟨by decide, .inr ⟨12, rfl⟩⟩
  obtain ⟨ma, live, hrun, addr, ma', halloc, -⟩ := memAlloc_lowest 262144 4096 4096
    [.noteAlloc 10 10] _ rfl (by simp [MemOp.Within]) hreq
  exact ⟨hreq, ma, live, hrun, addr, ma', halloc⟩

/-- **A region takes whole granules**: five bytes would fit in front of a region at
address 10, but get address 64. -/
theorem memAlloc_granules : ((MemAlloc.new 262144).bind fun ma => (ma.noteAlloc 10 10).bind
    fun ma => (ma.alloc 2 5 1).map Prod.fst) = some 64 ∧ 64 ∣ 0 ∧ 0 + 5 ≤ 10 := by
  refine ⟨?_, by decide, by decide⟩
  decide +kernel

end Sect.Alloc
