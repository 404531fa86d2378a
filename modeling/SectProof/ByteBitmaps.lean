import Mathlib

/-! # Bitmaps in byte strings

Bit `k` of a byte string is bit `k % 8` of its byte `k / 8`.  Setting and testing
a bit fail when that byte does not exist, so **a program that only succeeds never
leaves its bitmap**; a sequence of sets that stays inside adds exactly the bits
it names (`setAll_spec`).
-/

namespace Bitmap

/-- Sets bit `k`; fails outside the string. -/
def set? (bs : List UInt8) (k : Nat) : Option (List UInt8) :=
  bs[k / 8]?.map fun b => bs.set (k / 8) (b ||| (1 <<< UInt8.ofNat (k % 8)))

/-- Tests bit `k`; fails outside the string. -/
def test? (bs : List UInt8) (k : Nat) : Option Bool :=
  bs[k / 8]?.map fun b => decide ((b &&& (1 <<< UInt8.ofNat (k % 8))) > 0)

/-- Sets each of the given bits in turn. -/
def setAll (bs : List UInt8) (ks : List Nat) : Option (List UInt8) :=
  ks.foldlM set? bs

variable {i k : Nat} {bs : List UInt8}

theorem toNat_mask (hi : i < 8) : (1 <<< UInt8.ofNat i : UInt8).toNat = 2 ^ i := by
  interval_cases i <;> rfl

theorem pos_and_mask (b : UInt8) (hi : i < 8) :
    decide ((b &&& (1 <<< UInt8.ofNat i)) > 0) = b.toNat.testBit i := by
  rw [Bool.eq_iff_iff, decide_eq_true_iff, gt_iff_lt, UInt8.lt_iff_toNat_lt, UInt8.toNat_and,
    toNat_mask hi, Nat.and_two_pow]
  cases b.toNat.testBit i <;> simp

theorem test?_eq (bs : List UInt8) (k : Nat) :
    test? bs k = bs[k / 8]?.map fun b => b.toNat.testBit (k % 8) := by
  simp only [test?, pos_and_mask _ (Nat.mod_lt k (by decide : 0 < 8))]

theorem test?_replicate_zero {n : Nat} (h : k / 8 < n) :
    test? (List.replicate n 0) k = some false := by
  rw [test?_eq, List.getElem?_replicate, if_pos h]
  simp

/-- **Setting a bit inside the string adds that bit and nothing else.** -/
theorem set?_spec (h : k / 8 < bs.length) :
    ∃ bs', set? bs k = some bs' ∧ bs'.length = bs.length ∧
      ∀ j, test? bs' j = (test? bs j).map (decide (j = k) || ·) := by
  refine ⟨bs.set (k / 8) (bs[k / 8] ||| (1 <<< UInt8.ofNat (k % 8))), ?_, List.length_set, ?_⟩
  · simp [set?, h]
  intro j
  rw [test?_eq, test?_eq, List.getElem?_set]
  have hk : k % 8 < 8 := Nat.mod_lt k (by decide)
  by_cases hbyte : k / 8 = j / 8
  · have hbit : k % 8 = j % 8 ↔ j = k := by omega
    rw [if_pos hbyte, if_pos h, ← hbyte, List.getElem?_eq_getElem h]
    simp [toNat_mask hk, Nat.testBit_or, Nat.testBit_two_pow, hbit, Bool.or_comm]
  · have hne : j ≠ k := fun hjk => hbyte (by rw [hjk])
    rw [if_neg hbyte, Option.map_map]
    simp [hne, Function.comp_def]

/-- **Setting a list of bits inside the string adds exactly those bits.** -/
theorem setAll_spec {ks : List Nat} (h : ∀ k ∈ ks, k / 8 < bs.length) :
    ∃ bs', setAll bs ks = some bs' ∧ bs'.length = bs.length ∧
      ∀ j, test? bs' j = (test? bs j).map (decide (j ∈ ks) || ·) := by
  induction ks generalizing bs with
  | nil => exact ⟨bs, rfl, rfl, fun j => by simp⟩
  | cons k ks ih =>
    obtain ⟨mid, hset, hmid, htest⟩ := set?_spec (h k List.mem_cons_self)
    obtain ⟨out, hall, hlen, hout⟩ :=
      ih (fun j hj => hmid ▸ h j (List.mem_cons_of_mem k hj) : ∀ j ∈ ks, j / 8 < mid.length)
    refine ⟨out, ?_, hlen.trans hmid, fun j => ?_⟩
    · rw [setAll, List.foldlM_cons, hset]
      exact hall
    · rw [hout j, htest j, Option.map_map]
      congr 1
      funext b
      simp [Bool.or_left_comm, Bool.or_assoc]

end Bitmap
