import SectProof.StepRuns

/-! # Page allocation

`vmaAlloc` chooses a range of pages: near a page that is in use, or near one of the
two ends.  The first choice is clamped to the last page, the second is not, so
**the range is in bounds for all draws exactly if three pages are left over.** -/

open Option UInt64

namespace Sect.Alloc

/-- `rand.Intn(n)` on the stream of draws; it panics unless `n` is positive. -/
def intn (n : Int) (r : Stream' Nat) : Option (Nat × Stream' Nat) :=
  if n ≤ 0 then none else some (r.head % n.toNat, r.tail)

/-- The map `m` has the pages of `used`. -/
structure VmaAlloc where
  numPages : UInt64
  used : List UInt64

namespace VmaAlloc

def new (totalPages : UInt64) : VmaAlloc := ⟨totalPages, []⟩

def note (va : VmaAlloc) (page : UInt64) : VmaAlloc :=
  if page ∈ va.used then va else { va with used := va.used ++ [page] }

/-- No page is noted if `page + size` wraps around. -/
def noteAlloc (va : VmaAlloc) (page size : UInt64) : VmaAlloc :=
  (List.range' page.toNat ((page + size).toNat - page.toNat)).foldl
    (fun va i => va.note (.ofNat i)) va

/-- A page near one of the ends. -/
def nearEnd (va : VmaAlloc) (size : UInt64) (r : Stream' Nat) :
    Option (UInt64 × Stream' Nat) := do
  let (page, r) ← intn 4 r
  let (atStart, r) ← intn 100 r
  pure (if atStart ≠ 0 then va.numPages - .ofNat page - size else .ofNat page, r)

/-- A page at most `size - 1` pages before the page given. -/
def backOff (page size : UInt64) (r : Stream' Nat) : Option (UInt64 × Stream' Nat) := do
  if size > 1 then
    let (bin, r) ← intn 2 r
    if bin = 0 then
      let (off, r) ← intn size.toInt64.toInt r
      pure (page - (if .ofNat off > page then page else .ofNat off), r)
    else pure (page, r)
  else pure (page, r)

/-- A page near a used one. -/
def nearUsed (va : VmaAlloc) (size : UInt64) (r : Stream' Nat) :
    Option (UInt64 × Stream' Nat) := do
  let (i, r) ← intn va.used.length r
  let used ← va.used[i]?
  let (page, r) ← backOff used size r
  pure (if page + size > va.numPages then va.numPages - size else page, r)

def choose (va : VmaAlloc) (size : UInt64) (r : Stream' Nat) : Option (UInt64 × Stream' Nat) := do
  if va.used = [] then nearEnd va size r
  else
    let (five, r) ← intn 5 r
    if five = 0 then nearEnd va size r else nearUsed va size r

/-- `none` stands for a panic. -/
def alloc (va : VmaAlloc) (r : Stream' Nat) (size : UInt64) :
    Option (UInt64 × VmaAlloc × Stream' Nat) := do
  if size > va.numPages then none
  else
    let (page, r) ← va.choose size r
    if page ≥ va.numPages ∨ size > va.numPages ∨ page + size > va.numPages then none
    else pure (page, va.noteAlloc page size, r)

end VmaAlloc

/-- The calls made on the allocator. -/
inductive VmaOp
  | noteAlloc (page size : UInt64)
  | alloc (r : Stream' Nat) (size : UInt64)

def VmaAlloc.step (va : VmaAlloc) : VmaOp → Option VmaAlloc
  | .noteAlloc page size => some (va.noteAlloc page size)
  | .alloc r size => (va.alloc r size).map fun res => res.2.1

namespace VmaAlloc

variable {va : VmaAlloc} {size : UInt64}

/-! ## The number of pages -/

theorem numPages_noteAlloc (va : VmaAlloc) (page size : UInt64) :
    (va.noteAlloc page size).numPages = va.numPages := by
  rw [noteAlloc]
  generalize List.range' _ _ = pages
  induction pages generalizing va with
  | nil => rfl
  | cons i pages ih =>
    rw [List.foldl_cons, ih, note]
    split <;> rfl

variable {va' : VmaAlloc} {r r' : Stream' Nat} {page : UInt64}

theorem numPages_step {op : VmaOp} (h : va.step op = some va') : va'.numPages = va.numPages := by
  cases op with
  | noteAlloc page size => rw [← some.inj h, numPages_noteAlloc]
  | alloc r size =>
    obtain ⟨⟨page, va₁, r₁⟩, hok, rfl⟩ := map_eq_some_iff.mp h
    rw [alloc] at hok
    split at hok
    · cases hok
    obtain ⟨⟨page', r'⟩, -, hok⟩ := bind_eq_some_iff.mp hok
    dsimp only at hok
    split at hok
    · cases hok
    · cases hok
      exact numPages_noteAlloc va _ _

/-! ## The choices -/

theorem intn_eq {n : Int} (hn : 0 < n) (r : Stream' Nat) :
    intn n r = some (r.head % n.toNat, r.tail) := if_neg (by omega)

theorem toInt_size (size : UInt64) : size.toInt64.toInt =
    if size.toNat < 2 ^ 63 then (size.toNat : Int) else (size.toNat : Int) - 2 ^ 64 := by
  change size.toBitVec.toInt = _
  rw [BitVec.toInt_eq_toNat_cond, toNat_toBitVec]
  split <;> split <;> omega

/-- Of the pages at the start, page 3 is the last one. -/
theorem nearEnd_spec (h : size.toNat + 3 ≤ va.numPages.toNat)
    (r : Stream' Nat) : ∃ page r', va.nearEnd size r = some (page, r') ∧
      page.toNat + size.toNat ≤ va.numPages.toNat := by
  refine ⟨_, _, rfl, ?_⟩
  have hdraw : (UInt64.ofNat (r.head % 4)).toNat ≤ 3 := by
    rw [toNat_ofNat']
    omega
  change (if _ then va.numPages - UInt64.ofNat (r.head % 4) - size
    else UInt64.ofNat (r.head % 4)).toNat + _ ≤ _
  generalize UInt64.ofNat (r.head % 4) = page at hdraw
  have hlt := va.numPages.toNat_lt
  split
  · rw [UInt64.toNat_sub, UInt64.toNat_sub]
    omega
  · omega

theorem backOff_spec (hsize : size.toNat < 2 ^ 63) (page : UInt64) (r : Stream' Nat) :
    ∃ page' r', backOff page size r = some (page', r') ∧ page'.toNat ≤ page.toNat := by
  rw [backOff]
  split
  · next hlarge =>
      have hpos : 0 < size.toInt64.toInt := by
        rw [toInt_size, if_pos hsize]
        exact Int.natCast_pos.mpr (Nat.zero_lt_of_lt hlarge)
      rw [intn_eq (by decide)]
      dsimp only [bind_eq_bind, bind_some]
      split
      · rw [intn_eq hpos]
        refine ⟨_, _, rfl, ?_⟩
        generalize UInt64.ofNat _ = off
        -- the distance is cut to the page number
        have hoff : (if off > page then page else off) ≤ page := by
          split
          · exact UInt64.le_refl _
          · next hle => exact UInt64.not_lt.mp hle
        rw [UInt64.toNat_sub_of_le _ _ hoff]
        exact Nat.sub_le _ _
      · exact ⟨page, _, rfl, Nat.le_refl _⟩
  · exact ⟨page, r, rfl, Nat.le_refl _⟩

theorem nearUsed_spec (hne : va.used ≠ []) (hle : size.toNat ≤ va.numPages.toNat)
    (hsize : size.toNat < 2 ^ 63) (hused : ∀ page ∈ va.used, page.toNat + size.toNat < 2 ^ 64)
    (r : Stream' Nat) : ∃ page r', va.nearUsed size r = some (page, r') ∧
      page.toNat + size.toNat ≤ va.numPages.toNat := by
  have hlen := List.length_pos_iff.mpr hne
  have hi : r.head % va.used.length < va.used.length := Nat.mod_lt _ hlen
  obtain ⟨page, r', hback, hpage⟩ := backOff_spec hsize va.used[r.head % va.used.length] r.tail
  have hsum : (page + size).toNat = page.toNat + size.toNat := by
    have h := hused _ (List.getElem_mem hi)
    rw [UInt64.toNat_add, Nat.mod_eq_of_lt (by omega)]
  rw [nearUsed, intn_eq (Int.natCast_pos.mpr hlen)]
  dsimp only [bind_eq_bind, bind_some, Int.toNat_natCast]
  rw [List.getElem?_eq_getElem hi, bind_some, hback]
  refine ⟨_, r', rfl, ?_⟩
  dsimp only
  split
  · rw [UInt64.toNat_sub_of_le _ _ (UInt64.le_iff_toNat_le.mpr hle)]
    omega
  · next h =>
      have h := UInt64.le_iff_toNat_le.mp (UInt64.not_lt.mp h)
      omega

/-- The check after the choice passes exactly for a range in bounds. -/
theorem alloc_of_choose (hsize : 1 ≤ size.toNat) (hle : size.toNat ≤ va.numPages.toNat)
    (hchoose : va.choose size r = some (page, r'))
    (hpage : page.toNat + size.toNat ≤ va.numPages.toNat) :
    va.alloc r size = some (page, va.noteAlloc page size, r') := by
  have hlt := va.numPages.toNat_lt
  have hsum : (page + size).toNat = page.toNat + size.toNat := by
    rw [UInt64.toNat_add, Nat.mod_eq_of_lt (by omega)]
  have hbad : ¬ (page ≥ va.numPages ∨ size > va.numPages ∨ page + size > va.numPages) := by
    simp only [ge_iff_le, gt_iff_lt, le_iff_toNat_le, lt_iff_toNat_lt, hsum]
    omega
  have hfit : ¬ size > va.numPages := fun h => hbad (.inr (.inl h))
  rw [alloc, if_neg hfit, hchoose]
  exact if_neg hbad

/-- The choice near the used page number `i`. -/
theorem choose_used {i : Nat} (hi : i < va.used.length) (r : Stream' Nat) :
    va.choose size (.cons 1 (.cons i r)) = (backOff va.used[i] size r).bind fun (page, r) =>
      some (if page + size > va.numPages then va.numPages - size else page, r) := by
  have hlen : 0 < va.used.length := Nat.zero_lt_of_lt hi
  rw [choose, if_neg (List.ne_nil_of_length_pos hlen)]
  change nearUsed va size (.cons i r) = _
  rw [nearUsed, intn_eq (Int.natCast_pos.mpr hlen)]
  dsimp only [bind_eq_bind, bind_some, Int.toNat_natCast, Stream'.head_cons]
  rw [Nat.mod_eq_of_lt hi, List.getElem?_eq_getElem hi]
  rfl

theorem choose_of_alloc (h : va.alloc r size = some (page, va', r')) :
    va.choose size r = some (page, r') := by
  rw [alloc] at h
  split at h
  · cases h
  obtain ⟨⟨page', r₁⟩, hchoose, h⟩ := bind_eq_some_iff.mp h
  dsimp only at h
  split at h
  · cases h
  · cases h
    exact hchoose

end VmaAlloc

/-- An allocation from `va` is in bounds whatever is drawn. -/
def VmaAlloc.InBounds (va : VmaAlloc) (size : UInt64) : Prop :=
  ∀ r, ∃ page va' r', va.alloc r size = some (page, va', r') ∧
    page.toNat + size.toNat ≤ va.numPages.toNat

/-- **Allocations stay in bounds exactly if three pages are left over** and no sum with
a page in use wraps around. -/
theorem vmaAlloc_inBounds_iff (numPages size : UInt64) (ops : List VmaOp) (va : VmaAlloc)
    (hrun : StepRuns.run VmaAlloc.step (.new numPages) ops = some va) (hsize : 1 ≤ size.toNat)
    (hle : size.toNat ≤ numPages.toNat) :
    va.numPages = numPages ∧ (va.InBounds size ↔ size.toNat + 3 ≤ numPages.toNat ∧
      ∀ page ∈ va.used, page.toNat + size.toNat < 2 ^ 64 ∧ size.toNat < 2 ^ 63) := by
  obtain rfl : va.numPages = numPages :=
    StepRuns.invariant (I := fun va => va.numPages = numPages)
      (fun _ _ _ h hstep => (VmaAlloc.numPages_step hstep).trans h) rfl hrun
  refine ⟨rfl, fun h => ⟨?_, fun page hpage => ?_⟩, ?_⟩
  · -- page 3 is drawn, from the start
    obtain ⟨page, va', r', hok, hpage⟩ := h
      (if va.used = [] then .cons 3 (.cons 0 (.const 0)) else .cons 0 (.cons 3 (.cons 0 (.const 0))))
    have hchoose := VmaAlloc.choose_of_alloc hok
    rw [VmaAlloc.choose] at hchoose
    have hthree : page = 3 := by
      split at hchoose
      · cases hchoose
        rfl
      · cases hchoose
        rfl
    rw [hthree] at hpage
    exact (Nat.add_comm _ _).trans_le hpage
  · have hne : va.used ≠ [] := List.ne_nil_of_mem hpage
    obtain ⟨i, hi, rfl⟩ := List.getElem_of_mem hpage
    constructor
    · -- the used page itself is drawn
      obtain ⟨page, va', r', hok, hpage⟩ := h (.cons 1 (.cons i (.cons 1 (.const 0))))
      have hback : VmaAlloc.backOff va.used[i] size (.cons 1 (.const 0)) =
          some (va.used[i], if size > 1 then .const 0 else .cons 1 (.const 0)) := by
        rw [VmaAlloc.backOff]
        split <;> rfl
      have hchoose := VmaAlloc.choose_of_alloc hok
      rw [VmaAlloc.choose_used hi, hback, bind_some, some.injEq] at hchoose
      obtain ⟨rfl, -⟩ := Prod.mk.inj hchoose
      by_contra hwrap
      have hlt := va.used[i].toNat_lt
      have hsum : (va.used[i] + size).toNat = va.used[i].toNat + size.toNat - 2 ^ 64 := by
        have hlt' := size.toNat_lt
        rw [UInt64.toNat_add]
        omega
      have hlt' := va.numPages.toNat_lt
      rw [if_neg (by
        rw [gt_iff_lt, lt_iff_toNat_lt, hsum]
        omega)] at hpage
      omega
    · -- a distance is drawn below a number that is negative as an `int`
      by_contra hneg
      obtain ⟨page, va', r', hok, -⟩ := h (.cons 1 (.cons i (.cons 0 (.const 0))))
      have hback : VmaAlloc.backOff va.used[i] size (.cons 0 (.const 0)) = none := by
        have hlarge : size > 1 := lt_iff_toNat_lt.mpr (by
          change 1 < _
          omega)
        have hint : size.toInt64.toInt ≤ 0 := by
          have hlt := size.toNat_lt
          rw [VmaAlloc.toInt_size, if_neg hneg]
          omega
        rw [VmaAlloc.backOff, if_pos hlarge]
        change (intn size.toInt64.toInt _).bind _ = none
        rw [intn, if_pos hint]
        rfl
      have hchoose := VmaAlloc.choose_of_alloc hok
      rw [VmaAlloc.choose_used hi, hback] at hchoose
      cases hchoose
  · rintro ⟨hthree, hused⟩ r
    obtain ⟨page, r', hchoose, hpage⟩ : ∃ page r', va.choose size r = some (page, r') ∧
        page.toNat + size.toNat ≤ va.numPages.toNat := by
      rw [VmaAlloc.choose]
      split
      · exact VmaAlloc.nearEnd_spec hthree r
      next hne =>
        rw [VmaAlloc.intn_eq (by decide)]
        dsimp only [bind_eq_bind, bind_some]
        split
        · exact VmaAlloc.nearEnd_spec hthree _
        · obtain ⟨used, hmem⟩ := List.exists_mem_of_ne_nil _ hne
          exact VmaAlloc.nearUsed_spec hne hle (hused used hmem).2
            (fun page hpage => (hused page hpage).1) _
    exact ⟨page, _, r', VmaAlloc.alloc_of_choose hsize hle hchoose hpage, hpage⟩

/-- A range of one page among four. -/
theorem vmaAlloc_inBounds_four : (VmaAlloc.new 4).InBounds 1 :=
  (vmaAlloc_inBounds_iff 4 1 [] _ rfl (by decide) (by decide)).2.mpr ⟨by decide, nofun⟩

/-- **All of four pages**: a draw of page 1 makes the allocator panic. -/
theorem vmaAlloc_panics : (VmaAlloc.new 4).alloc (.cons 1 (.cons 0 (.const 0))) 4 = none := rfl

end Sect.Alloc
