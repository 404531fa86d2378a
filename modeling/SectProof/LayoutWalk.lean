import SectProof.LayoutContract

/-! # The layout walk, field by field

`place` is compared with `FieldType.startBit` (`Spot.Ok`), padding with what it
leaves alone (`Grown`), and **`Cursor.Inv.layoutField`** says what one iteration
of `layoutStructFields` keeps about all the fields it has emitted.
-/

open List Nat

namespace Sect.Compiler

open FieldType

/-! ## Rounding -/

variable {a p bytes offset bit : Nat} {f : FieldType} {packed : Bool} {l cur : List FieldType}
  {c : Cursor}

theorem rounddown_eq (v : Nat) (h : ∃ k, a = 2 ^ k) : rounddown v a = .ok (v / a * a) := by
  obtain ⟨k, rfl⟩ := h
  unfold rounddown
  rw [and_two_pow_sub_one_eq_mod, mod_self]
  rfl

theorem roundup_eq (v : Nat) (h : ∃ k, a = 2 ^ k) :
    roundup v a = .ok (ceilTo v a) := rounddown_eq _ h

theorem roundup_eight (v : Nat) : roundup v 8 = .ok (ceilTo v 8) := roundup_eq v ⟨3, rfl⟩

theorem le_ceilTo (n : Nat) (h : 0 < a) : n ≤ ceilTo n a := by
  have hd := div_add_mod (n + a - 1) a
  have hm := mod_lt (n + a - 1) h
  unfold ceilTo
  rw [Nat.mul_comm] at hd
  omega

theorem dvd_ceilTo (n a : Nat) : a ∣ ceilTo n a := Dvd.intro_left _ rfl

/-- Rounding up to bytes and then to a multiple of `a` bytes is one rounding. -/
theorem eight_mul_ceilTo (p : Nat) (h : 0 < a) :
    8 * ceilTo (ceilTo p 8 / 8) a = ceilTo p (8 * a) := by
  have hbytes : ceilTo p 8 / 8 + a - 1 = (p + 8 * a - 1) / 8 := by
    unfold ceilTo
    omega
  unfold ceilTo at hbytes ⊢
  rw [hbytes, Nat.div_div_eq_div_mul, Nat.mul_left_comm]

variable {b u : Nat} {done : List FieldType} {spot : Spot}

theorem sub64_of_le (hu : u ∈ [1, 2, 4, 8]) (h : b ≤ a) (hlt : a - b < u * 8) :
    sub64 a b % (u * 8) = a - b := by
  unfold sub64
  simp only [mem_cons, not_mem_nil, or_false] at hu
  rcases hu with rfl | rfl | rfl | rfl <;> omega

/-- The wrapped subtraction gives 0 exactly at the multiples of the unit. -/
theorem sub64_zero (hu : u ∈ [1, 2, 4, 8]) :
    (8 * u ∣ b * 8 → sub64 0 (b * 8) % (u * 8) = 0) ∧
      (¬ 8 * u ∣ b * 8 → 8 ≤ sub64 0 (b * 8) % (u * 8)) := by
  unfold sub64
  simp only [mem_cons, not_mem_nil, or_false] at hu
  rcases hu with rfl | rfl | rfl | rfl <;> omega

/-! ## One field -/

/-- What `place` finds for a field whose turn comes at bit `p`, with `bytes`
bytes of the part emitted. -/
structure Spot.Ok (packed : Bool) (p bytes : Nat) (f : FieldType) (spot : Spot) : Prop where
  position : 8 * max bytes spot.fieldOffset + (spot.bitOffset - 8 * (spot.fieldOffset - bytes)) =
    f.startBit packed p
  consumed : spot.bitOffset = 0 ∨ 8 * (spot.fieldOffset - bytes) ≤ spot.bitOffset
  reset : p = 8 * bytes → spot.bitOffset = 0
  inUnit : f.isBitfield = true →
    (spot.fieldBitOffset + f.bitfieldLen ≤ 8 * f.unitSize ↔ f.WrapsAligned packed p)
  unit : f.isBitfield = true → f.WrapsAligned packed p →
    8 * spot.fieldOffset + spot.fieldBitOffset = f.startBit packed p
  plain : f.isBitfield = false → 8 * spot.fieldOffset = f.startBit packed p ∧ spot.bitOffset = 0
  aligned : packed = false → f.align ∣ spot.fieldOffset

theorem FieldType.Checked.unitSize_mem (hf : f.Checked) (hb : f.isBitfield = true) :
    f.unitSize ∈ [1, 2, 4, 8] := by
  unfold FieldType.unitSize
  rw [if_pos hb]
  exact hf.unit hb

theorem FieldType.Checked.unitAlign_pow (hf : f.Checked) (hb : f.isBitfield = true)
    (packed : Bool) : ∃ k, f.unitAlign packed = 2 ^ k := by
  have hu := hf.unitSize_mem hb
  simp only [mem_cons, not_mem_nil, or_false] at hu
  unfold FieldType.unitAlign
  split
  · exact ⟨0, rfl⟩
  · rcases hu with h | h | h | h
    · exact ⟨0, h⟩
    · exact ⟨1, h⟩
    · exact ⟨2, h⟩
    · exact ⟨3, h⟩

theorem FieldType.startBit_plain (hb : f.isBitfield = false) (packed : Bool) (p : Nat) :
    f.startBit packed p = ceilTo p (8 * f.fieldAlign packed) := by
  unfold FieldType.startBit
  rw [hb]
  rfl

theorem placePlain_ok (hf : f.Checked) (hb : f.isBitfield = false) (hp : 8 * bytes ≤ p) :
    ∃ spot, placePlain (f.fieldAlign packed) p = .ok spot ∧ spot.Ok packed p bytes f := by
  have ha : ∃ k, f.fieldAlign packed = 2 ^ k := by
    unfold FieldType.fieldAlign
    split
    · exact ⟨0, rfl⟩
    · exact hf.align
  have hpos : 0 < f.fieldAlign packed := by
    obtain ⟨k, hk⟩ := ha
    rw [hk]
    exact Nat.two_pow_pos k
  have hstart := f.startBit_plain hb packed p
  have height := eight_mul_ceilTo p hpos
  have hle := le_ceilTo p (show 0 < 8 * f.fieldAlign packed by omega)
  refine ⟨⟨ceilTo (ceilTo p 8 / 8) (f.fieldAlign packed), 0, 0⟩, ?_, ?_⟩
  · unfold placePlain
    rw [roundup_eight]
    dsimp only [bind, Except.bind]
    rw [roundup_eq _ ha]
    rfl
  · refine ⟨?_, .inl rfl, fun _ => rfl, ?_, ?_, ?_, ?_⟩
    · dsimp only
      omega
    · intro h
      rw [hb] at h
      cases h
    · intro h
      rw [hb] at h
      cases h
    · intro _
      exact ⟨height.trans hstart.symm, rfl⟩
    · intro hpacked
      have := dvd_ceilTo (ceilTo p 8 / 8) (f.fieldAlign packed)
      rw [hpacked] at this ⊢
      exact this

/-- The unit that covers bit `p` begins `p % (8 * a)` bits before it. -/
theorem sub_unit (p a : Nat) : p - p / 8 / a * a * 8 = p % (8 * a) ∧ p / 8 / a * a * 8 ≤ p := by
  have hd := div_add_mod p (8 * a)
  have heq : p / 8 / a * a * 8 = 8 * a * (p / (8 * a)) := by
    rw [Nat.div_div_eq_div_mul]
    ac_rfl
  omega

theorem FieldType.wrapsAligned_of_fits (h : f.FitsAt packed p) : f.WrapsAligned packed p :=
  fun _ hn => absurd h hn

theorem FieldType.startBit_fits (hb : f.isBitfield = true) (h : f.FitsAt packed p) :
    f.startBit packed p = p := by
  unfold FieldType.startBit
  rw [if_pos hb, if_pos h]

/-- A bitfield that fits into the unit beginning at byte `offset`. -/
theorem Spot.ok_fits {off : Nat} (hf : f.Checked) (hb : f.isBitfield = true)
    (hfit : f.FitsAt packed p) (hoffset : offset = p / 8 / f.unitAlign packed * f.unitAlign packed)
    (hoff : off = p % (8 * f.unitAlign packed))
    (hposition : 8 * max bytes offset + (bit - 8 * (offset - bytes)) = p)
    (hconsumed : bit = 0 ∨ 8 * (offset - bytes) ≤ bit) (hreset : p = 8 * bytes → bit = 0) :
    Spot.Ok packed p bytes f ⟨offset, bit, off⟩ := by
  have hwraps := wrapsAligned_of_fits hfit
  have hstart := startBit_fits hb hfit
  have hunit := sub_unit p (f.unitAlign packed)
  refine ⟨?_, hconsumed, hreset, ?_, ?_, ?_, ?_⟩
  · rw [hstart]
    exact hposition
  · intro _
    refine iff_of_true ?_ hwraps
    rw [hoff]
    exact hfit
  · intro _ _
    dsimp only
    omega
  · intro h
    rw [hb] at h
    cases h
  · intro hpacked
    have hdvd : f.unitAlign packed ∣ offset := hoffset ▸ Dvd.intro_left _ rfl
    have halign := hf.unitAlign hb
    unfold FieldType.unitAlign FieldType.unitSize at hdvd
    rw [hpacked, hb] at hdvd
    exact halign.trans hdvd

/-- A bitfield that does not fit goes to the next unit boundary; in a packed
struct this is any byte, and the bit offset is computed as if it were a multiple
of the unit. -/
theorem Spot.ok_moved (hf : f.Checked) (hb : f.isBitfield = true) (hfit : ¬ f.FitsAt packed p)
    (hp : 8 * bytes ≤ p) (hoffset : offset = ceilTo (ceilTo p 8 / 8) (f.unitAlign packed)) :
    Spot.Ok packed p bytes f ⟨offset, 0, sub64 0 (offset * 8) % (f.unitSize * 8)⟩ := by
  have hu := hf.unitSize_mem hb
  have hpos : 0 < f.unitAlign packed := by
    obtain ⟨k, hk⟩ := hf.unitAlign_pow hb packed
    rw [hk]
    exact Nat.two_pow_pos k
  have hstart : f.startBit packed p = 8 * offset := by
    unfold FieldType.startBit
    rw [if_pos hb, if_neg hfit, hoffset, eight_mul_ceilTo p hpos]
  have hle : p ≤ 8 * offset := by
    rw [hoffset, eight_mul_ceilTo p hpos]
    exact le_ceilTo p (by omega)
  have hdvd : f.unitAlign packed ∣ offset := hoffset ▸ dvd_ceilTo _ _
  have hlen : f.bitfieldLen ≤ 8 * f.unitSize := by
    unfold FieldType.unitSize
    rw [if_pos hb]
    exact hf.len
  have hwraps : f.WrapsAligned packed p ↔ 8 * f.unitSize ∣ offset * 8 := by
    unfold FieldType.WrapsAligned
    rw [hstart, mul_comm 8 offset]
    exact ⟨fun h => h hb hfit, fun h _ _ => h⟩
  obtain ⟨hzero, height⟩ := sub64_zero (b := offset) hu
  refine ⟨?_, .inl rfl, fun _ => rfl, ?_, ?_, ?_, ?_⟩
  · dsimp only
    omega
  · intro _
    rw [hwraps]
    dsimp only
    constructor
    · intro hin
      by_contra hn
      have hge := height hn
      cases packed with
      | false => exact hn (by rw [mul_comm]; exact mul_dvd_mul_right hdvd 8)
      | true =>
        -- the bits already used in the current byte are fewer than the offset
        have hmod : p % (8 * 1) < 8 := mod_lt _ (by omega)
        have hover : 8 * f.unitSize < p % (8 * 1) + f.bitfieldLen := Nat.lt_of_not_le hfit
        omega
    · intro h
      omega
  · intro _ h
    rw [hzero (hwraps.mp h), hstart]
    rfl
  · intro h
    rw [hb] at h
    cases h
  · intro hpacked
    have halign := hf.unitAlign hb
    unfold FieldType.unitAlign FieldType.unitSize at hdvd
    rw [hpacked, hb] at hdvd
    exact halign.trans hdvd

theorem placeBitfield_ok (hf : f.Checked) (hb : f.isBitfield = true) (hp : p = 8 * bytes + bit) :
    ∃ spot, placeBitfield packed p bit f = .ok spot ∧ spot.Ok packed p bytes f := by
  have ha := hf.unitAlign_pow hb packed
  have hu := hf.unitSize_mem hb
  have hlen : f.bitfieldLen ≠ 0 := by simpa [FieldType.isBitfield] using hb
  obtain ⟨hused, hbefore⟩ := sub_unit p (f.unitAlign packed)
  unfold placeBitfield
  rw [show (if packed = true then 1 else f.unitSize) = f.unitAlign packed from rfl]
  dsimp only
  rw [rounddown_eq _ ha]
  dsimp only [bind, Except.bind]
  rw [hused]
  by_cases hfit : f.FitsAt packed p
  · have hroom : f.unitSize * 8 - p % (8 * f.unitAlign packed) ≥ f.bitfieldLen := by
      unfold FieldType.FitsAt at hfit
      omega
    rw [if_neg (by omega)]
    split
    · refine ⟨_, rfl, Spot.ok_fits hf hb hfit rfl ?_ ?_ (Or.inl rfl) fun _ => rfl⟩
      · rw [sub64_of_le hu (le_refl _)] <;> omega
      · omega
    · refine ⟨_, rfl, Spot.ok_fits hf hb hfit rfl ?_ ?_ (Or.inr ?_) ?_⟩
      · rw [sub64_of_le hu hbefore (by omega), hused]
      · omega
      · omega
      · omega
  · have hover : f.unitSize * 8 - p % (8 * f.unitAlign packed) < f.bitfieldLen := by
      unfold FieldType.FitsAt at hfit
      omega
    rw [if_pos hover, roundup_eight]
    dsimp only
    rw [roundup_eq _ ha]
    exact ⟨_, rfl, Spot.ok_moved hf hb hfit (by omega) rfl⟩

theorem place_ok (packed : Bool) (hf : f.Checked) (hp : p = 8 * bytes + bit) :
    ∃ spot, place packed p bit f = .ok spot ∧ spot.Ok packed p bytes f := by
  unfold place
  cases hb : f.isBitfield with
  | true => exact placeBitfield_ok hf hb hp
  | false => exact placePlain_ok hf hb (by omega)

/-! ## Slots -/

/-- What holds of every field that has been emitted. -/
structure Slot.Ok (packed : Bool) (s : Slot) : Prop where
  unit : s.field.bitfieldUnitOff ≤ s.offset
  aligned : packed = false → s.field.isPad = false → s.field.align ∣ s.unitStart
  varlen : s.field.varlen = true → s.field.typeSize = 0 ∧ s.field.isBitfield = false

/-- The slots follow each other, and the last one ends by bit `p`. -/
structure Ordered (fields : List FieldType) (p : Nat) : Prop where
  before : (slots fields).Pairwise fun a b => a.endBit ≤ b.firstBit
  ends : ∀ s ∈ slots fields, s.endBit ≤ p

theorem sizes_snoc (l : List FieldType) (f : FieldType) :
    sizes (l ++ [f]) = sizes l + f.typeSize := by
  simp [sizes]

theorem locate_snoc (offset : Nat) (l : List FieldType) (f : FieldType) :
    locate offset (l ++ [f]) ((l ++ [f]).map FieldType.typeSize) =
      locate offset l (l.map FieldType.typeSize) ++ [⟨f, offset + sizes l, f.typeSize⟩] := by
  induction l generalizing offset with
  | nil => rfl
  | cons g l ih =>
    have := ih (offset + g.typeSize)
    simp only [cons_append, map_cons, locate, this, sizes, sum_cons, add_assoc]

theorem slots_snoc (l : List FieldType) (f : FieldType) :
    slots (l ++ [f]) = slots l ++ [⟨f, sizes l, f.typeSize⟩] := by
  have := locate_snoc 0 l f
  rwa [zero_add] at this

theorem setLastTypeSize_snoc (v : Nat) (l : List FieldType) (f : FieldType) :
    setLastTypeSize v (l ++ [f]) = l ++ [{ f with typeSize := v }] := by
  induction l with
  | nil => rfl
  | cons g l ih =>
    cases l with
    | nil => rfl
    | cons h l => exact congrArg (g :: ·) ih

theorem Slot.firstBit_le_endBit (s : Slot) : s.firstBit ≤ s.endBit := le_add_right _ _

theorem Ordered.mono {q : Nat} (h : Ordered l p) (hpq : p ≤ q) : Ordered l q :=
  ⟨h.before, fun s hs => (h.ends s hs).trans hpq⟩

theorem Ordered.snoc (h : Ordered l p) (hp : p ≤ Slot.firstBit ⟨f, sizes l, f.typeSize⟩) :
    Ordered (l ++ [f]) (Slot.endBit ⟨f, sizes l, f.typeSize⟩) := by
  constructor
  · rw [slots_snoc, pairwise_append]
    refine ⟨h.before, pairwise_singleton _ _, ?_⟩
    intro a ha b hb
    rw [mem_singleton.mp hb]
    exact (h.ends a ha).trans hp
  · intro s hs
    rw [slots_snoc, mem_append, mem_singleton] at hs
    rcases hs with hs | rfl
    · exact ((h.ends s hs).trans hp).trans (Slot.firstBit_le_endBit _)
    · exact le_refl _

/-- The size of a bitfield says nothing about the bits it occupies. -/
theorem Slot.bits_resize (hb : f.isBitfield = true) (offset n : Nat) :
    Slot.firstBit ⟨{ f with typeSize := n }, offset, n⟩ = Slot.firstBit ⟨f, offset, f.typeSize⟩ ∧
      Slot.endBit ⟨{ f with typeSize := n }, offset, n⟩ =
        Slot.endBit ⟨f, offset, f.typeSize⟩ := by
  have hb' : ({ f with typeSize := n } : FieldType).isBitfield = true := hb
  simp only [Slot.endBit, Slot.firstBit, hb, hb', if_true]
  exact ⟨rfl, rfl⟩

theorem Ordered.resize (h : Ordered (l ++ [f]) p) (hb : f.isBitfield = true) (n : Nat) :
    Ordered (l ++ [{ f with typeSize := n }]) p := by
  obtain ⟨hfirst, hend⟩ := Slot.bits_resize hb (sizes l) n
  obtain ⟨hbefore, hends⟩ := h
  rw [slots_snoc] at hbefore hends
  rw [pairwise_append] at hbefore
  constructor
  · rw [slots_snoc, pairwise_append]
    refine ⟨hbefore.1, pairwise_singleton _ _, ?_⟩
    intro a ha b hb
    rw [mem_singleton.mp hb, hfirst]
    exact hbefore.2.2 a ha _ (mem_singleton.mpr rfl)
  · intro s hs
    rw [slots_snoc, mem_append, mem_singleton] at hs
    rcases hs with hs | rfl
    · exact hends s (mem_append_left _ hs)
    · rw [hend]
      exact hends _ (mem_append_right _ (mem_singleton.mpr rfl))

/-! ## Padding -/

/-- `cur'` is `cur` with `n` bytes of padding, given that its fields end by bit `p`. -/
structure Grown (packed : Bool) (p n : Nat) (cur cur' : List FieldType) : Prop where
  size : sizes cur' = sizes cur + n
  inUnit : (∀ f ∈ cur', f.InUnit) ↔ ∀ f ∈ cur, f.InUnit
  ordered : Ordered cur p → Ordered cur' (max p (8 * sizes cur'))
  slots : (∀ s ∈ slots cur, s.Ok packed) → ∀ s ∈ Compiler.slots cur', s.Ok packed
  varlen : cur'.any FieldType.varlen = cur.any FieldType.varlen

theorem Grown.refl (packed : Bool) (p : Nat) (cur : List FieldType) : Grown packed p 0 cur cur :=
  ⟨rfl, .rfl, fun h => h.mono (le_max_left _ _), id, rfl⟩

theorem forall_mem_snoc {P : FieldType → Prop} : (∀ g ∈ l ++ [f], P g) ↔ (∀ g ∈ l, P g) ∧ P f := by
  rw [forall_mem_append, forall_mem_singleton]

theorem forall_slots_snoc {P : Slot → Prop} :
    (∀ s ∈ slots (l ++ [f]), P s) ↔ (∀ s ∈ slots l, P s) ∧ P ⟨f, sizes l, f.typeSize⟩ := by
  rw [slots_snoc, forall_mem_append, forall_mem_singleton]

theorem grown_pad (packed : Bool) (n : Nat) (hp : p ≤ 8 * sizes cur) :
    Grown packed p n cur (cur ++ [genPad n]) := by
  refine ⟨sizes_snoc cur _, ?_, ?_, ?_, ?_⟩
  · rw [forall_mem_snoc]
    exact and_iff_left (by intro h; cases h)
  · intro h
    have hfirst : Slot.firstBit ⟨genPad n, sizes cur, n⟩ = 8 * sizes cur := rfl
    refine (h.snoc (f := genPad n) (hfirst ▸ hp)).mono ?_
    rw [sizes_snoc]
    refine le_trans (le_of_eq ?_) (le_max_right _ _)
    change 8 * sizes cur + 8 * n = 8 * (sizes cur + n)
    omega
  · intro h
    rw [forall_slots_snoc]
    refine ⟨h, zero_le _, ?_, ?_⟩
    · intro _ hpad
      cases hpad
    · intro hv
      cases hv
  · rw [any_append]
    exact Bool.or_false _

theorem grown_last (packed : Bool) (p : Nat) (n : Nat) (hb : f.isBitfield = true)
    (hzero : f.typeSize = 0) (hv : f.varlen = false) :
    Grown packed p n (l ++ [f]) (l ++ [{ f with typeSize := n }]) := by
  refine ⟨?_, ?_, ?_, ?_, ?_⟩
  · rw [sizes_snoc, sizes_snoc, hzero]
    rfl
  · rw [forall_mem_snoc, forall_mem_snoc]
    have hiff : ({ f with typeSize := n } : FieldType).InUnit ↔ f.InUnit := by
      have hb' : ({ f with typeSize := n } : FieldType).isBitfield = true := hb
      simp only [FieldType.InUnit, FieldType.unitSize, hb, hb', if_true]
    rw [hiff]
  · intro h
    exact (h.resize hb n).mono (le_max_left _ _)
  · intro h
    rw [forall_slots_snoc] at h ⊢
    obtain ⟨hl, hunit, haligned, -⟩ := h
    refine ⟨hl, hunit, haligned, ?_⟩
    intro hvar
    rw [show ({ f with typeSize := n } : FieldType).varlen = f.varlen from rfl, hv] at hvar
    cases hvar
  · simp

/-! ## The walk over the fields of a part -/

/-- The last field emitted is a bitfield whose size is not yet known. -/
def EndsOpen (fields : List FieldType) : Prop :=
  ∃ l f, fields = l ++ [f] ∧ f.isBitfield = true ∧ f.typeSize = 0 ∧ f.varlen = false

/-- The variables of the loop when the fields `seen` of a part have been laid out
as `cur`, after the fields `done` of the part before it. -/
structure Cursor.Inv (packed : Bool) (done cur seen : List FieldType) (c : Cursor) : Prop where
  fields : c.newFields = done ++ cur
  bytes : c.byteOffset = sizes cur
  turn : 8 * c.byteOffset + c.bitOffset = sweep packed seen
  pending : c.prevBitfield = true ∧ EndsOpen cur ∨
    c.bitOffset = 0 ∧ (c.prevBitfield = true → c.byteOffset = 0)
  inUnit : (∀ f ∈ cur, f.InUnit) ↔ WrapAligned packed seen
  ordered : WrapAligned packed seen → Ordered cur (sweep packed seen)
  slots : ∀ s ∈ slots cur, s.Ok packed
  varlen : cur.any FieldType.varlen = seen.any FieldType.varlen
  structAlign : c.structAlign =
    if packed then 0 else seen.foldl (fun a f => max a f.align) 0

theorem sweep_snoc (packed : Bool) (seen : List FieldType) (f : FieldType) :
    sweep packed (seen ++ [f]) = f.nextBit packed (sweep packed seen) := by
  unfold sweep
  rw [foldl_append]
  rfl

theorem wrapAligned_nil (packed : Bool) : WrapAligned packed [] := by
  intro before f after h
  cases before <;> cases h

theorem wrapAligned_snoc (packed : Bool) (seen : List FieldType) (f : FieldType) :
    WrapAligned packed (seen ++ [f]) ↔
      WrapAligned packed seen ∧ f.WrapsAligned packed (sweep packed seen) := by
  constructor
  · intro h
    refine ⟨?_, h seen f [] rfl⟩
    intro before g after heq
    exact h before g (after ++ [f]) (by rw [heq, append_assoc, cons_append])
  · rintro ⟨h, hf⟩ before g after heq
    rcases eq_nil_or_concat after with rfl | ⟨after', x, rfl⟩
    · obtain ⟨rfl, hg⟩ := append_inj' heq rfl
      rw [← singleton_inj.mp hg]
      exact hf
    · rw [concat_eq_append, ← cons_append, ← append_assoc] at heq
      exact h before g after' (append_inj' heq rfl).1

theorem FieldType.startBit_zero (f : FieldType) (packed : Bool) :
    f.startBit packed 0 = 0 := by
  have hceil : ∀ a, ceilTo 0 a = 0 := by
    intro a
    unfold ceilTo
    rcases Nat.eq_zero_or_pos a with rfl | ha
    · rfl
    · rw [zero_add, div_eq_of_lt (by omega), zero_mul]
  unfold FieldType.startBit
  simp only [hceil, ite_self]

theorem FieldType.le_startBit (hf : f.Checked) (packed : Bool) (p : Nat) :
    p ≤ f.startBit packed p := by
  have hpow : ∀ a, (∃ k, a = 2 ^ k) → p ≤ ceilTo p (8 * a) := by
    rintro a ⟨k, rfl⟩
    exact le_ceilTo p (Nat.mul_pos (by omega) (Nat.two_pow_pos k))
  unfold FieldType.startBit
  split
  · split
    · exact le_refl _
    · exact hpow _ (hf.unitAlign_pow ‹_› packed)
  · refine hpow _ ?_
    unfold FieldType.fieldAlign
    split
    · exact ⟨0, rfl⟩
    · exact hf.align

/-- Padding up to the spot of the next field. -/
theorem Cursor.fill_ok (packed : Bool) (hfields : c.newFields = done ++ cur)
    (hbytes : c.byteOffset = sizes cur)
    (hpending : c.prevBitfield = true ∧ EndsOpen cur ∨
      c.bitOffset = 0 ∧ p ≤ 8 * sizes cur ∧ (offset > c.byteOffset → c.prevBitfield = false))
    (hconsumed : c.bitOffset = 0 ∨ 8 * (offset - c.byteOffset) ≤ c.bitOffset) :
    ∃ c' cur', c.fill offset = .ok c' ∧ Grown packed p (offset - c.byteOffset) cur cur' ∧
      c' = { c with
        newFields := done ++ cur', byteOffset := max c.byteOffset offset
        bitOffset := c.bitOffset - 8 * (offset - c.byteOffset) } := by
  unfold Cursor.fill
  by_cases hgt : offset > c.byteOffset
  · have hmax : max c.byteOffset offset = c.byteOffset + (offset - c.byteOffset) := by omega
    rw [if_pos hgt, hmax]
    rcases hpending with ⟨hprev, l, f, rfl, hb, hzero, hv⟩ | ⟨hbit, hp, hprev⟩
    · rw [if_pos hprev, hprev, hfields]
      have hlast : addPad true (offset - c.byteOffset) (done ++ (l ++ [f])) =
          done ++ (l ++ [{ f with typeSize := offset - c.byteOffset }]) := by
        unfold addPad
        rw [if_pos rfl, ← append_assoc, setLastTypeSize_snoc, append_assoc]
      rw [hlast]
      refine ⟨_, _, ?_, grown_last packed p _ hb hzero hv, rfl⟩
      split
      · rfl
      · have : c.bitOffset = 0 := by omega
        rw [if_neg (by omega), this, Nat.zero_sub]
        rfl
    · rw [hprev hgt, hbit, hfields]
      refine ⟨_, _, rfl, grown_pad packed _ hp, ?_⟩
      rw [Nat.zero_sub, ← append_assoc]
      rfl
  · rw [if_neg hgt]
    have hzero : offset - c.byteOffset = 0 := by omega
    refine ⟨c, cur, rfl, hzero ▸ .refl packed p cur, ?_⟩
    rw [hzero, show max c.byteOffset offset = c.byteOffset by omega, ← hfields]
    rfl

/-- The field as it is emitted at its spot, `bytes` bytes into the part. -/
def FieldType.placed (f : FieldType) (spot : Spot) (bytes : Nat) : FieldType :=
  if f.isBitfield then
    { f with bitfieldOff := spot.fieldBitOffset, bitfieldUnitOff := bytes - spot.fieldOffset }
  else f

theorem Cursor.append_newFields (hf : f.Checked) :
    (c.append spot f).newFields = c.newFields ++ [f.placed spot c.byteOffset] := by
  unfold Cursor.append FieldType.placed
  split
  · split
    · rfl
    · rw [hf.unitOff, show c.byteOffset - spot.fieldOffset = 0 by omega]
  · rfl

section Placed

variable {packed : Bool} {p bytes : Nat} {f : FieldType} {spot : Spot}

theorem FieldType.placed_isBitfield : (f.placed spot bytes).isBitfield = f.isBitfield := by
  unfold FieldType.placed
  split <;> rfl

theorem FieldType.placed_typeSize : (f.placed spot bytes).typeSize = f.typeSize := by
  unfold FieldType.placed
  split <;> rfl

theorem FieldType.placed_varlen : (f.placed spot bytes).varlen = f.varlen := by
  unfold FieldType.placed
  split <;> rfl

theorem Spot.Ok.placed_inUnit (h : spot.Ok packed p bytes f) (n : Nat) :
    (f.placed spot n).InUnit ↔ f.WrapsAligned packed p := by
  cases hb : f.isBitfield with
  | true =>
    rw [← h.inUnit hb]
    unfold FieldType.InUnit FieldType.unitSize
    rw [placed_isBitfield, hb]
    unfold FieldType.placed
    rw [if_pos hb]
    exact ⟨fun h => h rfl, fun h _ => h⟩
  | false =>
    refine iff_of_true ?_ ?_
    · intro hbit
      rw [placed_isBitfield, hb] at hbit
      cases hbit
    · intro hbit
      rw [hb] at hbit
      cases hbit

theorem Spot.Ok.max_plain (h : spot.Ok packed p bytes f) (hb : f.isBitfield = false) :
    8 * max bytes spot.fieldOffset = f.startBit packed p := by
  have hposition := h.position
  have hplain := h.plain hb
  omega

theorem Spot.Ok.placed_firstBit (h : spot.Ok packed p bytes f) (n : Nat)
    (hwraps : f.WrapsAligned packed p) :
    Slot.firstBit ⟨f.placed spot (max bytes spot.fieldOffset), max bytes spot.fieldOffset, n⟩ =
      f.startBit packed p := by
  unfold Slot.firstBit Slot.unitStart
  rw [placed_isBitfield]
  cases hb : f.isBitfield with
  | true =>
    have hunit := h.unit hb hwraps
    unfold FieldType.placed
    rw [if_pos rfl, if_pos hb]
    dsimp only
    omega
  | false => exact h.max_plain hb

theorem Spot.Ok.placed_endBit (h : spot.Ok packed p bytes f) (hf : f.Checked)
    (hwraps : f.WrapsAligned packed p) :
    Slot.endBit ⟨f.placed spot (max bytes spot.fieldOffset), max bytes spot.fieldOffset,
      (f.placed spot (max bytes spot.fieldOffset)).typeSize⟩ = f.nextBit packed p := by
  unfold Slot.endBit FieldType.nextBit
  rw [h.placed_firstBit _ hwraps]
  dsimp only
  rw [placed_isBitfield, placed_typeSize]
  congr 1
  unfold FieldType.placed
  split
  · rfl
  · split
    · rw [hf.varlen ‹_›]
    · rfl

theorem Spot.Ok.placed_slot (h : spot.Ok packed p bytes f) (hf : f.Checked) (n : Nat) :
    Slot.Ok packed ⟨f.placed spot (max bytes spot.fieldOffset), max bytes spot.fieldOffset, n⟩ := by
  cases hb : f.isBitfield with
  | true =>
    unfold FieldType.placed
    rw [if_pos hb]
    refine ⟨sub_le _ _, ?_, ?_⟩
    · intro hpacked _
      have := h.aligned hpacked
      unfold Slot.unitStart
      rwa [show max bytes spot.fieldOffset - (max bytes spot.fieldOffset - spot.fieldOffset) =
        spot.fieldOffset by omega]
    · intro hv
      rw [show f.varlen = false from (hf.unplaced hb).2] at hv
      cases hv
  | false =>
    have hmax := h.max_plain hb
    have hplain := h.plain hb
    unfold FieldType.placed
    rw [if_neg (by rw [hb]; exact Bool.false_ne_true)]
    refine ⟨hf.unitOff.trans_le (zero_le _), ?_, fun hv => ⟨hf.varlen hv, hb⟩⟩
    intro hpacked _
    have := h.aligned hpacked
    unfold Slot.unitStart
    rwa [hf.unitOff, Nat.sub_zero, show max bytes spot.fieldOffset = spot.fieldOffset by omega]

end Placed

/-- The loop variables after a field has been appended. -/
theorem Cursor.append_offsets (h : spot.Ok packed p bytes f) (hf : f.Checked)
    (hbytes : c.byteOffset = max bytes spot.fieldOffset)
    (hbit : c.bitOffset = spot.bitOffset - 8 * (spot.fieldOffset - bytes)) :
    (c.append spot f).byteOffset = c.byteOffset + f.typeSize ∧
      8 * (c.append spot f).byteOffset + (c.append spot f).bitOffset = f.nextBit packed p ∧
      (f.isBitfield = false → (c.append spot f).bitOffset = 0) := by
  have hposition := h.position
  unfold Cursor.append FieldType.nextBit
  cases hb : f.isBitfield with
  | true =>
    have hzero := (hf.unplaced hb).1
    simp only [if_true]
    refine ⟨by omega, by omega, ?_⟩
    intro hn
    cases hn
  | false =>
    have hplain := h.plain hb
    simp only [Bool.false_eq_true, if_false]
    cases hv : f.varlen with
    | true =>
      have hzero := hf.varlen hv
      simp only [if_true]
      exact ⟨by omega, by omega, fun _ => by omega⟩
    | false =>
      simp only [Bool.false_eq_true, if_false]
      exact ⟨trivial, by omega, fun _ => by omega⟩

/-- **One iteration keeps the invariant**, and never panics. -/
theorem Cursor.Inv.layoutField {seen : List FieldType} (h : c.Inv packed done cur seen)
    (hf : f.Checked) :
    ∃ c' cur', c.layoutField packed f = .ok c' ∧ c'.Inv packed done cur' (seen ++ [f]) ∧
      c'.overlayField = c.overlayField := by
  have hturn : c.byteOffset * 8 + c.bitOffset = sweep packed seen := by
    rw [← h.turn, mul_comm]
  obtain ⟨spot, hplace, hok⟩ := place_ok packed hf h.turn.symm
  have hposition := hok.position
  have hle := le_startBit hf packed (sweep packed seen)
  have hbytes := h.bytes
  have hturn' := h.turn
  obtain ⟨c', cur', hfill, hgrown, hc'⟩ := Cursor.fill_ok packed
    (c := { c with
      structAlign := if packed then c.structAlign else max c.structAlign f.align
      bitOffset := spot.bitOffset })
    (p := sweep packed seen) h.fields h.bytes
    (by
      rcases h.pending with hopen | ⟨hbit, hprev⟩
      · exact Or.inl hopen
      refine Or.inr ⟨hok.reset (by omega), by omega, ?_⟩
      -- the first field of a part starts at bit 0, so nothing is padded before it
      intro hgt
      by_contra hcon
      have hzero := hprev (by simpa using hcon)
      have hsweep : sweep packed seen = 0 := by omega
      have hstart := f.startBit_zero packed
      rw [hsweep, hstart] at hposition
      omega)
    hok.consumed
  have hsize : sizes cur' = max c.byteOffset spot.fieldOffset := by
    rw [hgrown.size]
    dsimp only
    omega
  obtain ⟨hbyte', hturn'', hbit'⟩ := Cursor.append_offsets (c := c') hok hf
    (by rw [hc']) (by rw [hc'])
  refine ⟨c'.append spot f, cur' ++ [f.placed spot c'.byteOffset], ?_, ?_, ?_⟩
  · unfold Cursor.layoutField
    rw [hturn, hplace]
    dsimp only [bind, Except.bind]
    rw [hfill]
    rfl
  · have hc'bytes : c'.byteOffset = max c.byteOffset spot.fieldOffset := by rw [hc']
    refine ⟨?_, ?_, ?_, ?_, ?_, ?_, ?_, ?_, ?_⟩
    · rw [Cursor.append_newFields hf, hc', append_assoc]
    · rw [hbyte', sizes_snoc, placed_typeSize, hsize, hc'bytes]
    · rw [hturn'', sweep_snoc]
    · cases hb : f.isBitfield with
      | true =>
        obtain ⟨hzero, hv⟩ := hf.unplaced hb
        refine Or.inl ⟨?_, cur', _, rfl, ?_, ?_, ?_⟩
        · unfold Cursor.append
          rw [if_pos hb]
        · rw [placed_isBitfield, hb]
        · rw [placed_typeSize, hzero]
        · rw [placed_varlen, hv]
      | false =>
        refine Or.inr ⟨hbit' hb, ?_⟩
        intro hprev
        unfold Cursor.append at hprev
        rw [if_neg (by rw [hb]; exact Bool.false_ne_true)] at hprev
        cases hprev
    · rw [forall_mem_snoc, hgrown.inUnit, h.inUnit, wrapAligned_snoc, hok.placed_inUnit]
    · rw [wrapAligned_snoc, sweep_snoc]
      rintro ⟨hseen, hwraps⟩
      have hord := hgrown.ordered (h.ordered hseen)
      rw [hc'bytes, ← hok.placed_endBit hf hwraps, ← hsize]
      refine hord.snoc ?_
      rw [hsize, hok.placed_firstBit _ hwraps]
      omega
    · rw [forall_slots_snoc, hc'bytes, hsize]
      exact ⟨hgrown.slots h.slots, hok.placed_slot hf _⟩
    · rw [any_append, any_append, hgrown.varlen, h.varlen, any_cons,
        any_cons, placed_varlen]
    · have hsame : (c'.append spot f).structAlign = c'.structAlign := by
        unfold Cursor.append
        split <;> rfl
      rw [hsame, hc', foldl_append, h.structAlign]
      split <;> rfl
  · unfold Cursor.append
    rw [hc']
    split <;> rfl

end Sect.Compiler
