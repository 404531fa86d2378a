import SectProof.LayoutWalk

/-! # Soundness of struct layout

The two parts of a struct are walked over independently, each is closed with
trailing padding (`Closed`), and the slots of a closed part keep their order
when fields of variable length take up space.  **`layoutStruct_sound_iff`** says
for which structs the result is sound: the compiler never panics, and layout
goes wrong exactly for a packed bitfield that is moved to a byte that is not a
multiple of its unit, and for a `size` attribute that pads an overlay smaller
than the fields before it.
-/

open List Nat

namespace Sect.Compiler

/-! ## Fields of variable length -/

variable {f : FieldType} {n : Nat} {t : StructType} {part cur done : List FieldType} {c : Cursor}

theorem typeSize_le (hn : f.varlen = false → n = f.typeSize)
    (hzero : f.varlen = true → f.typeSize = 0 ∧ f.isBitfield = false) : f.typeSize ≤ n := by
  cases hv : f.varlen with
  | true =>
    rw [(hzero hv).1]
    exact zero_le n
  | false => exact (hn hv).ge

variable {packed : Bool} {offset a : Nat} {seen : List FieldType} {ns : List Nat}

/-- Where the fields before it take up `shift` bytes more, a field moves by as
many bytes. -/
theorem Slot.firstBit_shift {size : Nat} (h : Slot.Ok packed ⟨f, offset, size⟩)
    (shift size' : Nat) :
    Slot.firstBit ⟨f, offset + shift, size'⟩ = Slot.firstBit ⟨f, offset, size⟩ + 8 * shift := by
  have hunit := h.unit
  unfold Slot.firstBit Slot.unitStart
  dsimp only at hunit ⊢
  split <;> omega

theorem Slot.endBit_shift (h : Slot.Ok packed ⟨f, offset, f.typeSize⟩)
    (hn : f.varlen = false → n = f.typeSize) (shift : Nat) :
    Slot.endBit ⟨f, offset + shift, n⟩ =
      Slot.endBit ⟨f, offset, f.typeSize⟩ + 8 * (shift + (n - f.typeSize)) := by
  have hle := typeSize_le hn h.varlen
  unfold Slot.endBit
  rw [Slot.firstBit_shift h]
  dsimp only
  split
  · have hv : f.varlen = false := by
      by_contra hv
      have := (h.varlen (by simpa using hv)).2
      simp_all
    rw [hn hv]
    omega
  · omega

section Locate

variable {packed : Bool} {fields : List FieldType} {ns : List Nat}

theorem firstBit_locate (hext : Extents fields ns) (bound : Nat) : ∀ offset shift : Nat,
    (∀ s ∈ locate offset fields (fields.map FieldType.typeSize), s.Ok packed) →
    (∀ s ∈ locate offset fields (fields.map FieldType.typeSize), bound ≤ s.firstBit) →
    ∀ s ∈ locate (offset + shift) fields ns, bound + 8 * shift ≤ s.firstBit := by
  induction hext with
  | nil =>
    intro offset shift _ _ s hs
    cases hs
  | @cons f n fields ns hn hext ih =>
    intro offset shift hok hbound s hs
    simp only [map_cons, locate, forall_mem_cons] at hok hbound
    simp only [locate, mem_cons] at hs
    rcases hs with rfl | hs
    · rw [Slot.firstBit_shift hok.1]
      omega
    · have hle := typeSize_le hn hok.1.varlen
      have := ih (offset + f.typeSize) (shift + (n - f.typeSize)) hok.2 hbound.2 s
        (by rwa [show offset + f.typeSize + (shift + (n - f.typeSize)) = offset + shift + n by omega])
      omega

/-- Slots that follow each other do so for any sizes of the fields of variable
length. -/
theorem pairwise_locate (hext : Extents fields ns) : ∀ offset shift : Nat,
    (∀ s ∈ locate offset fields (fields.map FieldType.typeSize), s.Ok packed) →
    (locate offset fields (fields.map FieldType.typeSize)).Pairwise
      (fun a b => a.endBit ≤ b.firstBit) →
    (locate (offset + shift) fields ns).Pairwise fun a b => a.endBit ≤ b.firstBit := by
  induction hext with
  | nil =>
    intro offset shift _ _
    exact .nil
  | @cons f n fields ns hn hext ih =>
    intro offset shift hok hpair
    simp only [map_cons, locate, forall_mem_cons, pairwise_cons] at hok hpair ⊢
    have hle := typeSize_le hn hok.1.varlen
    have hoffset : offset + f.typeSize + (shift + (n - f.typeSize)) = offset + shift + n := by
      omega
    rw [← hoffset]
    refine ⟨?_, ih _ _ hok.2 hpair.2⟩
    intro s hs
    rw [Slot.endBit_shift hok.1 hn]
    exact firstBit_locate hext _ _ _ hok.2 hpair.1 s hs

theorem endBit_locate (hext : Extents fields ns) : ∀ offset shift : Nat,
    (∀ s ∈ locate offset fields (fields.map FieldType.typeSize), s.Ok packed) →
    (∀ s ∈ locate offset fields (fields.map FieldType.typeSize),
      s.endBit ≤ 8 * (offset + sizes fields)) →
    sizes fields ≤ ns.sum ∧
      ∀ s ∈ locate (offset + shift) fields ns, s.endBit ≤ 8 * (offset + shift + ns.sum) := by
  induction hext with
  | nil =>
    intro offset shift _ _
    refine ⟨le_refl _, ?_⟩
    intro s hs
    cases hs
  | @cons f n fields ns hn hext ih =>
    intro offset shift hok hend
    have hsizes : sizes (f :: fields) = f.typeSize + sizes fields := sum_cons
    simp only [map_cons, locate, forall_mem_cons] at hok hend
    rw [hsizes, ← add_assoc] at hend
    have hle := typeSize_le hn hok.1.varlen
    obtain ⟨hsum, htail⟩ := ih (offset + f.typeSize) (shift + (n - f.typeSize)) hok.2 hend.2
    have hoffset : offset + f.typeSize + (shift + (n - f.typeSize)) = offset + shift + n := by
      omega
    rw [hoffset] at htail
    rw [hsizes, sum_cons]
    refine ⟨by omega, ?_⟩
    simp only [locate, forall_mem_cons]
    constructor
    · rw [Slot.endBit_shift hok.1 hn]
      have := hend.1
      omega
    · intro s hs
      have := htail s hs
      omega

end Locate

/-! ## The end of a part -/

/-- The fields `cur` a part has been laid out as. -/
structure Closed (t : StructType) (part cur : List FieldType) : Prop where
  inUnit : (∀ f ∈ cur, f.InUnit) ↔ WrapAligned t.packed part
  ordered : WrapAligned t.packed part → Ordered cur (8 * sizes cur)
  slots : ∀ s ∈ slots cur, s.Ok t.packed
  varlen : cur.any FieldType.varlen = part.any FieldType.varlen

theorem Closed.grow {cur' : List FieldType} (h : Closed t part cur)
    (hgrown : Grown t.packed (8 * sizes cur) n cur cur') : Closed t part cur' := by
  refine ⟨hgrown.inUnit.trans h.inUnit, ?_, hgrown.slots h.slots, hgrown.varlen.trans h.varlen⟩
  intro hwrap
  have hsize := hgrown.size
  exact (hgrown.ordered (h.ordered hwrap)).mono (by omega)

/-- The bit offset left at the end of a part becomes whole bytes. -/
theorem Cursor.Inv.closeBits (h : c.Inv t.packed done cur seen) :
    ∃ cur', finalizeBits c.newFields c.byteOffset c.bitOffset = .ok (done ++ cur', sizes cur') ∧
      sizes cur' = (sweep t.packed seen + 7) / 8 ∧ Closed t seen cur' := by
  have hturn := h.turn
  have hbytes := h.bytes
  unfold finalizeBits
  by_cases hbit : c.bitOffset = 0
  · rw [if_neg (not_not.mpr hbit), h.fields, hbytes]
    refine ⟨cur, rfl, by omega, h.inUnit, ?_, h.slots, h.varlen⟩
    intro hwrap
    exact (h.ordered hwrap).mono (by omega)
  · obtain ⟨l, f, rfl, hb, hzero, hv⟩ : EndsOpen cur := by
      rcases h.pending with ⟨-, hopen⟩ | ⟨hz, -⟩
      · exact hopen
      · exact absurd hz hbit
    rw [if_pos hbit, roundup_eight]
    have hlast : (done ++ (l ++ [f])).getLast?.any FieldType.isBitfield = true := by
      rw [← append_assoc, getLast?_append]
      exact hb
    have hgrown := grown_last t.packed (sweep t.packed seen) (l := l)
      (ceilTo c.bitOffset 8 / 8) hb hzero hv
    have hsize := hgrown.size
    have hpad : sizes (l ++ [{ f with typeSize := ceilTo c.bitOffset 8 / 8 }]) =
        (sweep t.packed seen + 7) / 8 := by
      unfold ceilTo at hsize ⊢
      omega
    refine ⟨l ++ [{ f with typeSize := ceilTo c.bitOffset 8 / 8 }], ?_, hpad, ?_⟩
    · dsimp only [bind, Except.bind]
      rw [h.fields, hlast, hsize, ← hbytes]
      unfold addPad
      rw [if_pos rfl, ← append_assoc, setLastTypeSize_snoc, append_assoc]
      rfl
    · refine ⟨hgrown.inUnit.trans h.inUnit, ?_, hgrown.slots h.slots,
        hgrown.varlen.trans h.varlen⟩
      intro hwrap
      exact (hgrown.ordered (h.ordered hwrap)).mono (by omega)

theorem ceilTo_of_mod (h : n % a = 0) (ha : a ≠ 0) : ceilTo n a = n := by
  obtain ⟨q, rfl⟩ := dvd_of_mod_eq_zero h
  unfold ceilTo
  rw [show a * q + a - 1 = (a - 1) + a * q by omega, add_mul_div_left _ _ (by omega),
    div_eq_of_lt (by omega), zero_add, mul_comm]

theorem ceilTo_of_mod_ne (h : n % a ≠ 0) (ha : a ≠ 0) : ceilTo n a = n + (a - n % a) := by
  have hdiv := div_add_mod n a
  have hlt := mod_lt n (pos_of_ne_zero ha)
  have hquot : (n + a - 1) / a = n / a + 1 := by
    rw [← hdiv, show a * (n / a) + n % a + a - 1 = (n % a - 1) + a * (n / a + 1) by
      rw [mul_add]; omega, add_mul_div_left _ _ (by omega),
      div_eq_of_lt (by omega), zero_add]
    rw [hdiv]
  unfold ceilTo
  rw [hquot, add_mul, one_mul, mul_comm]
  omega

/-- **A part is closed** with its fields laid out and padded to its size. -/
theorem Cursor.Inv.finalize (h : c.Inv t.packed done cur seen) (varlen : Bool) :
    ∃ cur', finalizeStructFields t c.newFields varlen c.structAlign c.byteOffset c.bitOffset =
        .ok (done ++ cur') ∧
      Closed t seen cur' ∧ (varlen = false → sizes cur' = t.partSize seen) := by
  obtain ⟨bits, hbits, hsize, hclosed⟩ := h.closeBits
  have halign : (if t.alignAttr ≠ 0 then t.alignAttr else c.structAlign) = t.partAlign seen := by
    unfold StructType.partAlign
    rw [h.structAlign]
  unfold finalizeStructFields
  rw [hbits]
  dsimp only [bind, Except.bind]
  rw [halign]
  split
  · rename_i hcond
    refine ⟨bits ++ [genPad (t.partAlign seen - sizes bits % t.partAlign seen)], ?_,
      hclosed.grow (grown_pad t.packed _ (le_refl _)), ?_⟩
    · rw [← append_assoc]
      rfl
    · intro _
      unfold StructType.partSize
      rw [sizes_snoc, if_neg hcond.2.1, ← hsize, ceilTo_of_mod_ne hcond.2.2 hcond.2.1]
      rfl
  · rename_i hcond
    refine ⟨bits, rfl, hclosed, ?_⟩
    intro hvarlen
    unfold StructType.partSize
    rw [← hsize]
    split
    · rfl
    · rename_i hne
      refine (ceilTo_of_mod ?_ hne).symm
      by_contra hmod
      exact hcond ⟨by rw [hvarlen]; rfl, hne, hmod⟩

/-! ## The whole struct -/

theorem Cursor.inv_nil (packed : Bool) (hfields : c.newFields = done) (hbytes : c.byteOffset = 0)
    (hbit : c.bitOffset = 0) (halign : c.structAlign = 0) : c.Inv packed done [] [] := by
  refine ⟨?_, hbytes, ?_, .inr ⟨hbit, fun _ => hbytes⟩, ?_, ?_, ?_, rfl, ?_⟩
  · rw [hfields, append_nil]
  · rw [hbytes, hbit]
    rfl
  · exact iff_of_true (by simp) (wrapAligned_nil packed)
  · intro _
    exact ⟨.nil, by intro s hs; cases hs⟩
  · intro s hs
    cases hs
  · rw [halign]
    split <;> rfl

/-- The fields of one part, walked over one after the other. -/
theorem Cursor.Inv.layoutLoop (varlen : Bool) {fields : List FieldType}
    (hchecked : ∀ f ∈ fields, f.Checked) :
    ∀ {i : Nat} {cur seen : List FieldType} {c : Cursor}, c.Inv t.packed done cur seen →
      (i + fields.length ≤ t.overlayField ∨ t.overlayField < i) →
      ∃ c' cur', Compiler.layoutLoop t varlen i fields c = .ok c' ∧
        c'.Inv t.packed done cur' (seen ++ fields) ∧ c'.overlayField = c.overlayField := by
  induction fields with
  | nil =>
    intro i cur seen c h _
    exact ⟨c, cur, rfl, by rwa [append_nil], rfl⟩
  | cons f fields ih =>
    intro i cur seen c h hi
    rw [forall_mem_cons] at hchecked
    rw [length_cons] at hi
    obtain ⟨c', cur', hfield, hinv, hoverlay⟩ := h.layoutField hchecked.1
    obtain ⟨c'', cur'', hloop, hinv', hoverlay'⟩ := ih hchecked.2 (i := i + 1) hinv (by omega)
    refine ⟨c'', cur'', ?_, ?_, hoverlay'.trans hoverlay⟩
    · unfold Compiler.layoutLoop
      rw [if_neg (by omega)]
      dsimp only [bind, Except.bind, pure, Except.pure]
      rw [hfield]
      exact hloop
    · rwa [append_assoc] at hinv'

theorem layoutLoop_append (t : StructType) (varlen : Bool) (fields fields' : List FieldType) :
    ∀ (i : Nat) (c : Cursor), layoutLoop t varlen i (fields ++ fields') c =
      layoutLoop t varlen i fields c >>= layoutLoop t varlen (i + fields.length) fields' := by
  induction fields with
  | nil =>
    intro i c
    rfl
  | cons f fields ih =>
    intro i c
    have hrest : ∀ c : Cursor,
        (c.layoutField t.packed f >>= layoutLoop t varlen (i + 1) (fields ++ fields')) =
          (c.layoutField t.packed f >>= layoutLoop t varlen (i + 1) fields) >>=
            layoutLoop t varlen (i + (f :: fields).length) fields' := by
      intro c
      rw [bind_assoc]
      refine bind_congr fun c => ?_
      rw [ih, length_cons, add_right_comm, add_assoc]
    rw [cons_append, layoutLoop, layoutLoop]
    split
    · rw [bind_assoc]
      exact bind_congr hrest
    · exact hrest c

/-- **Both parts of a struct are laid out and closed**, without a panic. -/
theorem layoutStructFields_ok (ht : t.Checked) (varlen : Bool) :
    ∃ first overlay, layoutStructFields t varlen =
        .ok { t with fields := first ++ overlay, overlayField := first.length } ∧
      Closed t t.firstPart first ∧ Closed t t.overlayPart overlay ∧
      (varlen = false →
        sizes first = t.partSize t.firstPart ∧ sizes overlay = t.partSize t.overlayPart) := by
  have hsplit : t.fields = t.firstPart ++ t.overlayPart := (take_append_drop _ _).symm
  have hlength : t.firstPart.length = t.overlayField := by
    unfold StructType.firstPart
    rw [length_take, min_eq_left ht.overlay.le]
  have hchecked := ht.fields
  rw [hsplit, forall_mem_append] at hchecked
  obtain ⟨f, rest, hover⟩ : ∃ f rest, t.overlayPart = f :: rest := by
    refine exists_cons_of_ne_nil ?_
    unfold StructType.overlayPart
    rw [Ne, drop_eq_nil_iff]
    exact not_le.mpr ht.overlay
  -- the fields before the overlay
  obtain ⟨c1, cur1, hloop1, hinv1, -⟩ := Cursor.Inv.layoutLoop (t := t) varlen hchecked.1 (i := 0)
    (Cursor.inv_nil t.packed (c := { overlayField := t.overlayField }) rfl rfl rfl rfl)
    (.inl (by omega))
  obtain ⟨first, hfinal1, hclosed1, hsize1⟩ := hinv1.finalize varlen
  -- the overlay
  rw [hover, forall_mem_cons] at hchecked
  obtain ⟨c2, cur2, hfield2, hinv2, hoverlay2⟩ := (Cursor.inv_nil t.packed
    (c := { c1 with
      newFields := first, overlayField := first.length, structAlign := 0, byteOffset := 0
      bitOffset := 0 }) rfl rfl rfl rfl).layoutField hchecked.2.1
  obtain ⟨c3, cur3, hloop3, hinv3, hoverlay3⟩ := hinv2.layoutLoop varlen hchecked.2.2
    (i := t.overlayField + 1) (.inr (lt_succ_self _))
  obtain ⟨overlay, hfinal3, hclosed3, hsize3⟩ := hinv3.finalize varlen
  have hloop : layoutLoop t varlen (0 + t.overlayField) (f :: rest) c1 = .ok c3 := by
    unfold layoutLoop Cursor.startOverlay
    rw [zero_add, if_pos rfl, hfinal1]
    dsimp only [bind, Except.bind, pure, Except.pure]
    rw [nil_append, hfield2]
    exact hloop3
  refine ⟨first, overlay, ?_, hclosed1, ?_, ?_⟩
  · unfold layoutStructFields
    rw [hsplit, layoutLoop_append, hloop1, hlength, hover]
    dsimp only [bind, Except.bind]
    rw [hloop]
    dsimp only
    rw [hfinal3, hoverlay3, hoverlay2]
    rfl
  · rw [hover]
    exact hclosed3
  · intro hv
    rw [hover]
    exact ⟨hsize1 hv, hsize3 hv⟩

/-! ## The size of the struct -/

/-- Away from the overlay index the size loop adds up. -/
theorem sizeLoop_part {k : Nat} (fields : List FieldType) : ∀ (i size best : Nat) (rest : List FieldType),
    (i + fields.length ≤ k ∨ k < i) → size ≤ best →
    sizeLoop k i (fields ++ rest) size best =
      sizeLoop k (i + fields.length) rest (size + sizes fields) (max best (size + sizes fields)) := by
  induction fields with
  | nil =>
    intro i size best rest _ hle
    rw [show sizes [] = 0 from rfl, add_zero, max_eq_left hle]
    rfl
  | cons f fields ih =>
    intro i size best rest hi hle
    rw [length_cons] at hi
    rw [cons_append, sizeLoop, if_neg (by omega)]
    rw [ih (i + 1) _ _ rest (by omega) (by omega), length_cons,
      show sizes (f :: fields) = f.typeSize + sizes fields from sum_cons]
    congr 1 <;> omega

theorem sizeLoop_eq (first overlay : List FieldType) :
    sizeLoop first.length 0 (first ++ overlay) 0 0 = max (sizes first) (sizes overlay) := by
  rw [sizeLoop_part first 0 0 0 overlay (Or.inl (by omega)) (le_refl _)]
  cases overlay with
  | nil =>
    rw [sizeLoop, show sizes [] = 0 from rfl]
    omega
  | cons f overlay =>
    rw [sizeLoop, if_pos (by omega)]
    have := sizeLoop_part (k := first.length) overlay (0 + first.length + 1) (0 + f.typeSize)
      (max (max 0 (0 + sizes first)) (0 + f.typeSize)) [] (.inr (by omega)) (by omega)
    rw [append_nil] at this
    rw [this, sizeLoop, show sizes (f :: overlay) = f.typeSize + sizes overlay from sum_cons]
    omega

/-- The `size` attribute pads the overlay up to the size it is missing from the
larger of the two parts. -/
theorem assignSize_ok (first : List FieldType) {overlay : List FieldType}
    (hover : Closed t part overlay) :
    (∃ size structSize, t.sizeAttr = some size ∧ size < structSize ∧
        assignSize { t with fields := first ++ overlay, overlayField := first.length } =
          .error (.sizeAttr size structSize)) ∨
    ∃ overlay' typeSize,
      assignSize { t with fields := first ++ overlay, overlayField := first.length } =
        .ok { t with fields := first ++ overlay', overlayField := first.length, typeSize } ∧
      Closed t part overlay' ∧ sizes first ≤ typeSize ∧ sizes overlay' ≤ typeSize ∧
      (typeSize = max (sizes first) (sizes overlay') ↔
        ∀ size, t.sizeAttr = some size → sizes first ≤ sizes overlay ∨ sizes first = size) := by
  unfold assignSize
  rw [sizeLoop_eq]
  cases hattr : t.sizeAttr with
  | none =>
    refine .inr ⟨overlay, _, rfl, hover, by omega, by omega, iff_of_true rfl ?_⟩
    intro size hsize
    cases hsize
  | some size =>
    dsimp only
    split
    · exact .inl ⟨size, _, rfl, ‹_›, rfl⟩
    have hiff : (∀ n, some size = some n → sizes first ≤ sizes overlay ∨ sizes first = n) ↔
        (sizes first ≤ sizes overlay ∨ sizes first = size) := by
      constructor
      · intro h
        exact h size rfl
      · rintro h n hn
        cases hn
        exact h
    rw [hiff]
    split
    · have hpad : sizes (overlay ++ [genPad (size - max (sizes first) (sizes overlay))]) =
          sizes overlay + (size - max (sizes first) (sizes overlay)) := sizes_snoc _ _
      refine .inr ⟨overlay ++ [genPad (size - max (sizes first) (sizes overlay))], size, ?_,
        hover.grow (grown_pad t.packed _ (le_refl _)), by omega, by omega, by omega⟩
      rw [append_assoc]
      rfl
    · exact .inr ⟨overlay, size, rfl, hover, by omega, by omega, by omega⟩

/-- The laid out struct, part by part. -/
theorem layoutStruct_ok (ht : t.Checked) :
    (∃ size structSize, t.sizeAttr = some size ∧ size < structSize ∧
        layoutStruct t = .error (.sizeAttr size structSize)) ∨
    ∃ first overlay typeSize, layoutStruct t = .ok { t with
        fields := first ++ overlay, overlayField := first.length, typeSize } ∧
      Closed t t.firstPart first ∧ Closed t t.overlayPart overlay ∧
      (t.varlen = false → sizes first ≤ typeSize ∧ sizes overlay ≤ typeSize ∧
        (typeSize = max (sizes first) (sizes overlay) ↔ t.SizeFillsOverlay)) := by
  obtain ⟨first, overlay, hfields, hfirst, hover, hsizes⟩ := layoutStructFields_ok ht t.varlen
  have hstruct : layoutStruct t = (layoutStructFields t t.varlen).bind fun t' =>
    if t.varlen then pure { t' with typeSize := 0 } else assignSize t' := rfl
  rw [hstruct, hfields]
  cases hv : t.varlen with
  | true =>
    refine .inr ⟨first, overlay, 0, rfl, hfirst, hover, ?_⟩
    intro hn
    cases hn
  | false =>
    obtain ⟨hsize1, hsize2⟩ := hsizes hv
    rcases assignSize_ok first hover with
      herr | ⟨overlay', typeSize, hok, hclosed, h1, h2, hiff⟩
    · exact .inl herr
    · refine .inr ⟨first, overlay', typeSize, hok, hfirst, hclosed, ?_⟩
      intro _
      refine ⟨h1, h2, ?_⟩
      rw [hiff, hsize1, hsize2]
      rfl

theorem Closed.apart (h : Closed t part cur) (hwrap : WrapAligned t.packed part)
    (hext : Extents cur ns) :
    (locate 0 cur ns).Pairwise fun a b => ∀ bit, ¬ (a.Occupies bit ∧ b.Occupies bit) := by
  refine (pairwise_locate hext 0 0 h.slots (h.ordered hwrap).before).imp ?_
  rintro a b hab bit ⟨⟨-, hlt⟩, ⟨hle, -⟩⟩
  omega

theorem Closed.inside (h : Closed t part cur) (hwrap : WrapAligned t.packed part)
    (hext : Extents cur ns) : ∀ s ∈ locate 0 cur ns, s.endBit ≤ 8 * ns.sum := by
  have hends := (h.ordered hwrap).ends
  rw [← zero_add (sizes cur)] at hends
  have := (endBit_locate hext 0 0 h.slots hends).2
  simpa using this

/-- Without packing a moved bitfield always lands on a multiple of its unit. -/
theorem wrapAligned_of_not_packed (part : List FieldType) : WrapAligned false part := by
  intro before f after _ hb hfit
  unfold FieldType.startBit
  rw [if_pos hb, if_neg hfit]
  exact dvd_ceilTo _ _

/-- An integer bitfield of `len` bits as the compiler generates it. -/
def bitfield (unit len : Nat) : FieldType :=
  { typeSize := 0, align := unit, bitfieldLen := len, bitfieldUnit := unit }

/-- A plain integer field. -/
def intField (size : Nat) : FieldType := { typeSize := size, align := size }

theorem bitfield_checked {unit len : Nat} (hunit : unit ∈ [1, 2, 4, 8]) (hlen : len ≤ 8 * unit) :
    (bitfield unit len).Checked := by
  refine ⟨?_, fun _ => hunit, hlen, fun _ => dvd_rfl, fun _ => ⟨rfl, rfl⟩, rfl, ?_⟩
  · simp only [mem_cons, not_mem_nil, or_false] at hunit
    rcases hunit with rfl | rfl | rfl | rfl
    · exact ⟨0, rfl⟩
    · exact ⟨1, rfl⟩
    · exact ⟨2, rfl⟩
    · exact ⟨3, rfl⟩
  · intro hv
    cases hv

theorem intField_checked (k : Nat) : (intField (2 ^ k)).Checked := by
  refine ⟨⟨k, rfl⟩, ?_, zero_le _, ?_, ?_, rfl, ?_⟩
  all_goals
    intro h
    cases h

/-- Two bitfields, the second of which is moved to the next unit, an integer and
a `size` attribute. -/
def mixedStruct : StructType :=
  { fields := [bitfield 4 4, bitfield 4 30, intField 1], sizeAttr := some 16 }

theorem mixedStruct_checked : mixedStruct.Checked := by
  refine ⟨?_, by decide, .inl rfl, ?_, ?_⟩
  · simp only [mixedStruct, forall_mem_cons, not_mem_nil, false_imp_iff, implies_true,
      and_true]
    exact ⟨bitfield_checked (by decide) (by decide), bitfield_checked (by decide) (by decide),
      intField_checked 0⟩
  · intro hv
    cases hv
  · intro _
    decide

/-- A packed struct of a two-bit `int8` and a 31-bit `int32`. -/
def packedStruct : StructType :=
  { fields := [bitfield 1 2, bitfield 4 31], packed := true }

theorem packedStruct_checked : packedStruct.Checked := by
  refine ⟨?_, by decide, .inl rfl, ?_, ?_⟩
  · simp only [packedStruct, forall_mem_cons, not_mem_nil, false_imp_iff, implies_true,
      and_true]
    exact ⟨bitfield_checked (by decide) (by decide), bitfield_checked (by decide) (by decide)⟩
  · intro hv
    cases hv
  · intro hpacked
    cases hpacked

/-- A struct of eight bytes whose one-byte overlay is smaller than the four bytes
before it. -/
def overlayStruct : StructType :=
  { fields := [intField 4, intField 1], overlayField := 1, sizeAttr := some 8 }

theorem overlayStruct_checked : overlayStruct.Checked := by
  refine ⟨?_, by decide, .inl rfl, ?_, ?_⟩
  · simp only [overlayStruct, forall_mem_cons, not_mem_nil, false_imp_iff, implies_true,
      and_true]
    exact ⟨intField_checked 2, intField_checked 0⟩
  · intro hv
    cases hv
  · intro _
    decide

end Sect.Compiler
