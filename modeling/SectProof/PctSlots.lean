import SectProof.SwapShuffle
import SectProof.TaskRecords

/-! # The PCT slots

`init_pct` fills `MAX_CYCLE_THREADS` slots of its group with positive priorities
and shuffles them.  The map has room for the slots of all groups, so every slot
is there afterwards and stays there; and every priority that PCT assigns is
positive, as long as the stratum leaves the base of its range positive. -/

open Finset Nat

namespace Sect.Serialise

/-- All keys of the slot map. -/
def slotKeys : Finset Nat :=
  (Finset.range maxExecutorGroups ×ˢ Finset.range maxCycleThreads).image
    fun ek => getCombinedKey ek.1 ek.2

theorem card_slotKeys_le : slotKeys.card ≤ maxTasks := by
  refine Nat.le_trans card_image_le ?_
  rw [card_product, card_range, card_range]
  exact Nat.le_refl _

theorem getCombinedKey_mem {eid detId : Nat} (h : eid < maxExecutorGroups) :
    getCombinedKey eid detId ∈ slotKeys := by
  refine mem_image.mpr ⟨(eid, detId % maxCycleThreads), ?_, ?_⟩
  · rw [mem_product, mem_range, mem_range]
    exact ⟨h, Nat.mod_lt _ (by decide)⟩
  · unfold getCombinedKey
    rw [Nat.mod_mod]

/-- The slot map holds slots only, with positive priorities. -/
structure SlotTable (m : Table Nat Nat) : Prop where
  keys : ∀ k, (m.lookup k).isSome → k ∈ slotKeys
  values : ∀ k v, m.lookup k = some v → 0 < v ∧ v ≤ s32Max

/-- Every slot of group `eid` is there. -/
def SlotsFilled (m : Table Nat Nat) (eid : Nat) : Prop :=
  ∀ d, (m.lookup (getCombinedKey eid d)).isSome

/-- No slot is lost. -/
def SlotsKept (m m' : Table Nat Nat) : Prop := ∀ k, (m.lookup k).isSome → (m'.lookup k).isSome

theorem SlotsKept.filled {m m' : Table Nat Nat} {eid : Nat} (h : SlotsKept m m')
    (hm : SlotsFilled m eid) : SlotsFilled m' eid := fun d => h _ (hm d)

/-! ## The keys of a group -/

section Keys
variable {eid e d d' i : Nat} {m m' : Table Nat Nat}

theorem getCombinedChangepointKey_eq (heid : eid < maxExecutorGroups)
    (hi : i < maxCycleThreads) : getCombinedChangepointKey eid i = eid * 2 ^ 16 + i := by
  have hgroups : eid < 10 := heid
  have hthreads : i < 200 := hi
  have hshift : (eid <<< 16) % 2 ^ 32 = eid <<< 16 := by
    exact mod_eq_of_lt (by omega)
  rw [getCombinedChangepointKey, hshift, ← shiftLeft_add_eq_or_of_lt (by omega),
    shiftLeft_eq]

theorem getCombinedKey_eq (heid : eid < maxExecutorGroups) (d : Nat) :
    getCombinedKey eid d = eid * 2 ^ 16 + d % maxCycleThreads :=
  getCombinedChangepointKey_eq heid (mod_lt d (by decide))

/-- Two slots are the same only for the same group and ids that are congruent. -/
theorem getCombinedKey_inj {e' : Nat} (he : e < maxExecutorGroups) (he' : e' < maxExecutorGroups)
    (h : getCombinedKey e d = getCombinedKey e' d') :
    e = e' ∧ d % maxCycleThreads = d' % maxCycleThreads := by
  rw [getCombinedKey_eq he, getCombinedKey_eq he'] at h
  have hd := mod_lt d (show 0 < maxCycleThreads by decide)
  have hd' := mod_lt d' (show 0 < maxCycleThreads by decide)
  simp only [maxCycleThreads] at *
  omega

theorem getCombinedKey_congr (h : d % maxCycleThreads = d' % maxCycleThreads) :
    getCombinedKey e d = getCombinedKey e d' := by
  rw [getCombinedKey, getCombinedKey, h]

/-- Only slots of group `eid` are written. -/
def OnlySlots (eid : Nat) (m m' : Table Nat Nat) : Prop :=
  ∀ k, (∀ d, k ≠ getCombinedKey eid d) → m'.lookup k = m.lookup k

/-- The slots of another group stay. -/
theorem OnlySlots.other (h : OnlySlots eid m m') (heid : eid < maxExecutorGroups)
    (he : e < maxExecutorGroups) (hne : e ≠ eid) (d : Nat) :
    m'.lookup (getCombinedKey e d) = m.lookup (getCombinedKey e d) :=
  h _ fun _ hkey => hne (getCombinedKey_inj he heid hkey).1

end Keys

/-! ## The range of a stratum -/

/-- The stratum leaves room below: its base is not negative. -/
def StrataInRange (strata : Nat) : Prop := (strata + 2) * maxCycleThreads ≤ s32Max

theorem StrataInRange.mono {a b : Nat} (hab : a ≤ b) (h : StrataInRange b) : StrataInRange a := by
  have hb : (b + 2) * 200 ≤ 2147483647 := h
  show (a + 2) * 200 ≤ 2147483647
  omega

theorem StrataInRange.cast {strata : Nat} (h : StrataInRange strata) :
    ((strata : Int) + 2) * 200 ≤ 2147483647 := by
  have hnat : (strata + 2) * 200 ≤ 2147483647 := h
  omega

theorem getStrataBase_eq {strata : Nat} (h : StrataInRange strata) :
    getStrataBase strata = 2147483647 - ((strata : Int) + 2) * 200 := by
  have hle := h.cast
  show Int.bmod (2147483647 - ((strata : Int) + 2) * 200) (2 ^ 32) = _
  refine Int.bmod_eq_of_le ?_ ?_ <;> omega

theorem toU32_of_range {i : Int} (h0 : 0 ≤ i) (h : i ≤ 2147483647) : toU32 i = i.toNat := by
  unfold toU32
  omega

/-- A non-negative `s32` is itself as a `u32`. -/
theorem toU32_natCast {n : Nat} (h : n ≤ s32Max) : toU32 (n : Int) = n := by
  have hmax : n ≤ 2147483647 := h
  rw [toU32_of_range (by omega) (by omega), Int.toNat_natCast]

theorem s32Max_le_u32Max : s32Max ≤ u32Max := by decide

theorem asS32_of_range {n : Nat} (h : n ≤ s32Max) : asS32 n = n := by
  have hmax : n ≤ 2147483647 := h
  refine Int.bmod_eq_of_le ?_ ?_ <;> omega

/-- A priority of a stratum: the base of its range and a small offset. -/
theorem strata_priority {strata i : Nat} (h : StrataInRange strata) (h1 : 1 ≤ i)
    (hi : i ≤ 2 * maxCycleThreads) :
    0 < toU32 (getStrataBase strata + i) ∧ toU32 (getStrataBase strata + i) ≤ s32Max := by
  have hle := h.cast
  have hi' : i ≤ 400 := hi
  have hmax : s32Max = 2147483647 := rfl
  rw [getStrataBase_eq h, toU32_of_range (by omega) (by omega), hmax]
  omega

/-! ## Filling and shuffling -/

/-- The depth the loader accepts. -/
def Config.DepthInRange (cfg : Config) : Prop := 1 ≤ cfg.depth ∧ cfg.depth ≤ maxCycleThreads + 1

/-- The priority of slot `k` before the shuffle. -/
def initialPrio (cfg : Config) (strata k : Nat) : Nat :=
  toU32 (getStrataBase strata + (cfg.depth + k : Nat))

/-- Group `eid` has the values `f` in its slots, and all else is as in `m`. -/
structure Assigned (eid : Nat) (f : Nat → Nat) (m m' : Table Nat Nat) : Prop where
  slot : ∀ d, m'.lookup (getCombinedKey eid d) = some (f (d % maxCycleThreads))
  only : OnlySlots eid m m'

/-- One round of the reset. -/
def resetRound (cfg : Config) (eid strata : Nat) (m : Table Nat Nat) (i : Nat) : Table Nat Nat :=
  match m.updateElem maxTasks .any (getCombinedKey eid (i - cfg.depth))
      (toU32 (getStrataBase strata + i)) with
  | .ok m' => m'
  | .error _ => m

section Shuffle
variable {cfg : Config} {eid strata : Nat} {f : Nat → Nat} {m m' : Table Nat Nat}
  (heid : eid < maxExecutorGroups)
include heid

/-- After `n` rounds the first `n` slots hold their priorities: the map has room. -/
theorem resetRounds (hm : ∀ k, (m.lookup k).isSome → k ∈ slotKeys) {n : Nat}
    (hn : n ≤ maxCycleThreads) :
    ∃ m', (List.range' cfg.depth n).foldl (resetRound cfg eid strata) m = m' ∧
      (∀ k, (m'.lookup k).isSome → k ∈ slotKeys) ∧ OnlySlots eid m m' ∧
      ∀ k < n, m'.lookup (getCombinedKey eid k) = some (initialPrio cfg strata k) := by
  induction n with
  | zero => exact ⟨m, rfl, hm, fun _ _ => rfl, fun k hk => absurd hk (not_lt_zero k)⟩
  | succ n ih =>
    obtain ⟨m', hfold, hkeys, honly, hslots⟩ := ih (by omega)
    have hround : resetRound cfg eid strata m' (cfg.depth + n) =
        m'.insert (getCombinedKey eid n) (initialPrio cfg strata n) := by
      rw [resetRound, Nat.add_sub_cancel_left,
        Table.updateElem_of_keys hkeys (getCombinedKey_mem heid) card_slotKeys_le]
      rfl
    refine ⟨_, rfl, ?_⟩
    rw [List.range'_1_concat, List.foldl_append, hfold, List.foldl_cons, List.foldl_nil, hround]
    refine ⟨fun k hk => ?_, fun k hk => ?_, fun k hk => ?_⟩
    · rw [Table.lookup_insert] at hk
      split at hk
      · next heq => exact heq ▸ getCombinedKey_mem heid
      · exact hkeys k hk
    · rw [Table.lookup_insert_of_ne (hk n), honly k hk]
    · by_cases hkn : k = n
      · rw [hkn, Table.lookup_insert_self]
      have hne : getCombinedKey eid k ≠ getCombinedKey eid n := fun heq => by
        have hmod := (getCombinedKey_inj heid heid heq).2
        rw [mod_eq_of_lt (by omega), mod_eq_of_lt (by omega)] at hmod
        exact hkn hmod
      rw [Table.lookup_insert_of_ne hne]
      exact hslots k (by omega)

/-- Slot `d` is written in the round of its residue. -/
theorem assigned_resetPrios (hm : ∀ k, (m.lookup k).isSome → k ∈ slotKeys) :
    Assigned eid (initialPrio cfg strata) m (resetPrios cfg eid strata m) := by
  obtain ⟨m', hfold, -, honly, hslots⟩ := resetRounds heid hm (le_refl maxCycleThreads)
  rw [show resetPrios cfg eid strata m = m' from hfold]
  refine ⟨fun d => ?_, honly⟩
  rw [← hslots _ (mod_lt d (by decide))]
  exact congrArg m'.lookup (getCombinedKey_congr (mod_mod d _).symm)

/-- An exchange of two slots permutes the values. -/
theorem Assigned.swap (h : Assigned eid f m m') {a b : Nat} (ha : a < maxCycleThreads)
    (hb : b < maxCycleThreads) :
    Assigned eid (f ∘ Equiv.swap a b) m
      (swapU32 (getCombinedKey eid a) (getCombinedKey eid b) m') := by
  have hlook : ∀ k, (swapU32 (getCombinedKey eid a) (getCombinedKey eid b) m').lookup k =
      m'.lookup (Equiv.swap (getCombinedKey eid a) (getCombinedKey eid b) k) := by
    intro k
    have hslotA := h.slot a
    have hslotB := h.slot b
    rw [swapU32, hslotA, hslotB]
    rw [Table.lookup_modify, Table.lookup_modify, Equiv.swap_apply_def]
    by_cases hka : k = getCombinedKey eid a <;> by_cases hkb : k = getCombinedKey eid b <;>
      simp_all
  have hkey : ∀ {j d : Nat}, j < maxCycleThreads →
      (getCombinedKey eid d = getCombinedKey eid j ↔ d % maxCycleThreads = j) := by
    intro j d hj
    refine ⟨fun heq => ?_, fun heq => getCombinedKey_congr (by rw [heq, mod_eq_of_lt hj])⟩
    rw [(getCombinedKey_inj heid heid heq).2, mod_eq_of_lt hj]
  refine ⟨fun d => ?_, fun k hk => ?_⟩
  · rw [hlook, Equiv.swap_apply_def, Function.comp_apply, Equiv.swap_apply_def]
    simp only [hkey ha, hkey hb]
    split_ifs
    · rw [h.slot, mod_eq_of_lt hb]
    · rw [h.slot, mod_eq_of_lt ha]
    · exact h.slot d
  · rw [hlook, Equiv.swap_apply_of_ne_of_ne (hk a) (hk b), h.only k hk]

/-- The indices drawn for the places from `n` downwards. -/
def drawn (n : Nat) (rng : Rng) : Nat → Nat := fun k => rng k % 2 ^ 32 % (n - k + 1)

/-- The rounds for the places from `n` downwards. -/
theorem Assigned.shuffle (h : Assigned eid f m m') {n i : Nat} (hi : i + n = maxCycleThreads)
    (hpos : 0 < i) (rng : Rng) :
    Assigned eid (f ∘ SwapShuffle.perm n (drawn n rng)) m
      ((List.range' i n).foldl (shuffleRound eid) (m', rng)).1 := by
  induction n generalizing i f m' rng with
  | zero =>
    rw [SwapShuffle.perm_zero]
    exact h
  | succ n ih =>
    have hplace : maxCycleThreads - i = n + 1 := by omega
    have htail : (fun k => drawn (n + 1) rng (k + 1)) = drawn n fun k => rng (k + 1) := by
      funext k
      rw [drawn, drawn, Nat.add_sub_add_right]
    have hc : drawn (n + 1) rng 0 < maxCycleThreads :=
      (mod_lt _ (Nat.succ_pos _)).trans_le (by omega)
    have hround := ih (h.swap heid (show n + 1 < maxCycleThreads by omega) hc)
      (show i + 1 + n = maxCycleThreads by omega) (Nat.succ_pos i) fun k => rng (k + 1)
    rw [List.range'_succ, List.foldl_cons, shuffleRound, bpfGetPrandomU32, hplace,
      SwapShuffle.perm_succ, htail]
    exact hround

/-- The permutation that the random stream makes. -/
def slotPerm (rng : Rng) : Equiv.Perm Nat :=
  SwapShuffle.perm (maxCycleThreads - 1) (drawn (maxCycleThreads - 1) rng)

/-- **What `shuffle_prios` does**: it permutes the initial priorities of the group. -/
theorem assigned_shufflePrios (hm : ∀ k, (m.lookup k).isSome → k ∈ slotKeys)
    (hd : cfg.DepthInRange) (strata : Nat) (rng : Rng) :
    Assigned eid (initialPrio cfg strata ∘ slotPerm rng) m
      (shufflePrios cfg eid strata rng m).1 := by
  rw [shufflePrios, if_neg (by rw [Config.DepthInRange] at hd; omega), slotPerm]
  exact (assigned_resetPrios heid hm).shuffle heid (by decide) (by decide) rng

end Shuffle

section Permuted
variable {cfg : Config} {eid strata : Nat} {m : Table Nat Nat}

theorem drawn_mem (n : Nat) (rng : Rng) : drawn n rng ∈ SwapShuffle.Choices n :=
  fun _ => le_of_lt_succ (mod_lt _ (Nat.succ_pos _))

theorem slotPerm_lt (rng : Rng) {d : Nat} (hd : d < maxCycleThreads) :
    slotPerm rng d < maxCycleThreads :=
  (SwapShuffle.perm_le (drawn_mem _ rng) (le_sub_one_of_lt hd)).trans_lt (by decide)

/-- **After `shuffle_prios` every slot of the group holds a positive priority.** -/
theorem SlotTable.shufflePrios (hd : cfg.DepthInRange) (heid : eid < maxExecutorGroups)
    (hs : StrataInRange strata) (rng : Rng) (h : SlotTable m) :
    SlotTable (shufflePrios cfg eid strata rng m).1 ∧
      SlotsKept m (shufflePrios cfg eid strata rng m).1 ∧
      SlotsFilled (shufflePrios cfg eid strata rng m).1 eid := by
  obtain ⟨hslot, honly⟩ := assigned_shufflePrios heid h.keys hd strata rng
  have hcases : ∀ k, (∃ d, k = getCombinedKey eid d) ∨
      (Sect.Serialise.shufflePrios cfg eid strata rng m).1.lookup k = m.lookup k := by
    intro k
    by_cases hk : ∃ d, k = getCombinedKey eid d
    · exact .inl hk
    · exact .inr (honly k fun d heq => hk ⟨d, heq⟩)
  refine ⟨⟨fun k hk => ?_, fun k v hv => ?_⟩, fun k hk => ?_, fun d => by rw [hslot]; rfl⟩
  · rcases hcases k with ⟨d, rfl⟩ | heq
    · exact getCombinedKey_mem heid
    · exact h.keys k (heq ▸ hk)
  · rcases hcases k with ⟨d, rfl⟩ | heq
    · have hlt := slotPerm_lt rng (mod_lt d (by decide : 0 < maxCycleThreads))
      have hlow := hd.1
      have hhigh := hd.2
      rw [hslot, Option.some.injEq, Function.comp_apply, initialPrio] at hv
      rw [← hv]
      exact strata_priority hs (by omega) (by simp only [maxCycleThreads] at *; omega)
    · exact h.values k v (heq ▸ hv)
  · rcases hcases k with ⟨d, rfl⟩ | heq
    · rw [hslot]
      rfl
    · rw [heq]
      exact hk

/-- The initial priorities of a group differ, whatever the stratum. -/
theorem initialPrio_inj {i j : Nat} (hi : i < maxCycleThreads) (hj : j < maxCycleThreads)
    (h : initialPrio cfg strata i = initialPrio cfg strata j) : i = j := by
  simp only [initialPrio, toU32, maxCycleThreads] at *
  omega

/-- The shuffle of group `eid` is **a bijection between the choices of indices and the
permutations of the initial priorities**, it depends on the choices only, and it leaves
the other groups alone. -/
structure ShufflesUniformly (cfg : Config) (eid strata : Nat) (m : Table Nat Nat) : Prop where
  bijOn : Set.BijOn
    (fun choices (d : Fin maxCycleThreads) =>
      (shufflePrios cfg eid strata choices m).1.lookup (getCombinedKey eid d))
    (SwapShuffle.Choices (maxCycleThreads - 1))
    {slots | ∃ σ : Equiv.Perm (Fin maxCycleThreads),
      ∀ d, slots d = some (initialPrio cfg strata (σ d))}
  distinct : Set.InjOn (initialPrio cfg strata) {k | k < maxCycleThreads}
  drawn : ∀ (rng : Rng) d, (shufflePrios cfg eid strata rng m).1.lookup (getCombinedKey eid d) =
    (shufflePrios cfg eid strata (drawn (maxCycleThreads - 1) rng) m).1.lookup
      (getCombinedKey eid d)
  others : ∀ (rng : Rng) e d, e < maxExecutorGroups → e ≠ eid →
    (shufflePrios cfg eid strata rng m).1.lookup (getCombinedKey e d) =
      m.lookup (getCombinedKey e d)

theorem slotPerm_of_mem {c : Nat → Nat} (hc : c ∈ SwapShuffle.Choices (maxCycleThreads - 1)) :
    slotPerm c = SwapShuffle.perm (maxCycleThreads - 1) c := by
  have hdrawn : drawn (maxCycleThreads - 1) c = c := by
    funext k
    have hk := hc k
    have hlt : maxCycleThreads - 1 - k < 2 ^ 32 := (Nat.sub_le _ _).trans_lt (by decide)
    rw [drawn, mod_eq_of_lt (hk.trans_lt hlt), mod_eq_of_lt (lt_succ_of_le hk)]
  rw [slotPerm, hdrawn]

/-- **`shuffle_prios` is a uniform construction of permutations.** -/
theorem shufflePrios_uniform (heid : eid < maxExecutorGroups)
    (hm : ∀ k, (m.lookup k).isSome → k ∈ slotKeys) (hd : cfg.DepthInRange) (strata : Nat) :
    ShufflesUniformly cfg eid strata m := by
  have hslot : ∀ rng (d : Fin maxCycleThreads),
      (shufflePrios cfg eid strata rng m).1.lookup (getCombinedKey eid d) =
        some (initialPrio cfg strata (slotPerm rng d)) := by
    intro rng d
    rw [(assigned_shufflePrios heid hm hd _ rng).slot, mod_eq_of_lt d.2, Function.comp_apply]
  refine ⟨⟨fun c hc => ?_, fun c hc c' hc' heq => ?_, fun slots hslots => ?_⟩,
    fun i hi j hj => initialPrio_inj hi hj, fun rng d => ?_, fun rng e d he hne => ?_⟩
  · have hinj : Function.Injective fun d : Fin maxCycleThreads =>
        (⟨_, slotPerm_lt c d.2⟩ : Fin maxCycleThreads) :=
      fun d d' heq => Fin.ext ((slotPerm c).injective (Fin.val_eq_of_eq heq))
    exact ⟨.ofBijective _ (Finite.injective_iff_bijective.mp hinj), hslot c⟩
  · refine SwapShuffle.perm_injOn hc hc' (Equiv.ext fun d => ?_)
    by_cases hlt : d < maxCycleThreads
    · have hval := congrFun heq ⟨d, hlt⟩
      dsimp only at hval
      rw [hslot c ⟨d, hlt⟩, hslot c' ⟨d, hlt⟩, Option.some.injEq] at hval
      rw [← slotPerm_of_mem hc, ← slotPerm_of_mem hc']
      exact initialPrio_inj (slotPerm_lt c hlt) (slotPerm_lt c' hlt) hval
    · have habove : maxCycleThreads - 1 < d := (by decide : _ < maxCycleThreads).trans_le (by omega)
      rw [SwapShuffle.perm_of_lt hc habove, SwapShuffle.perm_of_lt hc' habove]
  · obtain ⟨σ, hσ⟩ := hslots
    have hfix : ∀ d, maxCycleThreads - 1 < d → σ.extendDomain Fin.equivSubtype d = d :=
      fun d hd => σ.extendDomain_apply_not_subtype _ (not_lt.mpr (le_of_pred_lt hd))
    obtain ⟨c, hc, hperm⟩ := SwapShuffle.exists_perm_eq hfix
    refine ⟨c, hc, funext fun d => ?_⟩
    rw [hσ]
    refine (hslot c d).trans (congrArg (fun k => some (initialPrio cfg strata k)) ?_)
    rw [slotPerm_of_mem hc, hperm]
    exact σ.extendDomain_apply_image Fin.equivSubtype d
  · rw [(assigned_shufflePrios heid hm hd _ rng).slot, (assigned_shufflePrios heid hm hd _ _).slot,
      slotPerm_of_mem (drawn_mem _ rng), slotPerm]
  · exact (assigned_shufflePrios heid hm hd _ rng).only.other heid he hne d

/-- The first group, with the default depth and an empty map. -/
theorem shufflePrios_uniform_first : ShufflesUniformly ⟨2, 3, .pct⟩ 0 0 .empty :=
  shufflePrios_uniform (by decide) (fun _ hk => by cases hk) ⟨by decide, by decide⟩ 0

end Permuted

end Sect.Serialise
