import Mathlib

/-! # Enabled calls

A call is of use only if each resource it takes can be created by another enabled
call.  `transitivelyEnabled` adds calls round by round, each round in the order in
which a map happens to be ranged over.  **The result is the least set of enabled
calls that is closed under this rule.** -/

open Finset Option

namespace Sect.Resources

structure ResourceCtor where
  call : String
  precise : Bool

/-- The kinds of a resource, the most general one first, its own name last. -/
structure ResourceDesc where
  kind : List String
  ctors : List ResourceCtor

/-- Resources are given by their names. -/
structure Syscall where
  id : Nat
  name : String
  inputResources : List String
  outputResources : List String
  deriving DecidableEq

structure Target where
  resources : String → ResourceDesc
  syscallMap : String → Option Syscall

/-- The order in which each round ranges over a map. -/
structure RangeOrder (calls : Finset Syscall) where
  list : Nat → List Syscall
  nodup : ∀ n, (list n).Nodup
  mem : ∀ n c, c ∈ list n ↔ c ∈ calls

namespace Target

variable (target : Target)

def calcResourceCtors (res : String) (preciseOnly : Bool) : List ResourceCtor :=
  ((target.resources res).ctors.filter fun ctor => !preciseOnly || ctor.precise) ++
    if (target.resources res).kind.head? = some "timespec" then
      ((target.syscallMap "clock_gettime").map fun c => ⟨c.name, true⟩).toList
    else []

/-- The maps `supported` and `canCreate`. -/
abbrev Progress := Finset Syscall × Finset String

def created (c : Syscall) : List String :=
  c.outputResources.flatMap fun res => (target.resources res).kind

def visit (st : Progress) (c : Syscall) : Progress :=
  if c ∈ st.1 then st
  else if ∃ res ∈ c.inputResources, res ∉ st.2 then st
  else (insert c st.1, st.2 ∪ (target.created c).toFinset)

/-- The rounds from number `n` on; `none` if `fuel` rounds are not enough. -/
def rounds {calls : Finset Syscall} (order : RangeOrder calls) :
    Nat → Nat → Progress → Option Progress
  | 0, _, _ => none
  | fuel + 1, n, st =>
    let st' := (order.list n).foldl target.visit st
    if st.1.card = st'.1.card then some st' else rounds order fuel (n + 1) st'

def transitivelyEnabled (enabled : Finset Syscall) (order : RangeOrder enabled) :
    Option Progress :=
  target.rounds order (enabled.card + 1) 0 (∅, ∅)

def disabledText (res : String) (ctors : List String) : String :=
  "no syscalls can create resource " ++ res ++
    ", enable some syscalls that can create it [" ++ " ".intercalate ctors ++ "]"

/-- The loop over a call that may be disabled; the second map keeps the constructors. -/
def explain (st : Progress) (maps : Finset (Syscall × String) × (String → List String))
    (c : Syscall) : Finset (Syscall × String) × (String → List String) :=
  if c ∈ st.1 then maps
  else
    match c.inputResources.find? fun res => res ∉ st.2 with
    | none => maps
    | some res =>
      let ctors := if maps.2 res = [] then
          Function.update maps.2 res ((target.calcResourceCtors res true).map (·.call))
        else maps.2
      (insert (c, disabledText res (ctors res)) maps.1, ctors)

/-- `TransitivelyEnabledCalls`; `none` also stands for the panic on lost calls. -/
def transitivelyEnabledCalls (enabled : Finset Syscall) (order : RangeOrder enabled) :
    Option (Finset Syscall × Finset (Syscall × String)) :=
  (target.transitivelyEnabled enabled order).bind fun st =>
    let (disabled, _) := (order.list (enabled.card + 1)).foldl (target.explain st) (∅, fun _ => [])
    if enabled.card ≠ st.1.card + disabled.card then none else some (st.1, disabled)

/-! ## Closed sets -/

/-- The resource is of a kind, or an ancestor of a kind, that a call of `S` creates. -/
def Creatable (S : Finset Syscall) (res : String) : Prop := ∃ p ∈ S, res ∈ target.created p

/-- An enabled call is in `S` if each resource it takes is created in `S`. -/
def Closed (enabled S : Finset Syscall) : Prop :=
  ∀ c ∈ enabled, (∀ res ∈ c.inputResources, target.Creatable S res) → c ∈ S

variable {target}

theorem Creatable.mono {S S' : Finset Syscall} (h : S ⊆ S') {res : String}
    (hres : target.Creatable S res) : target.Creatable S' res := by
  obtain ⟨p, hp, hmem⟩ := hres
  exact ⟨p, h hp, hmem⟩

/-- What holds between two visits. -/
structure Sound (target : Target) (enabled : Finset Syscall) (st : Progress) : Prop where
  subset : st.1 ⊆ enabled
  canCreate : ∀ res, res ∈ st.2 ↔ target.Creatable st.1 res
  least : ∀ S, target.Closed enabled S → st.1 ⊆ S

variable {enabled : Finset Syscall} {st st' : Progress}

theorem sound_empty : Sound target enabled (∅, ∅) := by
  refine ⟨by simp, fun res => ?_, by simp⟩
  simp [Creatable]

theorem visit_cases (st : Progress) (c : Syscall) :
    (target.visit st c = st ∧ (c ∈ st.1 ∨ ∃ res ∈ c.inputResources, res ∉ st.2)) ∨
      (target.visit st c = (insert c st.1, st.2 ∪ (target.created c).toFinset) ∧ c ∉ st.1 ∧
        ∀ res ∈ c.inputResources, res ∈ st.2) := by
  rw [visit]
  split
  · next hin => exact .inl ⟨rfl, .inl hin⟩
  next hout =>
    split
    · next hres => exact .inl ⟨rfl, .inr hres⟩
    · next hres =>
        push Not at hres
        exact .inr ⟨rfl, hout, hres⟩

theorem Sound.visit (h : Sound target enabled st) {c : Syscall} (hc : c ∈ enabled) :
    Sound target enabled (target.visit st c) := by
  rcases visit_cases st c with ⟨heq, -⟩ | ⟨heq, -, hinputs⟩
  · rw [heq]
    exact h
  rw [heq]
  refine ⟨insert_subset hc h.subset, fun res => ?_, fun S hS => ?_⟩
  · rw [mem_union, h.canCreate, List.mem_toFinset]
    simp [Creatable, or_comm]
  · refine insert_subset (hS c hc fun res hres => ?_) (h.least S hS)
    exact ((h.canCreate res).mp (hinputs res hres)).mono (h.least S hS)

theorem subset_visit (c : Syscall) : st.1 ⊆ (target.visit st c).1 := by
  rcases visit_cases st c with ⟨heq, -⟩ | ⟨heq, -⟩
  · rw [heq]
  · rw [heq]
    exact subset_insert _ _

theorem Sound.round (l : List Syscall) (h : Sound target enabled st) (hl : ∀ c ∈ l, c ∈ enabled) :
    Sound target enabled (l.foldl target.visit st) ∧ st.1 ⊆ (l.foldl target.visit st).1 := by
  induction l generalizing st with
  | nil => exact ⟨h, Finset.Subset.refl _⟩
  | cons c l ih =>
    obtain ⟨hc, hl⟩ := List.forall_mem_cons.mp hl
    obtain ⟨hsound, hsub⟩ := ih (h.visit hc) hl
    exact ⟨hsound, (subset_visit c).trans hsub⟩

/-- A round that adds no call has found none to add. -/
theorem Sound.quiet (l : List Syscall) (h : Sound target enabled st) (hl : ∀ c ∈ l, c ∈ enabled)
    (hcard : st.1.card = (l.foldl target.visit st).1.card) :
    l.foldl target.visit st = st ∧ ∀ c ∈ l, c ∈ st.1 ∨ ∃ res ∈ c.inputResources, res ∉ st.2 := by
  induction l with
  | nil => exact ⟨rfl, by simp⟩
  | cons c l ih =>
    obtain ⟨hc, hl⟩ := List.forall_mem_cons.mp hl
    rw [List.foldl_cons] at hcard ⊢
    rcases visit_cases st c with ⟨heq, hno⟩ | ⟨heq, hnew, -⟩
    · rw [heq] at hcard ⊢
      obtain ⟨hsame, hrest⟩ := ih hl hcard
      exact ⟨hsame, List.forall_mem_cons.mpr ⟨hno, hrest⟩⟩
    -- a new call makes the round grow
    have hgrow := card_le_card (((h.visit hc).round l hl).2)
    have hinsert : (target.visit st c).1.card = st.1.card + 1 := by
      rw [heq]
      exact card_insert_of_notMem hnew
    omega

/-- **The rounds end, with the least closed set.** -/
theorem Sound.rounds (order : RangeOrder enabled) (fuel n : Nat) (h : Sound target enabled st)
    (hfuel : enabled.card < st.1.card + fuel) :
    ∃ st', target.rounds order fuel n st = some st' ∧ Sound target enabled st' ∧
      target.Closed enabled st'.1 := by
  induction fuel generalizing n st with
  | zero =>
    have hle := card_le_card h.subset
    omega
  | succ fuel ih =>
    have hl : ∀ c ∈ order.list n, c ∈ enabled := fun c hc => (order.mem n c).mp hc
    obtain ⟨hsound, hsub⟩ := h.round (order.list n) hl
    rw [Target.rounds]
    split
    · next hcard =>
        obtain ⟨hsame, hno⟩ := h.quiet (order.list n) hl hcard
        refine ⟨_, rfl, hsound, fun c hc hinputs => ?_⟩
        rw [hsame] at hinputs ⊢
        refine (hno c ((order.mem n c).mpr hc)).resolve_right ?_
        rintro ⟨res, hres, hnot⟩
        exact hnot ((h.canCreate res).mpr (hinputs res hres))
    · next hcard =>
        have hle := card_le_card hsub
        exact ih (n + 1) hsound (by omega)

/-! ## The calls left out -/

/-- What is recorded of a call: the first resource that cannot be created. -/
def reason (target : Target) (st : Progress) (c : Syscall) : Option String :=
  if c ∈ st.1 then none
  else (c.inputResources.find? fun res => res ∉ st.2).map fun res =>
    disabledText res ((target.calcResourceCtors res true).map (·.call))

theorem explain_foldl (l : List Syscall) (disabled : Finset (Syscall × String))
    (ctors : String → List String)
    (hctors : ∀ res, ctors res = [] ∨
      ctors res = (target.calcResourceCtors res true).map (·.call)) :
    ∀ e, e ∈ (l.foldl (target.explain st) (disabled, ctors)).1 ↔
      e ∈ disabled ∨ (e.1 ∈ l ∧ target.reason st e.1 = some e.2) := by
  induction l generalizing disabled ctors with
  | nil => simp
  | cons c l ih =>
    intro e
    have hreason : ∀ {o : Option String}, target.reason st c = o →
        ((e.1 = c ∧ target.reason st e.1 = some e.2) ↔ o = some e.2 ∧ e.1 = c) := by
      rintro o rfl
      exact ⟨fun ⟨h, h'⟩ => ⟨h ▸ h', h⟩, fun ⟨h, h'⟩ => ⟨h', h' ▸ h⟩⟩
    rw [List.foldl_cons, explain, List.mem_cons, or_and_right]
    split
    · next hin =>
        rw [ih disabled ctors hctors, hreason (if_pos hin)]
        simp
    next hout =>
      have heq : target.reason st c = _ := if_neg hout
      split
      · next hnone =>
          rw [hnone] at heq
          rw [ih disabled ctors hctors, hreason heq]
          simp
      · next res hres =>
          -- the constructors are looked up once for each resource
          generalize hnew : (if ctors res = [] then _ else ctors) = ctors'
          have hctors' : ∀ r, ctors' r = [] ∨
              ctors' r = (target.calcResourceCtors r true).map (·.call) := by
            rw [← hnew]
            grind
          have hhere : ctors' res = (target.calcResourceCtors res true).map (·.call) := by
            rw [← hnew]
            grind
          grind

/-- **What a run returns: the least closed set, and why the other calls are not in it.** -/
theorem transitivelyEnabledCalls_eq (order : RangeOrder enabled) :
    ∃ supported disabled, target.transitivelyEnabledCalls enabled order =
        some (supported, disabled) ∧
      IsLeast {S | target.Closed enabled S} supported ∧ supported ⊆ enabled ∧
      (∀ c, (∃ text, (c, text) ∈ disabled) ↔ c ∈ enabled \ supported) ∧
      ∃ st : Progress, st.1 = supported ∧ (∀ res, res ∈ st.2 ↔ target.Creatable supported res) ∧
        ∀ c text, (c, text) ∈ disabled ↔ c ∈ enabled ∧ target.reason st c = some text := by
  obtain ⟨st, hst, hsound, hclosed⟩ :=
    (@sound_empty target enabled).rounds order (enabled.card + 1) 0 (by simp)
  generalize hdis : ((order.list (enabled.card + 1)).foldl (target.explain st)
    (∅, fun _ => [])).1 = disabled
  have hmem : ∀ c text, (c, text) ∈ disabled ↔ c ∈ enabled ∧ target.reason st c = some text := by
    intro c text
    rw [← hdis, explain_foldl _ _ _ fun _ => .inl rfl]
    simp [order.mem]
  have hreason : ∀ c ∈ enabled, c ∉ st.1 → ∃ text, target.reason st c = some text := by
    intro c hc hout
    have hmissing : ∃ res ∈ c.inputResources, res ∉ st.2 := by
      by_contra hnone
      push Not at hnone
      exact hout (hclosed c hc fun res hres => (hsound.canCreate res).mp (hnone res hres))
    obtain ⟨res, hres⟩ := isSome_iff_exists.mp
      (List.find?_isSome.mpr (by simpa using hmissing) :
        (c.inputResources.find? fun res => res ∉ st.2).isSome)
    exact ⟨_, by rw [reason, if_neg hout, hres, map_some]⟩
  have hkeys : ∀ c, (∃ text, (c, text) ∈ disabled) ↔ c ∈ enabled \ st.1 := by
    intro c
    simp only [hmem, mem_sdiff]
    constructor
    · rintro ⟨text, hc, htext⟩
      refine ⟨hc, fun hin => ?_⟩
      rw [reason, if_pos hin] at htext
      cases htext
    · rintro ⟨hc, hout⟩
      obtain ⟨text, htext⟩ := hreason c hc hout
      exact ⟨text, hc, htext⟩
  have hcard : disabled.card = (enabled \ st.1).card := by
    refine card_bij (fun e _ => e.1) ?_ ?_ ?_
    · exact fun e he => (hkeys e.1).mp ⟨e.2, he⟩
    · rintro ⟨c, text⟩ he ⟨c', text'⟩ he' (rfl : c = c')
      have h := ((hmem c text).mp he).2
      rw [((hmem c text').mp he').2] at h
      rw [some.inj h]
    · intro c hc
      obtain ⟨text, he⟩ := (hkeys c).mpr hc
      exact ⟨(c, text), he, rfl⟩
  refine ⟨st.1, disabled, ?_, ⟨hclosed, fun S hS => hsound.least S hS⟩, hsound.subset, hkeys, st,
    rfl, hsound.canCreate, hmem⟩
  have hsum : enabled.card = st.1.card + disabled.card := by
    rw [hcard, card_sdiff_of_subset hsound.subset,
      Nat.add_sub_cancel' (card_le_card hsound.subset)]
  rw [transitivelyEnabledCalls, transitivelyEnabled, hst, bind_some]
  dsimp only
  rw [hdis, if_neg (not_not.mpr hsum)]

theorem reason_congr {st st' : Progress} (h : st.1 = st'.1) (h' : ∀ res, res ∈ st.2 ↔ res ∈ st'.2) :
    target.reason st = target.reason st' := by
  rw [Prod.ext h (Finset.ext h')]

/-- **`TransitivelyEnabledCalls` returns the least closed set and, as disabled, the rest.**
The result is the same for every order, grows with the enabled calls and is closed. -/
theorem transitivelyEnabledCalls_least (target : Target) (enabled : Finset Syscall) :
    ∃ supported disabled,
      (∀ order, target.transitivelyEnabledCalls enabled order = some (supported, disabled)) ∧
      IsLeast {S | target.Closed enabled S} supported ∧
      supported ⊆ enabled ∧ (∀ c, (∃ text, (c, text) ∈ disabled) ↔ c ∈ enabled \ supported) ∧
      (∀ enabled' order' supported' disabled', enabled ⊆ enabled' →
        target.transitivelyEnabledCalls enabled' order' = some (supported', disabled') →
          supported ⊆ supported') ∧
      ∀ order', target.transitivelyEnabledCalls supported order' = some (supported, ∅) := by
  let order₀ : RangeOrder enabled :=
    ⟨fun _ => enabled.toList, fun _ => enabled.nodup_toList, fun _ _ => mem_toList⟩
  obtain ⟨supported, disabled, -, hleast, hsub, hkeys, st, hst, hcan, hmem⟩ :=
    @transitivelyEnabledCalls_eq target _ order₀
  refine ⟨supported, disabled, fun order => ?_, hleast, hsub, hkeys, ?_, fun order' => ?_⟩
  · obtain ⟨supported', disabled', hok, hleast', -, -, st', hst', hcan', hmem'⟩ :=
      @transitivelyEnabledCalls_eq target _ order
    obtain rfl := hleast'.unique hleast
    have hsame : target.reason st' = target.reason st :=
      reason_congr (hst'.trans hst.symm) fun res => (hcan' res).trans (hcan res).symm
    have hdis : disabled' = disabled := by
      ext ⟨c, text⟩
      rw [hmem', hmem, hsame]
    rw [hok, hdis]
  · intro enabled' order' supported' disabled' hle hok
    obtain ⟨_, _, hok', hleast', -⟩ := @transitivelyEnabledCalls_eq target _ order'
    rw [hok] at hok'
    obtain ⟨rfl, -⟩ := Prod.mk.inj (some.inj hok')
    exact hleast.2 fun c hc => hleast'.1 c (hle hc)
  · obtain ⟨supported', disabled', hok, hleast', hsub', hkeys', -⟩ :=
      @transitivelyEnabledCalls_eq target _ order'
    -- a set that is closed for the result is closed for all enabled calls
    have hclosed : target.Closed enabled supported' := fun c hc hinputs =>
      hleast'.1 c (hleast.1 c hc fun res hres => (hinputs res hres).mono hsub') hinputs
    obtain rfl : supported' = supported := Finset.Subset.antisymm hsub' (hleast.2 hclosed)
    have hdis : disabled' = ∅ := by
      refine eq_empty_of_forall_notMem ?_
      rintro ⟨c, text⟩ he
      have hc := (hkeys' c).mp ⟨text, he⟩
      simp at hc
    rw [hok, hdis]

end Target

end Sect.Resources
