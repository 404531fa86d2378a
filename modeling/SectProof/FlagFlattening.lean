import SectProof.KeyedTable

/-! # Flattening of flag sets

A flag set can list other flag sets among its values.  `recurFlattenFlags` replaces
every such reference, in place, by the values of the set it names, after flattening
that set in the same way; a set that is entered twice from one starting point is an
error, and so are more than 2000 values.  `flattenFlags` starts from every set, in the
order in which the map is ranged over, so that a starting point may find sets that an
earlier one has flattened.

The module relates one starting point to the expansion of the sets as it finds them. -/

open List

namespace Sect.Flags

variable {V : Type}

/-- The flag sets of a compiler by name, with their values. -/
abbrev FlagSets (V : Type) := Table String (List V)

/-! ## The code -/

inductive FlagError
  | usedTwice (name : String)
  | tooManyValues (name : String)
  deriving DecidableEq, Repr

inductive Outcome
  | done
  | failed (err : FlagError)
  | outOfFuel
  deriving DecidableEq, Repr

/-- All flag sets, and those entered since the starting point. -/
structure State (V : Type) where
  flags : FlagSets V
  visited : List String

section Code
variable (getName : V → String)

/-- The loop over the values of a set, with the values gathered so far. -/
def flattenValues (recur : String → State V → Outcome × State V) :
    List V → List V → State V → Outcome × List V × State V
  | [], values, st => (.done, values, st)
  | flag :: rest, values, st =>
    match st.flags.lookup (getName flag) with
    | none => flattenValues recur rest (values ++ [flag]) st
    | some _ =>
      match recur (getName flag) st with
      | (.done, st) =>
        flattenValues recur rest
          (values ++ (st.flags.lookup (getName flag)).getD []) st
      | (.failed err, st) => (.failed err, values, st)
      | (.outOfFuel, st) => (.outOfFuel, values, st)

def recurFlattenFlags : Nat → String → State V → Outcome × State V
  | 0, _, st => (.outOfFuel, st)
  | fuel + 1, name, st =>
    if name ∈ st.visited then (.failed (.usedTwice name), st)
    else
      match flattenValues getName (recurFlattenFlags fuel) ((st.flags.lookup name).getD []) []
          ⟨st.flags, st.visited ++ [name]⟩ with
      | (.done, values, st) =>
        if values.length > 2000 then (.failed (.tooManyValues name), st)
        else (.done, ⟨st.flags.insert name values, st.visited⟩)
      | (.failed err, _, st) => (.failed err, st)
      | (.outOfFuel, _, st) => (.outOfFuel, st)

/-- One starting point.  A chain of references enters no set twice. -/
def flattenFrom (name : String) (flags : FlagSets V) : Outcome × State V :=
  recurFlattenFlags getName (flags.size + 1) name ⟨flags, []⟩

/-- The starting points in the given order; the errors that are reported. -/
def flattenInOrder : List String → FlagSets V → Option (List FlagError × FlagSets V)
  | [], flags => some ([], flags)
  | name :: rest, flags =>
    match flattenFrom getName name flags with
    | (.done, st) => flattenInOrder rest st.flags
    | (.failed err, st) => (flattenInOrder rest st.flags).map fun r => (err :: r.1, r.2)
    | (.outOfFuel, _) => none

/-- The loop of `checkFlagsGeneric`: constants come before references. -/
def constsFirst (flags : FlagSets V) : Bool → List V → Bool
  | _, [] => true
  | inConstIdent, val :: rest =>
    match flags.lookup (getName val) with
    | some _ => constsFirst flags false rest
    | none => if !inConstIdent then false else constsFirst flags inConstIdent rest

/-- The sets for which `checkFlagsGeneric` reports an error before they are flattened. -/
def checkFlagsGeneric (flags : FlagSets V) : List String :=
  (flags.entries.filter fun e => !constsFirst getName flags true e.2).map Prod.fst

end Code

/-! ## Expansion -/

section Expansion
variable {getName : V → String} {s : FlagSets V}

/-- **Depth-first expansion of values**, with the flag sets that are entered in it. -/
inductive Expands (getName : V → String) (s : FlagSets V) :
    List V → List String → List V → Prop
  | nil : Expands getName s [] [] []
  | value {v vs l ws} : s.lookup (getName v) = none → Expands getName s vs l ws →
      Expands getName s (v :: vs) l (v :: ws)
  | flags {v vs us l₁ ws₁ l₂ ws₂} : s.lookup (getName v) = some us →
      Expands getName s us l₁ ws₁ → Expands getName s vs l₂ ws₂ →
      Expands getName s (v :: vs) (getName v :: l₁ ++ l₂) (ws₁ ++ ws₂)

/-- The flag sets that values refer to. -/
def refs (getName : V → String) (s : FlagSets V) (vs : List V) : List String :=
  (vs.map getName).filter fun name => (s.lookup name).isSome

variable {vs ws : List V} {l : List String}

theorem Expands.det {l' : List String} {ws' : List V} (h : Expands getName s vs l ws)
    (h' : Expands getName s vs l' ws') : l = l' ∧ ws = ws' := by
  induction h generalizing l' ws' with
  | nil =>
    cases h'
    exact ⟨rfl, rfl⟩
  | value hnone _ ih =>
    cases h' with
    | value _ hrest =>
      obtain ⟨rfl, rfl⟩ := ih hrest
      exact ⟨rfl, rfl⟩
    | flags hsome _ _ =>
      rw [hnone] at hsome
      cases hsome
  | flags hsome _ _ ih₁ ih₂ =>
    cases h' with
    | value hnone _ =>
      rw [hnone] at hsome
      cases hsome
    | flags hsome' h₁ h₂ =>
      rw [hsome] at hsome'
      cases hsome'
      obtain ⟨rfl, rfl⟩ := ih₁ h₁
      obtain ⟨rfl, rfl⟩ := ih₂ h₂
      exact ⟨rfl, rfl⟩

/-- No reference is left in an expansion. -/
theorem Expands.undeclared (h : Expands getName s vs l ws) :
    ∀ w ∈ ws, s.lookup (getName w) = none := by
  induction h with
  | nil => exact fun _ hw => nomatch hw
  | value hnone _ ih =>
    intro w hw
    rcases mem_cons.mp hw with rfl | hw
    · exact hnone
    · exact ih w hw
  | flags _ _ _ ih₁ ih₂ =>
    intro w hw
    rcases mem_append.mp hw with hw | hw
    · exact ih₁ w hw
    · exact ih₂ w hw

theorem expands_self (h : ∀ w ∈ ws, s.lookup (getName w) = none) : Expands getName s ws [] ws := by
  induction ws with
  | nil => exact .nil
  | cons w ws ih =>
    obtain ⟨hw, hws⟩ := forall_mem_cons.mp h
    exact .value hw (ih hws)

/-- What values refer to is entered. -/
theorem Expands.refs_sublist (h : Expands getName s vs l ws) : (refs getName s vs).Sublist l := by
  induction h with
  | nil => exact .slnil
  | value hnone _ ih =>
    rw [refs, map_cons, filter_cons_of_neg (by simp [hnone])]
    exact ih
  | flags hsome _ _ _ ih₂ =>
    rw [refs, map_cons, filter_cons_of_pos (by simp [hsome])]
    exact (ih₂.trans (sublist_append_right _ _)).cons_cons _

/-- A set that values refer to has a smaller expansion. -/
theorem Expands.of_mem_refs (h : Expands getName s vs l ws) {r : String}
    (hr : r ∈ refs getName s vs) :
    ∃ us l' ws', s.lookup r = some us ∧ Expands getName s us l' ws' ∧ l'.length < l.length := by
  induction h with
  | nil => cases hr
  | value hnone _ ih =>
    rw [refs, map_cons, filter_cons_of_neg (by simp [hnone])] at hr
    exact ih hr
  | @flags v vs us l₁ ws₁ l₂ ws₂ hsome h₁ _ _ ih₂ =>
    rw [refs, map_cons, filter_cons_of_pos (by simp [hsome])] at hr
    rcases mem_cons.mp hr with rfl | hr
    · refine ⟨us, l₁, ws₁, hsome, h₁, ?_⟩
      simp only [length_append, length_cons]
      omega
    · obtain ⟨us', l', ws', hus', hexp, hlt⟩ := ih₂ hr
      refine ⟨us', l', ws', hus', hexp, ?_⟩
      simp only [length_append, length_cons]
      omega

end Expansion

/-! ## One starting point -/

section Start
variable {getName : V → String} {s₀ : FlagSets V}

/-- The sets in the middle of a run from `s₀`: those not entered are unchanged. -/
structure Within (s₀ : FlagSets V) (st : State V) : Prop where
  keys : ∀ x, (st.flags.lookup x).isSome = (s₀.lookup x).isSome
  unentered : ∀ x, x ∉ st.visited → st.flags.lookup x = s₀.lookup x
  nodup : st.visited.Nodup
  declared : ∀ x ∈ st.visited, (s₀.lookup x).isSome

/-- A set with an expansion that enters no set twice and is short enough. -/
structure Flattens (getName : V → String) (s : FlagSets V) (name : String) (us : List V)
    (l : List String) (ws : List V) : Prop where
  lookup : s.lookup name = some us
  expands : Expands getName s us l ws
  nodup : (name :: l).Nodup
  short : ws.length ≤ 2000

/-- Every set is unchanged or has become its expansion. -/
def Progress (getName : V → String) (s₀ s s' : FlagSets V) : Prop :=
  ∀ x, s'.lookup x = s.lookup x ∨
    ∃ us l ws, Flattens getName s₀ x us l ws ∧ s'.lookup x = some ws

theorem Progress.refl (s : FlagSets V) : Progress getName s₀ s s := fun _ => .inl rfl

theorem Progress.trans {s s' s'' : FlagSets V} (h : Progress getName s₀ s s')
    (h' : Progress getName s₀ s' s'') : Progress getName s₀ s s'' := by
  intro x
  rcases h' x with heq | hflat
  · rw [heq]
    exact h x
  · exact .inr hflat

/-- What the loop over values guarantees. -/
def LoopMeets (getName : V → String) (s₀ : FlagSets V) (vs values : List V) (st : State V) :
    Outcome × List V × State V → Prop
  | (.done, values', st') =>
    Within s₀ st' ∧ Progress getName s₀ st.flags st'.flags ∧
    ∃ l ws, Expands getName s₀ vs l ws ∧ st'.visited = st.visited ++ l ∧ values' = values ++ ws
  | (.failed _, _, st') =>
    Progress getName s₀ st.flags st'.flags ∧
    ∀ l ws, Expands getName s₀ vs l ws → (st.visited ++ l).Nodup → 2000 < ws.length
  | (.outOfFuel, _, _) => False

/-- What flattening one set guarantees. -/
def SetMeets (getName : V → String) (s₀ : FlagSets V) (name : String) (us : List V)
    (st : State V) : Outcome × State V → Prop
  | (.done, st') =>
    Within s₀ st' ∧ Progress getName s₀ st.flags st'.flags ∧
    ∃ l ws, Flattens getName s₀ name us l ws ∧ st'.visited = st.visited ++ name :: l ∧
      st'.flags.lookup name = some ws
  | (.failed _, st') =>
    Progress getName s₀ st.flags st'.flags ∧
    ∀ l ws, Expands getName s₀ us l ws → (st.visited ++ name :: l).Nodup → 2000 < ws.length
  | (.outOfFuel, _) => False

variable {st : State V} {name : String}

/-- The loop, if each set it enters keeps its guarantee. -/
theorem flattenValues_meets {recur : String → State V → Outcome × State V} {vs values : List V}
    (hst : Within s₀ st)
    (hrecur : ∀ name us st', st.visited.length ≤ st'.visited.length → Within s₀ st' →
      s₀.lookup name = some us → SetMeets getName s₀ name us st' (recur name st')) :
    LoopMeets getName s₀ vs values st (flattenValues getName recur vs values st) := by
  induction vs generalizing values st with
  | nil => exact ⟨hst, .refl _, [], [], .nil, by simp, by simp⟩
  | cons v vs ih =>
    rw [flattenValues]
    have hkeys := hst.keys (getName v)
    cases hcur : st.flags.lookup (getName v) with
    | none =>
      have hnone : s₀.lookup (getName v) = none := by
        rw [hcur] at hkeys
        exact Option.not_isSome_iff_eq_none.mp (by simp [← hkeys])
      have hih : LoopMeets getName s₀ vs (values ++ [v]) st _ := ih hst hrecur
      generalize flattenValues getName recur vs (values ++ [v]) st = out at hih ⊢
      match out, hih with
      | (.done, values', st'), ⟨hst', hprog, l, ws, hexp, hvis, hvalues⟩ =>
        exact ⟨hst', hprog, l, v :: ws, .value hnone hexp, hvis, by
          rw [hvalues, append_assoc]; rfl⟩
      | (.failed err, values', st'), ⟨hprog, hfail⟩ =>
        refine ⟨hprog, fun l ws hexp hnodup => ?_⟩
        cases hexp with
        | value _ hrest =>
          exact Nat.lt_succ_of_lt (hfail _ _ hrest hnodup)
        | flags hsome _ _ =>
          rw [hnone] at hsome
          cases hsome
    | some cur =>
      obtain ⟨us, hus⟩ : ∃ us, s₀.lookup (getName v) = some us := by
        rw [hcur] at hkeys
        exact Option.isSome_iff_exists.mp hkeys.symm
      have hmeets := hrecur (getName v) us st (Nat.le_refl _) hst hus
      generalize recur (getName v) st = out at hmeets ⊢
      match out, hmeets with
      | (.failed err, st₁), ⟨hprog, hfail⟩ =>
        refine ⟨hprog, fun l ws hexp hnodup => ?_⟩
        cases hexp with
        | value hnone _ =>
          rw [hus] at hnone
          cases hnone
        | flags hsome h₁ _ =>
          rw [hus] at hsome
          cases hsome
          rw [length_append]
          refine Nat.lt_of_lt_of_le (hfail _ _ h₁ ?_) (Nat.le_add_right _ _)
          exact hnodup.sublist
            ((sublist_append_left _ _).append_left _)
      | (.done, st₁), ⟨hst₁, hprog₁, l₁, ws₁, hflat, hvis₁, hlookup₁⟩ =>
        have hlen : st.visited.length ≤ st₁.visited.length := by
          rw [hvis₁, length_append]
          exact Nat.le_add_right _ _
        have hih : LoopMeets getName s₀ vs (values ++ ws₁) st₁ _ :=
          ih hst₁ fun name us' st' hle => hrecur name us' st' (hlen.trans hle)
        dsimp only
        rw [hlookup₁, Option.getD_some]
        generalize flattenValues getName recur vs (values ++ ws₁) st₁ = out' at hih ⊢
        match out', hih with
        | (.done, values', st'), ⟨hst', hprog, l₂, ws₂, hexp, hvis, hvalues⟩ =>
          exact ⟨hst', hprog₁.trans hprog, getName v :: l₁ ++ l₂, ws₁ ++ ws₂,
            .flags hus hflat.expands hexp, by rw [hvis, hvis₁, append_assoc], by
              rw [hvalues, append_assoc]⟩
        | (.failed err, values', st'), ⟨hprog, hfail⟩ =>
          refine ⟨hprog₁.trans hprog, fun l ws hexp hnodup => ?_⟩
          cases hexp with
          | value hnone _ =>
            rw [hus] at hnone
            cases hnone
          | flags hsome h₁ h₂ =>
            rw [hus] at hsome
            cases hsome
            obtain ⟨rfl, rfl⟩ := hflat.expands.det h₁
            rw [length_append]
            refine Nat.lt_of_lt_of_le (hfail _ _ h₂ ?_) (Nat.le_add_left _ _)
            rwa [hvis₁, append_assoc]

theorem Within.length_le (h : Within s₀ st) : st.visited.length ≤ s₀.size := by
  have hsub : st.visited ⊆ s₀.entries.map Prod.fst := by
    intro x hx
    rw [Table.mem_keys_iff]
    exact Option.isSome_iff_ne_none.mp (h.declared x hx)
  have hlen := (h.nodup.subperm hsub).length_le
  rwa [length_map] at hlen

theorem Within.enter (h : Within s₀ st) (hnew : name ∉ st.visited)
    (hdecl : (s₀.lookup name).isSome) : Within s₀ ⟨st.flags, st.visited ++ [name]⟩ where
  keys := h.keys
  unentered x hx := h.unentered x fun hmem => hx (mem_append_left _ hmem)
  nodup := by
    refine nodup_append.mpr ⟨h.nodup, nodup_singleton name, ?_⟩
    rintro a ha b hb rfl
    exact hnew (mem_singleton.mp hb ▸ ha)
  declared x hx := by
    rcases mem_append.mp hx with hx | hx
    · exact h.declared x hx
    · rwa [mem_singleton.mp hx]

/-- The values of an entered set are replaced. -/
theorem Within.set (h : Within s₀ st) (hmem : name ∈ st.visited) (values : List V) :
    Within s₀ ⟨st.flags.insert name values, st.visited⟩ where
  keys x := by
    rw [Table.lookup_insert]
    split
    · next hx =>
        rw [hx, h.declared name hmem]
        rfl
    · exact h.keys x
  unentered x hx := by
    have hne : x ≠ name := fun heq => hx (heq ▸ hmem)
    rw [Table.lookup_insert_of_ne hne]
    exact h.unentered x hx
  nodup := h.nodup
  declared := h.declared

/-- **Flattening a set fails exactly if its expansion enters a set twice or is too
long.**  By induction on the depth of references; the sets entered so far bound it. -/
theorem recurFlattenFlags_meets {fuel : Nat} {us : List V} (hst : Within s₀ st)
    (hus : s₀.lookup name = some us) (hfuel : s₀.size < fuel + st.visited.length) :
    SetMeets getName s₀ name us st (recurFlattenFlags getName fuel name st) := by
  induction fuel generalizing name us st with
  | zero =>
    have hlen := hst.length_le
    omega
  | succ fuel ih =>
    rw [recurFlattenFlags]
    split_ifs with hvisited
    · refine ⟨.refl _, fun l ws _ hnodup => ?_⟩
      have hdisj := (nodup_append.mp hnodup).2.2
      exact absurd rfl (hdisj name hvisited name mem_cons_self)
    have hcur : (st.flags.lookup name).getD [] = us := by
      rw [hst.unentered name hvisited, hus]
      rfl
    have hst₁ := hst.enter hvisited (by rw [hus]; rfl)
    have hloop : LoopMeets getName s₀ us [] ⟨st.flags, st.visited ++ [name]⟩
        (flattenValues getName (recurFlattenFlags getName fuel) us []
          ⟨st.flags, st.visited ++ [name]⟩) := by
      refine flattenValues_meets hst₁ fun name' us' st' hlen hst' hus' => ih hst' hus' ?_
      have hlen' : st.visited.length + 1 ≤ st'.visited.length := by
        simpa using hlen
      omega
    rw [hcur]
    generalize flattenValues getName (recurFlattenFlags getName fuel) us []
      ⟨st.flags, st.visited ++ [name]⟩ = out at hloop ⊢
    match out, hloop with
    | (.failed err, values, st'), ⟨hprog, hfail⟩ =>
      refine ⟨hprog, fun l ws hexp hnodup => hfail l ws hexp ?_⟩
      rwa [append_assoc, singleton_append]
    | (.done, values, st'), ⟨hst', hprog, l, ws, hexp, hvis, hvalues⟩ =>
      rw [nil_append] at hvalues
      rw [append_assoc, singleton_append] at hvis
      dsimp only
      split
      · next hlong =>
          refine ⟨hprog, fun l' ws' hexp' _ => ?_⟩
          obtain ⟨-, rfl⟩ := hexp.det hexp'
          exact hvalues ▸ hlong
      · next hshort =>
          have hmem : name ∈ st'.visited := by
            rw [hvis]
            exact mem_append_right _ mem_cons_self
          have hnodup := hst'.nodup
          rw [hvis] at hnodup
          have hflat : Flattens getName s₀ name us l ws :=
            ⟨hus, hexp, (nodup_append.mp hnodup).2.1, by
              rw [← hvalues]
              exact Nat.le_of_not_gt hshort⟩
          refine ⟨hst'.set hmem values, fun x => ?_, l, ws, hflat, hvis, ?_⟩
          · rcases eq_or_ne x name with rfl | hne
            · exact .inr ⟨us, l, ws, hflat, by rw [Table.lookup_insert_self, hvalues]⟩
            · have hx := hprog x
              rwa [← Table.lookup_insert_of_ne hne values] at hx
          · rw [Table.lookup_insert_self, hvalues]

/-- **One starting point.** -/
theorem flattenFrom_meets {us : List V} (hus : s₀.lookup name = some us) :
    SetMeets getName s₀ name us ⟨s₀, []⟩ (flattenFrom getName name s₀) := by
  refine recurFlattenFlags_meets ⟨fun _ => rfl, fun _ _ => rfl, nodup_nil, ?_⟩ hus ?_
  · exact fun _ hx => nomatch hx
  · simp

end Start

end Sect.Flags
