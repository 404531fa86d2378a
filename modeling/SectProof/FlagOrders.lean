import SectProof.FlagFlattening

/-! # Flattening in any order

Whether flattening succeeds can depend on the order in which the starting points are
taken: a set that another starting point has flattened before is entered, but what it
referred to is not.  The module says for which declarations it does not.

Between two starting points every set is as declared or has been replaced by its
expansion (`Mixed`).  So the values of a set that is flattened never depend on the
order, and the question is only which sets are entered twice. -/

open List Option

namespace Sect.Flags

variable {V W : Type}

/-! ## Between two starting points -/

section Mixed
variable {getName : V → String} {d s s' : FlagSets V}

/-- A set has been replaced by its expansion. -/
structure FlatAt (getName : V → String) (d s : FlagSets V) (name : String) (us : List V)
    (l : List String) (ws : List V) : Prop where
  declared : d.lookup name = some us
  expands : Expands getName d us l ws
  nodup : (refs getName d us).Nodup
  short : ws.length ≤ 2000
  lookup : s.lookup name = some ws

/-- Some starting point has flattened the set. -/
def Flat (getName : V → String) (d s : FlagSets V) (name : String) : Prop :=
  ∃ us l ws, FlatAt getName d s name us l ws

/-- Every set is as declared or flattened. -/
def Mixed (getName : V → String) (d s : FlagSets V) : Prop :=
  ∀ name, s.lookup name = d.lookup name ∨ Flat getName d s name

theorem Mixed.refl (d : FlagSets V) : Mixed getName d d := fun _ => .inl rfl

variable (h : Mixed getName d s) {name : String} {us ws vs : List V} {l : List String}
include h

theorem Mixed.lookup_eq_none_iff (name : String) : s.lookup name = none ↔ d.lookup name = none := by
  rcases h name with heq | ⟨us, l, ws, hflat⟩
  · rw [heq]
  · rw [hflat.declared, hflat.lookup]
    exact ⟨(nomatch ·), (nomatch ·)⟩

theorem Mixed.refs_eq (vs : List V) : refs getName s vs = refs getName d vs := by
  refine filter_congr fun name _ => ?_
  have hiff := h.lookup_eq_none_iff name
  rw [Bool.eq_iff_iff, isSome_iff_ne_none, isSome_iff_ne_none, Ne, Ne, hiff]

/-- The values of a flattened set expand to themselves. -/
theorem FlatAt.expands_self (hflat : FlatAt getName d s name us l ws) :
    Expands getName s ws [] ws :=
  Flags.expands_self fun w hw => (h.lookup_eq_none_iff _).mpr (hflat.expands.undeclared w hw)

/-- Declared values expand to the same values, through fewer sets. -/
theorem Mixed.expands (hexp : Expands getName d vs l ws) :
    ∃ l', l'.Sublist l ∧ Expands getName s vs l' ws := by
  induction hexp with
  | nil => exact ⟨[], .slnil, .nil⟩
  | value hnone _ ih =>
    obtain ⟨l', hsub, hexp'⟩ := ih
    exact ⟨l', hsub, .value ((h.lookup_eq_none_iff _).mpr hnone) hexp'⟩
  | @flags v vs us l₁ ws₁ l₂ ws₂ hsome h₁ _ ih₁ ih₂ =>
    obtain ⟨l₁', hsub₁, hexp₁⟩ := ih₁
    obtain ⟨l₂', hsub₂, hexp₂⟩ := ih₂
    rcases h (getName v) with heq | ⟨us', l', ws', hflat⟩
    · exact ⟨_, (hsub₁.append hsub₂).cons_cons _, .flags (heq.trans hsome) hexp₁ hexp₂⟩
    have hus := hflat.declared
    rw [hsome] at hus
    cases hus
    obtain ⟨-, rfl⟩ := h₁.det hflat.expands
    exact ⟨_, ((nil_sublist l₁).append hsub₂).cons_cons _,
      .flags hflat.lookup (hflat.expands_self h) hexp₂⟩

/-- What values expand to between two starting points, they expand to as declared. -/
theorem Mixed.expands_declared (hexp : Expands getName s vs l ws) :
    ∃ l', Expands getName d vs l' ws := by
  induction hexp with
  | nil => exact ⟨[], .nil⟩
  | value hnone _ ih =>
    obtain ⟨l', hexp'⟩ := ih
    exact ⟨l', .value ((h.lookup_eq_none_iff _).mp hnone) hexp'⟩
  | @flags v vs us l₁ ws₁ l₂ ws₂ hsome h₁ _ ih₁ ih₂ =>
    obtain ⟨l₁', hexp₁⟩ := ih₁
    obtain ⟨l₂', hexp₂⟩ := ih₂
    rcases h (getName v) with heq | ⟨us', l', ws', hflat⟩
    · exact ⟨_, .flags (heq.symm.trans hsome) hexp₁ hexp₂⟩
    · have hws := hflat.lookup
      rw [hsome] at hws
      cases hws
      obtain ⟨-, rfl⟩ := h₁.det (hflat.expands_self h)
      exact ⟨_, .flags hflat.declared hflat.expands hexp₂⟩

/-- A set that a starting point flattens is flat. -/
theorem Mixed.flat_of_flattens (hflattens : Flattens getName s name us l ws)
    (hlookup : s'.lookup name = some ws) : Flat getName d s' name := by
  rcases h name with heq | ⟨us', l', ws', hflat⟩
  · obtain ⟨l', hexp⟩ := h.expands_declared hflattens.expands
    refine ⟨us, l', ws, heq.symm.trans hflattens.lookup, hexp, ?_, hflattens.short, hlookup⟩
    rw [← h.refs_eq]
    exact (nodup_cons.mp hflattens.nodup).2.sublist hflattens.expands.refs_sublist
  · have hws := hflat.lookup
    rw [hflattens.lookup] at hws
    cases hws
    obtain ⟨-, rfl⟩ := hflattens.expands.det (hflat.expands_self h)
    exact ⟨us', l', ws, hflat.declared, hflat.expands, hflat.nodup, hflat.short, hlookup⟩

theorem Mixed.flat_progress (hprog : Progress getName s s s') (hflat : Flat getName d s name) :
    Flat getName d s' name := by
  rcases hprog name with heq | ⟨us, l, ws, hflattens, hlookup⟩
  · obtain ⟨us, l, ws, hflat⟩ := hflat
    exact ⟨us, l, ws, { hflat with lookup := heq.trans hflat.lookup }⟩
  · exact h.flat_of_flattens hflattens hlookup

theorem Mixed.progress (hprog : Progress getName s s s') : Mixed getName d s' := by
  intro name
  rcases hprog name with heq | ⟨us, l, ws, hflattens, hlookup⟩
  · rcases h name with hsame | hflat
    · exact .inl (heq.trans hsame)
    · exact .inr (h.flat_progress hprog hflat)
  · exact .inr (h.flat_of_flattens hflattens hlookup)

theorem Mixed.lookup_isSome (hname : (d.lookup name).isSome) : ∃ us, s.lookup name = some us := by
  have hiff := h.lookup_eq_none_iff name
  refine ne_none_iff_exists'.mp fun hnone => ?_
  rw [hiff.mp hnone] at hname
  cases hname

end Mixed

/-! ## All starting points -/

section Orders
variable {getName : V → String} {d s : FlagSets V}

/-- **What every order of starting points keeps.** -/
theorem flattenInOrder_spec {order : List String} (h : Mixed getName d s)
    (hnames : ∀ name ∈ order, (d.lookup name).isSome) :
    ∃ errs s', flattenInOrder getName order s = some (errs, s') ∧ Mixed getName d s' ∧
      (∀ x, Flat getName d s x → Flat getName d s' x) ∧
      (errs = [] → ∀ name ∈ order, Flat getName d s' name) := by
  induction order generalizing s with
  | nil => exact ⟨[], s, rfl, h, fun _ => id, fun _ _ hmem => nomatch hmem⟩
  | cons name rest ih =>
    obtain ⟨hname, hrest⟩ := forall_mem_cons.mp hnames
    obtain ⟨us, hus⟩ := h.lookup_isSome hname
    have hmeets : SetMeets getName s name us ⟨s, []⟩ (flattenFrom getName name s) :=
      flattenFrom_meets hus
    rw [flattenInOrder]
    generalize flattenFrom getName name s = out at hmeets ⊢
    match out, hmeets with
    | (.done, st), ⟨_, hprog, l, ws, hflattens, _, hlookup⟩ =>
      obtain ⟨errs, s', hrun, hmixed, hkept, hall⟩ := ih (h.progress hprog) hrest
      refine ⟨errs, s', hrun, hmixed, fun x hx => hkept x (h.flat_progress hprog hx),
        fun hnil => forall_mem_cons.mpr ⟨hkept name ?_, hall hnil⟩⟩
      exact h.flat_of_flattens hflattens hlookup
    | (.failed err, st), ⟨hprog, _⟩ =>
      obtain ⟨errs, s', hrun, hmixed, hkept, -⟩ := ih (h.progress hprog) hrest
      refine ⟨err :: errs, s', ?_, hmixed, fun x hx => hkept x (h.flat_progress hprog hx),
        fun hnil => nomatch hnil⟩
      dsimp only
      rw [hrun]
      rfl

/-- No error is reported if every starting point finds a set that can be flattened. -/
theorem flattenInOrder_ok {seen order : List String} (h : Mixed getName d s)
    (hseen : ∀ x ∈ seen, Flat getName d s x)
    (hstart : ∀ before name after, order = before ++ name :: after → ∀ s', Mixed getName d s' →
      (∀ x ∈ seen ++ before, Flat getName d s' x) → ∃ us l ws, Flattens getName s' name us l ws) :
    ∃ s', flattenInOrder getName order s = some ([], s') := by
  induction order generalizing s seen with
  | nil => exact ⟨s, rfl⟩
  | cons name rest ih =>
    obtain ⟨us, l, ws, hflattens⟩ := hstart [] name rest rfl s h (by simpa using hseen)
    have hmeets : SetMeets getName s name us ⟨s, []⟩ (flattenFrom getName name s) :=
      flattenFrom_meets hflattens.lookup
    rw [flattenInOrder]
    generalize flattenFrom getName name s = out at hmeets ⊢
    match out, hmeets with
    | (.done, st), ⟨_, hprog, l', ws', hflattens', _, hlookup⟩ =>
      have hseen' : ∀ x ∈ seen ++ [name], Flat getName d st.flags x := by
        intro x hx
        rcases mem_append.mp hx with hx | hx
        · exact h.flat_progress hprog (hseen x hx)
        · rw [mem_singleton.mp hx]
          exact h.flat_of_flattens hflattens' hlookup
      refine ih (h.progress hprog) hseen' fun before name' after heq s' hmixed hflat => ?_
      refine hstart (name :: before) name' after (by rw [heq]; rfl) s' hmixed ?_
      rwa [append_assoc, singleton_append] at hflat
    | (.failed err, st), ⟨_, hfail⟩ =>
      have hlong := hfail l ws hflattens.expands hflattens.nodup
      have hshort := hflattens.short
      omega

end Orders

/-! ## Conditions on the declarations -/

section Conditions
variable {getName : V → String} {d s : FlagSets V}

/-- One set lists another one. -/
def Refers (getName : V → String) (d : FlagSets V) (a b : String) : Prop :=
  ∃ us, d.lookup a = some us ∧ b ∈ refs getName d us

/-- A set refers to itself, directly or through other sets. -/
def Cyclic (getName : V → String) (d : FlagSets V) : Prop :=
  ∃ name, Relation.TransGen (Refers getName d) name name

/-- A set lists another one twice. -/
def ListsTwice (getName : V → String) (d : FlagSets V) : Prop :=
  ∃ name us, d.lookup name = some us ∧ ¬ (refs getName d us).Nodup

/-- A set has more values than are allowed. -/
def TooLong (getName : V → String) (d : FlagSets V) : Prop :=
  ∃ name us l ws, d.lookup name = some us ∧ Expands getName d us l ws ∧ 2000 < ws.length

/-- Declarations for which an error is reported in every order. -/
def AlwaysFails (getName : V → String) (d : FlagSets V) : Prop :=
  Cyclic getName d ∨ ListsTwice getName d ∨ TooLong getName d

/-- No set occurs twice in the expansion of a set. -/
def NoneTwice (getName : V → String) (d : FlagSets V) : Prop :=
  ∀ name us l ws, d.lookup name = some us → Expands getName d us l ws → (name :: l).Nodup

variable {us ws : List V} {l : List String} {name : String}

/-- Along references expansions get smaller. -/
theorem Expands.of_transGen {a b : String} (h : Relation.TransGen (Refers getName d) a b)
    (hus : d.lookup a = some us) (hexp : Expands getName d us l ws) :
    ∃ us' l' ws', d.lookup b = some us' ∧ Expands getName d us' l' ws' ∧
      l'.length < l.length := by
  induction h with
  | single href =>
    obtain ⟨us₁, hus₁, hmem⟩ := href
    rw [hus] at hus₁
    cases hus₁
    exact hexp.of_mem_refs hmem
  | tail _ href ih =>
    obtain ⟨us₁, l₁, ws₁, hlookup, hexp₁, hlt⟩ := ih
    obtain ⟨us₂, hus₂, hmem⟩ := href
    rw [hlookup] at hus₂
    cases hus₂
    obtain ⟨us', l', ws', hlookup', hexp', hlt'⟩ := hexp₁.of_mem_refs hmem
    exact ⟨us', l', ws', hlookup', hexp', hlt'.trans hlt⟩

/-- A set that refers to itself has no expansion. -/
theorem not_expands_of_cycle (h : Relation.TransGen (Refers getName d) name name)
    (hus : d.lookup name = some us) : ¬ Expands getName d us l ws := by
  intro hexp
  obtain ⟨us', l', ws', hus', hexp', hlt⟩ := Expands.of_transGen h hus hexp
  rw [hus] at hus'
  cases hus'
  obtain ⟨rfl, -⟩ := hexp.det hexp'
  exact absurd hlt (Nat.lt_irrefl _)

theorem Refers.declared {a b : String} (h : Relation.TransGen (Refers getName d) a b) :
    ∃ us, d.lookup a = some us := by
  induction h with
  | single href =>
    obtain ⟨us, hus, -⟩ := href
    exact ⟨us, hus⟩
  | tail _ _ ih => exact ih

/-- Values all of whose references have an expansion have one. -/
theorem exists_expands_values {vs : List V}
    (h : ∀ r ∈ refs getName d vs, ∃ us l ws, d.lookup r = some us ∧ Expands getName d us l ws) :
    ∃ l ws, Expands getName d vs l ws := by
  induction vs with
  | nil => exact ⟨[], [], .nil⟩
  | cons v vs ih =>
    cases hv : d.lookup (getName v) with
    | none =>
      rw [refs, map_cons, filter_cons_of_neg (by simp [hv])] at h
      obtain ⟨l, ws, hexp⟩ := ih h
      exact ⟨l, v :: ws, .value hv hexp⟩
    | some us =>
      rw [refs, map_cons, filter_cons_of_pos (by simp [hv])] at h
      obtain ⟨⟨us', l₁, ws₁, hus', h₁⟩, hrest⟩ := forall_mem_cons.mp h
      obtain ⟨l₂, ws₂, h₂⟩ := ih hrest
      exact ⟨_, _, .flags hus' h₁ h₂⟩

/-- **Without a cycle every set has an expansion.** -/
theorem exists_expands (h : ¬ Cyclic getName d) (hus : d.lookup name = some us) :
    ∃ l ws, Expands getName d us l ws := by
  let below (b a : {x // x ∈ d.entries.map Prod.fst}) : Prop :=
    Relation.TransGen (Refers getName d) a b
  have htrans : IsTrans _ below := ⟨fun _ _ _ hba hcb => hcb.trans hba⟩
  have hirrefl : Std.Irrefl below := ⟨fun a ha => h ⟨a, ha⟩⟩
  have hwf : WellFounded below := Finite.wellFounded_of_trans_of_irrefl below
  have hmem : name ∈ d.entries.map Prod.fst := by
    rw [Table.mem_keys_iff, hus]
    exact fun heq => nomatch heq
  refine hwf.induction (C := fun a => ∀ us, d.lookup a.1 = some us →
    ∃ l ws, Expands getName d us l ws) ⟨name, hmem⟩ (fun a ih us hus => ?_) us hus
  refine exists_expands_values fun r hr => ?_
  have hdecl : (d.lookup r).isSome := by
    rw [refs, mem_filter] at hr
    exact hr.2
  obtain ⟨us', hus'⟩ := isSome_iff_exists.mp hdecl
  have hkey : r ∈ d.entries.map Prod.fst := by
    rw [Table.mem_keys_iff, hus']
    exact fun heq => nomatch heq
  obtain ⟨l, ws, hexp⟩ := ih ⟨r, hkey⟩ (.single ⟨us, hus, hr⟩) us' hus'
  exact ⟨us', l, ws, hus', hexp⟩

/-- A set that has been flattened is none of those for which this fails. -/
theorem not_alwaysFails_of_flat (h : ∀ name us, d.lookup name = some us →
    Flat getName d s name) : ¬ AlwaysFails getName d := by
  rintro (⟨name, hcycle⟩ | ⟨name, us, hus, htwice⟩ | ⟨name, us, l, ws, hus, hexp, hlong⟩)
  · obtain ⟨us, hus⟩ := Refers.declared hcycle
    obtain ⟨us', l, ws, hflat⟩ := h name us hus
    exact not_expands_of_cycle hcycle hflat.declared hflat.expands
  · obtain ⟨us', l, ws, hflat⟩ := h name us hus
    have heq := hflat.declared
    rw [hus] at heq
    cases heq
    exact htwice hflat.nodup
  · obtain ⟨us', l', ws', hflat⟩ := h name us hus
    have heq := hflat.declared
    rw [hus] at heq
    cases heq
    obtain ⟨-, rfl⟩ := hexp.det hflat.expands
    have hshort := hflat.short
    omega

/-- A set can be flattened if no set is entered twice in its expansion. -/
theorem Mixed.flattens (h : Mixed getName d s) (hus : d.lookup name = some us)
    (hshort : ws.length ≤ 2000)
    (hnodup : s.lookup name = some us → ∃ l', Expands getName s us l' ws ∧ (name :: l').Nodup) :
    ∃ us' l' ws', Flattens getName s name us' l' ws' := by
  rcases h name with heq | ⟨us', l', ws', hflat⟩
  · have hcur := heq.trans hus
    obtain ⟨l', hexp', hnodup'⟩ := hnodup hcur
    exact ⟨us, l', ws, hcur, hexp', hnodup', hshort⟩
  · exact ⟨ws', [], ws', hflat.lookup, hflat.expands_self h, nodup_singleton name,
      hflat.short⟩

/-- If all that values refer to is flat, they are expanded in one step. -/
theorem Mixed.expands_refs (h : Mixed getName d s) {vs : List V} (hexp : Expands getName d vs l ws)
    (hflat : ∀ r ∈ refs getName d vs, Flat getName d s r) :
    Expands getName s vs (refs getName d vs) ws := by
  induction hexp with
  | nil => exact .nil
  | value hnone _ ih =>
    rw [refs, map_cons, filter_cons_of_neg (by simp [hnone])] at hflat ⊢
    exact .value ((h.lookup_eq_none_iff _).mpr hnone) (ih hflat)
  | @flags v vs us l₁ ws₁ l₂ ws₂ hsome h₁ _ _ ih₂ =>
    rw [refs, map_cons, filter_cons_of_pos (by simp [hsome])] at hflat ⊢
    obtain ⟨⟨us', l', ws', hv⟩, hrest⟩ := forall_mem_cons.mp hflat
    have heq := hv.declared
    rw [hsome] at heq
    cases heq
    obtain ⟨-, rfl⟩ := h₁.det hv.expands
    exact .flags hv.lookup (hv.expands_self h) (ih₂ hrest)

end Conditions

/-! ## Some order, and every order -/

section Every
variable {getName : V → String} {d : FlagSets V}

/-- A map is ranged over in some order of its keys. -/
def Ranges (order : List String) (d : FlagSets V) : Prop :=
  order.Perm (d.entries.map Prod.fst)

variable {order : List String} {name : String}

theorem Ranges.mem_iff (h : Ranges order d) : name ∈ order ↔ (d.lookup name).isSome := by
  rw [List.Perm.mem_iff h, Table.mem_keys_iff, isSome_iff_ne_none]

/-- Every set has the values of its depth-first expansion. -/
def Expanded (getName : V → String) (d s : FlagSets V) : Prop :=
  ∀ name, s.lookup name = none ∧ d.lookup name = none ∨
    ∃ us l ws, d.lookup name = some us ∧ Expands getName d us l ws ∧ s.lookup name = some ws

variable {s s' : FlagSets V} {us ws : List V} {l : List String}

theorem Expanded.lookup_eq (h : Expanded getName d s) (h' : Expanded getName d s') (name : String) :
    s.lookup name = s'.lookup name := by
  rcases h name with ⟨hs, hd⟩ | ⟨us, l, ws, hus, hexp, hs⟩
  · rcases h' name with ⟨hs', -⟩ | ⟨us', l', ws', hus', -⟩
    · rw [hs, hs']
    · rw [hd] at hus'
      cases hus'
  · rcases h' name with ⟨-, hd'⟩ | ⟨us', l', ws', hus', hexp', hs'⟩
    · rw [hus] at hd'
      cases hd'
    · rw [hus] at hus'
      cases hus'
      obtain ⟨-, rfl⟩ := hexp.det hexp'
      rw [hs, hs']

/-- **Every order ends**, and without error with the expansions. -/
theorem flattenInOrder_ends (getName : V → String) (h : Ranges order d) :
    ∃ errs s', flattenInOrder getName order d = some (errs, s') ∧
      (errs = [] → Expanded getName d s' ∧ ¬ AlwaysFails getName d) := by
  obtain ⟨errs, s', hrun, hmixed, -, hall⟩ :=
    flattenInOrder_spec (.refl d) fun name hname => h.mem_iff.mp hname
  refine ⟨errs, s', hrun, fun hnil => ⟨fun name => ?_, ?_⟩⟩
  · cases hd : d.lookup name with
    | none => exact .inl ⟨(hmixed.lookup_eq_none_iff name).mpr hd, rfl⟩
    | some us =>
      obtain ⟨us', l, ws, hflat⟩ := hall hnil name (h.mem_iff.mpr (by rw [hd]; rfl))
      exact .inr ⟨us', l, ws, hd ▸ hflat.declared, hflat.expands, hflat.lookup⟩
  · exact not_alwaysFails_of_flat fun name us hus =>
      hall hnil name (h.mem_iff.mpr (by rw [hus]; rfl))

theorem short_of_not_alwaysFails (h : ¬ AlwaysFails getName d) (hus : d.lookup name = some us)
    (hexp : Expands getName d us l ws) : ws.length ≤ 2000 := by
  by_contra hlong
  exact h (.inr (.inr ⟨name, us, l, ws, hus, hexp, Nat.lt_of_not_ge hlong⟩))

/-- If no set occurs twice in an expansion, no order fails. -/
theorem flattenInOrder_of_noneTwice (h : ¬ AlwaysFails getName d) (htwice : NoneTwice getName d)
    (hord : Ranges order d) : ∃ s', flattenInOrder getName order d = some ([], s') := by
  have hnone : ∀ x ∈ ([] : List String), Flat getName d d x := fun _ hx => nomatch hx
  refine flattenInOrder_ok (.refl d) hnone fun before name after heq s' hmixed _ => ?_
  have hmem : name ∈ order := by
    rw [heq]
    exact mem_append_right _ mem_cons_self
  obtain ⟨us, hus⟩ := isSome_iff_exists.mp (hord.mem_iff.mp hmem)
  obtain ⟨l, ws, hexp⟩ := exists_expands (fun hcycle => h (.inl hcycle)) hus
  refine hmixed.flattens hus (short_of_not_alwaysFails h hus hexp) fun _ => ?_
  obtain ⟨l', hsub, hexp'⟩ := hmixed.expands hexp
  exact ⟨l', hexp', (htwice name us l ws hus hexp).sublist (hsub.cons_cons name)⟩

/-- Two orders then agree on whether there is an error. -/
theorem errs_iff_of_noneTwice (htwice : NoneTwice getName d) {order' : List String}
    {errs errs' : List FlagError} (hord : Ranges order d) (hord' : Ranges order' d)
    (hrun : flattenInOrder getName order d = some (errs, s))
    (hrun' : flattenInOrder getName order' d = some (errs', s')) : errs = [] ↔ errs' = [] := by
  by_cases hfail : AlwaysFails getName d
  · obtain ⟨e, t, he, hok⟩ := flattenInOrder_ends getName hord
    obtain ⟨e', t', he', hok'⟩ := flattenInOrder_ends getName hord'
    rw [hrun] at he
    rw [hrun'] at he'
    cases he
    cases he'
    exact ⟨fun hnil => absurd hfail (hok hnil).2, fun hnil => absurd hfail (hok' hnil).2⟩
  · obtain ⟨t, ht⟩ := flattenInOrder_of_noneTwice hfail htwice hord
    obtain ⟨t', ht'⟩ := flattenInOrder_of_noneTwice hfail htwice hord'
    rw [hrun] at ht
    rw [hrun'] at ht'
    cases ht
    cases ht'
    exact .rfl

/-- The number of sets entered in the expansion of a set. -/
noncomputable def rank (getName : V → String) (d : FlagSets V) (name : String) : Nat :=
  sInf {n | ∃ us l ws, d.lookup name = some us ∧ Expands getName d us l ws ∧ n = l.length}

theorem rank_eq (hus : d.lookup name = some us) (hexp : Expands getName d us l ws) :
    rank getName d name = l.length := by
  have hset : {n | ∃ us l ws, d.lookup name = some us ∧ Expands getName d us l ws ∧
      n = l.length} = {l.length} := by
    ext n
    constructor
    · rintro ⟨us', l', ws', hus', hexp', rfl⟩
      rw [hus] at hus'
      cases hus'
      obtain ⟨rfl, -⟩ := hexp.det hexp'
      rfl
    · rintro rfl
      exact ⟨us, l, ws, hus, hexp, rfl⟩
  rw [rank, hset]
  exact csInf_singleton _

/-- **Some order does not fail**: the one in which a set comes after those it refers
to, so that it enters only these. -/
theorem exists_order_ok (h : ¬ AlwaysFails getName d) :
    ∃ order s', Ranges order d ∧ flattenInOrder getName order d = some ([], s') := by
  classical
  let order := (d.entries.map Prod.fst).insertionSort fun a b =>
    rank getName d a ≤ rank getName d b
  have hord : Ranges order d := perm_insertionSort _ _
  have hsorted : order.Pairwise fun a b => rank getName d a ≤ rank getName d b := by
    have htotal : Std.Total fun a b => rank getName d a ≤ rank getName d b :=
      ⟨fun a b => Nat.le_total _ _⟩
    have htrans : IsTrans String fun a b => rank getName d a ≤ rank getName d b :=
      ⟨fun _ _ _ => Nat.le_trans⟩
    exact pairwise_insertionSort _ _
  have hnone : ∀ x ∈ ([] : List String), Flat getName d d x := fun _ hx => nomatch hx
  refine ⟨order, ?_⟩
  obtain ⟨s', hrun⟩ : ∃ s', flattenInOrder getName order d = some ([], s') := by
    refine flattenInOrder_ok (.refl d) hnone fun before name after heq s' hmixed hflat => ?_
    have hmem : name ∈ order := by
      rw [heq]
      exact mem_append_right _ mem_cons_self
    obtain ⟨us, hus⟩ := isSome_iff_exists.mp (hord.mem_iff.mp hmem)
    obtain ⟨l, ws, hexp⟩ := exists_expands (fun hcycle => h (.inl hcycle)) hus
    -- what the set refers to has a smaller rank, so it comes before
    have hrefs : ∀ r ∈ refs getName d us, r ∈ before := by
      intro r hr
      obtain ⟨us', l', ws', hus', hexp', hlt⟩ := hexp.of_mem_refs hr
      have hrank : rank getName d r < rank getName d name := by
        rw [rank_eq hus hexp, rank_eq hus' hexp']
        exact hlt
      have hr' : r ∈ order := hord.mem_iff.mpr (by rw [hus']; rfl)
      rw [heq] at hr' hsorted
      rcases mem_append.mp hr' with hr' | hr'
      · exact hr'
      · rcases mem_cons.mp hr' with rfl | hr'
        · exact absurd hrank (Nat.lt_irrefl _)
        · have hle := (pairwise_cons.mp (pairwise_append.mp hsorted).2.1).1 r hr'
          omega
    refine hmixed.flattens hus (short_of_not_alwaysFails h hus hexp) fun _ => ?_
    refine ⟨_, hmixed.expands_refs hexp fun r hr => hflat r (hrefs r hr), ?_⟩
    refine nodup_cons.mpr ⟨fun hself => ?_, ?_⟩
    · exact h (.inl ⟨name, .single ⟨us, hus, hself⟩⟩)
    · by_contra htwice
      exact h (.inr (.inl ⟨name, us, hus, htwice⟩))
  exact ⟨s', hord, hrun⟩

/-- If some set occurs twice in an expansion, an order that starts with it fails. -/
theorem exists_order_fails (h : ¬ NoneTwice getName d) :
    ∃ order errs s', Ranges order d ∧ flattenInOrder getName order d = some (errs, s') ∧
      errs ≠ [] := by
  rw [NoneTwice] at h
  push Not at h
  obtain ⟨name, us, l, ws, hus, hexp, htwice⟩ := h
  have hmem : name ∈ d.entries.map Prod.fst := by
    rw [Table.mem_keys_iff, hus]
    exact some_ne_none us
  have hord : Ranges (name :: (d.entries.map Prod.fst).erase name) d :=
    (perm_cons_erase hmem).symm
  obtain ⟨errs, s', hrun, -⟩ := flattenInOrder_ends getName hord
  refine ⟨_, errs, s', hord, hrun, ?_⟩
  rintro rfl
  have hmeets : SetMeets getName d name us ⟨d, []⟩ (flattenFrom getName name d) :=
    flattenFrom_meets hus
  rw [flattenInOrder] at hrun
  generalize flattenFrom getName name d = out at hmeets hrun
  obtain ⟨_ | err | _, st⟩ := out
  · obtain ⟨_, _, l', ws', hflattens, _⟩ := hmeets
    obtain ⟨rfl, -⟩ := hexp.det hflattens.expands
    exact htwice hflattens.nodup
  · obtain ⟨r, -, hr⟩ := map_eq_some_iff.mp hrun
    cases hr
  · cases hrun

end Every

/-! ## Both kinds of flags -/

/-- `flattenFlags`: the integer flags, then the string flags. -/
def flattenFlags (intName : V → String) (strName : W → String) (intOrder strOrder : List String)
    (ints : FlagSets V) (strs : FlagSets W) :
    Option (List FlagError × FlagSets V × FlagSets W) :=
  match flattenInOrder intName intOrder ints, flattenInOrder strName strOrder strs with
  | some (errs, ints'), some (errs', strs') => some (errs ++ errs', ints', strs')
  | _, _ => none

/-- The result does not depend on the order in which the two maps are ranged over. -/
def OrderIndependent (intName : V → String) (strName : W → String) (ints : FlagSets V)
    (strs : FlagSets W) : Prop :=
  ∀ io so io' so', Ranges io ints → Ranges so strs → Ranges io' ints → Ranges so' strs →
    ∃ errs i s errs' i' s',
      flattenFlags intName strName io so ints strs = some (errs, i, s) ∧
      flattenFlags intName strName io' so' ints strs = some (errs', i', s') ∧
      (errs = [] ↔ errs' = []) ∧
      (errs = [] → Expanded intName ints i ∧ Expanded strName strs s ∧
        (∀ name, i.lookup name = i'.lookup name) ∧ ∀ name, s.lookup name = s'.lookup name) ∧
      (Cyclic intName ints ∨ Cyclic strName strs → errs ≠ [])

/-- **Flattening is independent of the order** exactly if it fails in every order, or
no set occurs twice in the expansion of a set. -/
theorem flattenFlags_orderIndependent_iff (intName : V → String) (strName : W → String)
    (ints : FlagSets V) (strs : FlagSets W) :
    OrderIndependent intName strName ints strs ↔
      AlwaysFails intName ints ∨ AlwaysFails strName strs ∨
        NoneTwice intName ints ∧ NoneTwice strName strs := by
  constructor
  · intro h
    by_contra hcond
    push Not at hcond
    obtain ⟨hints, hstrs, htwice⟩ := hcond
    obtain ⟨io, i, hio, hi⟩ := exists_order_ok hints
    obtain ⟨so, s, hso, hs⟩ := exists_order_ok hstrs
    have hok : flattenFlags intName strName io so ints strs = some ([], i, s) := by
      rw [flattenFlags, hi, hs]
      rfl
    by_cases hintTwice : NoneTwice intName ints
    · obtain ⟨so', errs, s', hso', hs', hne⟩ := exists_order_fails (htwice hintTwice)
      have hfail : flattenFlags intName strName io so' ints strs = some ([] ++ errs, i, s') := by
        rw [flattenFlags, hi, hs']
      obtain ⟨e, i₁, s₁, e', i₂, s₂, h₁, h₂, hiff, -⟩ := h io so io so' hio hso hio hso'
      rw [hok] at h₁
      rw [hfail] at h₂
      cases h₁
      cases h₂
      exact hne (by simpa using hiff)
    · obtain ⟨io', errs, i', hio', hi', hne⟩ := exists_order_fails hintTwice
      have hfail : flattenFlags intName strName io' so ints strs = some (errs ++ [], i', s) := by
        rw [flattenFlags, hi', hs]
      obtain ⟨e, i₁, s₁, e', i₂, s₂, h₁, h₂, hiff, -⟩ := h io so io' so hio hso hio' hso
      rw [hok] at h₁
      rw [hfail] at h₂
      cases h₁
      cases h₂
      exact hne (by simpa using hiff)
  · intro hcond io so io' so' hio hso hio' hso'
    obtain ⟨ei, i, hi, hiok⟩ := flattenInOrder_ends intName hio
    obtain ⟨es, s, hs, hsok⟩ := flattenInOrder_ends strName hso
    obtain ⟨ei', i', hi', hiok'⟩ := flattenInOrder_ends intName hio'
    obtain ⟨es', s', hs', hsok'⟩ := flattenInOrder_ends strName hso'
    have hrun : flattenFlags intName strName io so ints strs = some (ei ++ es, i, s) := by
      rw [flattenFlags, hi, hs]
    have hrun' : flattenFlags intName strName io' so' ints strs = some (ei' ++ es', i', s') := by
      rw [flattenFlags, hi', hs']
    have hiff : ei ++ es = [] ↔ ei' ++ es' = [] := by
      rw [append_eq_nil_iff, append_eq_nil_iff]
      rcases hcond with hfail | hfail | ⟨hint, hstr⟩
      · exact ⟨fun hnil => absurd hfail (hiok hnil.1).2, fun hnil => absurd hfail (hiok' hnil.1).2⟩
      · exact ⟨fun hnil => absurd hfail (hsok hnil.2).2, fun hnil => absurd hfail (hsok' hnil.2).2⟩
      · exact and_congr (errs_iff_of_noneTwice hint hio hio' hi hi')
          (errs_iff_of_noneTwice hstr hso hso' hs hs')
    refine ⟨_, i, s, _, i', s', hrun, hrun', hiff, fun hnil => ?_, ?_⟩
    · obtain ⟨hei, hes⟩ := append_eq_nil_iff.mp hnil
      obtain ⟨hei', hes'⟩ := append_eq_nil_iff.mp (hiff.mp hnil)
      exact ⟨(hiok hei).1, (hsok hes).1, (hiok hei).1.lookup_eq (hiok' hei').1,
        (hsok hes).1.lookup_eq (hsok' hes').1⟩
    · rintro hcycle hnil
      obtain ⟨hei, hes⟩ := append_eq_nil_iff.mp hnil
      rcases hcycle with hcycle | hcycle
      · exact (hiok hei).2 (.inl hcycle)
      · exact (hsok hes).2 (.inl hcycle)

/-- `a = b, c`, `b = d`, `c = d` and `d = 1`. -/
def sharedFlags : FlagSets String :=
  ⟨[("a", ["b", "c"]), ("b", ["d"]), ("c", ["d"]), ("d", ["1"])], by decide⟩

/-- **A shared set is an error in one order and none in another one.** -/
theorem flattenFlags_sharedFlags :
    checkFlagsGeneric (fun v : String => v) sharedFlags = [] ∧
    ¬ OrderIndependent (fun v : String => v) (fun v : String => v) sharedFlags
      (Table.empty : FlagSets String) := by
  refine ⟨by decide +kernel, fun h => ?_⟩
  have hdown : Ranges ["a", "b", "c", "d"] sharedFlags := .refl _
  have hup : Ranges ["b", "c", "d", "a"] sharedFlags := by
    rw [Ranges]
    decide
  have hempty : Ranges [] (Table.empty : FlagSets String) := .refl _
  have hfails : (flattenFlags (fun v : String => v) (fun v : String => v) ["a", "b", "c", "d"] []
      sharedFlags (Table.empty : FlagSets String)).map Prod.fst = some [.usedTwice "d"] := by
    decide +kernel
  have hsucceeds : (flattenFlags (fun v : String => v) (fun v : String => v)
      ["b", "c", "d", "a"] [] sharedFlags (Table.empty : FlagSets String)).map Prod.fst =
      some [] := by
    decide +kernel
  obtain ⟨errs, i, s, errs', i', s', h₁, h₂, hiff, -⟩ :=
    h ["a", "b", "c", "d"] [] ["b", "c", "d", "a"] [] hdown hempty hup hempty
  rw [h₁] at hfails
  rw [h₂] at hsucceeds
  cases hfails
  cases hsucceeds
  exact nomatch hiff.mpr rfl

end Sect.Flags
