import SectProof.ProgClone
import SectProof.ValidProgram

/-! # Random async assignment

`AssignRandomAsync` goes over the calls from the last to the first.  It carries the
resources that are consumed since the last call that is not async: a call that
produces one of them has to be synchronous.  It stops when the budget of async
calls is used up, and the calls it has not reached keep the flags they had.
**`assignRandomAsync_sound_iff`** says that this is all that can go wrong.
-/

open List Nat

namespace Sect.Program

def maxAsyncPerProg : Nat := 24

namespace Call

def setAsync (async : Bool) (c : Call) : Call := { c with props := { c.props with async := async } }

/-- The results a call writes to. -/
def produces (cells : Cells) (c : Call) : List Id := c.results.filter fun r => (cells r).dir ≠ .dirIn

/-- The map `consumes` of a call: what its arguments refer to, `none` for nil. -/
def consumes (cells : Cells) (c : Call) : List (Option Id) :=
  (c.results.filter fun r => (cells r).dir ≠ .dirOut).map fun r => (cells r).res

end Call

/-! ## The sweep -/

/-- The variables of the loop; `drawn` random numbers have been used.  The nil map
`unassigned` is replaced at the last call before anything is entered into it. -/
structure AsyncSweep where
  unassigned : List (Option Id) := []
  leftAsync : Nat := maxAsyncPerProg
  drawn : Nat := 0

section Sweep

variable (cells : Cells) (draws : Nat → Fin 3)

/-- The body of the loop; `draws` are the values of `rand.Intn(3)`. -/
def AsyncSweep.assign (last : Bool) (s : AsyncSweep) (c : Call) : AsyncSweep × Call :=
  let producesUnassigned := (c.produces cells).any fun r => some r ∈ s.unassigned
  if producesUnassigned ∨ last then
    ({ s with unassigned := c.consumes cells }, c.setAsync false)
  else if draws s.drawn ≠ 0 then
    ({ unassigned := c.consumes cells ++ s.unassigned, leftAsync := s.leftAsync - 1,
       drawn := s.drawn + 1 }, c.setAsync true)
  else ({ s with unassigned := c.consumes cells, drawn := s.drawn + 1 }, c.setAsync false)

/-- The loop from the last call on. -/
def assignLoop : List Call → AsyncSweep × List Call
  | [] => ({}, [])
  | c :: later =>
    let (s, later') := assignLoop later
    if s.leftAsync = 0 then (s, c :: later')
    else
      let (s, c') := s.assign cells draws later.isEmpty c
      (s, c' :: later')

end Sweep

def assignRandomAsync (s : Store) (p : Prog) (draws : Nat → Fin 3) :
    Except Panic (Prog × Store) := do
  let (prog, s) ← p.clone s
  pure (⟨(assignLoop s.cells draws prog.calls).2⟩, s)

/-! ## What the sweep decides -/

section Decisions

variable (cells : Cells)

/-- A call of `later` consumes `y`, and no call before it is decided to be
synchronous. -/
def Exposed (later : List Call) (flags : List Bool) (y : Id) : Prop :=
  ∃ j < later.length, (∃ c ∈ later[j]?, some y ∈ c.consumes cells) ∧ false ∉ flags.take j

instance (later : List Call) (flags : List Bool) (y : Id) :
    Decidable (Exposed cells later flags y) := by
  unfold Exposed
  infer_instance

/-- The decision about every call, from the last to the first and with no budget,
and the number of random numbers used.  A call is free if it is not the last one
and a synchronous call comes before every consumer of what it produces; a free
call takes the next random number. -/
def decisions (draws : Nat → Fin 3) : List Call → List Bool × Nat
  | [] => ([], 0)
  | c :: later =>
    let (flags, n) := decisions draws later
    if later.isEmpty ∨ ∃ y ∈ c.produces cells, Exposed cells later flags y then (false :: flags, n)
    else ((draws n ≠ 0 : Bool) :: flags, n + 1)

/-- The number of calls that are decided to be async. -/
def decidedAsync (draws : Nat → Fin 3) (calls : List Call) : Nat :=
  (decisions cells draws calls).1.count true

/-- What the loop makes of the calls: those that the budget does not reach keep
their flag. -/
def assigned (draws : Nat → Fin 3) : List Call → List Call
  | [] => []
  | c :: later =>
    (if decidedAsync cells draws later < maxAsyncPerProg then
      c.setAsync ((decisions cells draws (c :: later)).1.headD false)
    else c) :: assigned draws later

variable {cells} {draws : Nat → Fin 3}

theorem exposed_nil (flags : List Bool) (y : Id) : ¬ Exposed cells [] flags y := by
  rintro ⟨j, hj, -⟩
  cases hj

variable {c : Call} {later calls : List Call}

theorem exposed_cons {b : Bool} {flags : List Bool} {y : Id} :
    Exposed cells (c :: later) (b :: flags) y ↔
      some y ∈ c.consumes cells ∨ (b = true ∧ Exposed cells later flags y) := by
  constructor
  · rintro ⟨j, hj, ⟨c', hc', hy⟩, hflags⟩
    cases j with
    | zero =>
      cases hc'
      exact .inl hy
    | succ j =>
      rw [take_succ_cons, mem_cons, not_or] at hflags
      refine .inr ⟨?_, j, lt_of_succ_lt_succ hj, ⟨c', hc', hy⟩, hflags.2⟩
      cases b with
      | true => rfl
      | false => exact absurd rfl hflags.1
  · rintro (hy | ⟨rfl, j, hj, hc', hflags⟩)
    · exact ⟨0, succ_pos _, ⟨c, rfl, hy⟩, by simp⟩
    · refine ⟨j + 1, succ_lt_succ hj, hc', ?_⟩
      rw [take_succ_cons, mem_cons, not_or]
      exact ⟨nofun, hflags⟩

/-- The decision about a call in front of others. -/
theorem decisions_cons (c : Call) (later : List Call) :
    ∃ b, (decisions cells draws (c :: later)).1 = b :: (decisions cells draws later).1 ∧
      (b = true → later ≠ [] ∧
        ∀ y ∈ c.produces cells, ¬ Exposed cells later (decisions cells draws later).1 y) := by
  rw [decisions]
  dsimp only
  split
  · exact ⟨false, rfl, nofun⟩
  rename_i hfree
  rw [not_or] at hfree
  refine ⟨_, rfl, fun _ => ⟨?_, ?_⟩⟩
  · rintro rfl
    exact hfree.1 rfl
  · intro y hy hexp
    exact hfree.2 ⟨y, hy, hexp⟩

/-- **The loop makes the decisions as long as its budget lasts.** -/
theorem assignLoop_spec (calls : List Call) :
    (assignLoop cells draws calls).2 = assigned cells draws calls ∧
      (assignLoop cells draws calls).1.leftAsync =
        maxAsyncPerProg - decidedAsync cells draws calls ∧
      (decidedAsync cells draws calls < maxAsyncPerProg →
        (assignLoop cells draws calls).1.drawn = (decisions cells draws calls).2 ∧
        ∀ y, some y ∈ (assignLoop cells draws calls).1.unassigned ↔
          Exposed cells calls (decisions cells draws calls).1 y) := by
  induction calls with
  | nil =>
    refine ⟨rfl, rfl, fun _ => ⟨rfl, ?_⟩⟩
    intro y
    simp [assignLoop, exposed_nil]
  | cons c later ih =>
    obtain ⟨hcalls, hleft, hmore⟩ := ih
    by_cases hreach : decidedAsync cells draws later < maxAsyncPerProg
    · obtain ⟨hdrawn, hun⟩ := hmore hreach
      have hne : (assignLoop cells draws later).1.leftAsync ≠ 0 := by omega
      have hblocked : ((c.produces cells).any (fun r =>
            some r ∈ (assignLoop cells draws later).1.unassigned) = true ∨ later.isEmpty = true) ↔
          later.isEmpty = true ∨ ∃ y ∈ c.produces cells,
            Exposed cells later (decisions cells draws later).1 y := by
        simp only [any_eq_true, decide_eq_true_eq, hun]
        exact or_comm
      rw [assignLoop, assigned, if_pos hreach]
      dsimp only
      rw [if_neg hne, AsyncSweep.assign, decidedAsync, decisions]
      simp only [hblocked, hdrawn]
      -- the body of the loop and the decision take the same branch
      split
      · refine ⟨by rw [hcalls]; rfl, ?_, fun _ => ⟨rfl, by simp [exposed_cons]⟩⟩
        simpa [decidedAsync] using hleft
      split
      · rename_i hdraw
        simp only [hdraw, ne_eq, not_false_eq_true, decide_true, headD_cons]
        refine ⟨by rw [hcalls], ?_, fun _ => ⟨trivial, ?_⟩⟩
        · rw [hleft, count_cons_self]
          exact Nat.sub_sub _ _ _
        · intro y
          rw [exposed_cons, mem_append, hun]
          simp
      · rename_i hdraw
        simp only [hdraw, decide_false, headD_cons]
        refine ⟨by rw [hcalls], ?_, fun _ => ⟨trivial, by simp [exposed_cons]⟩⟩
        simpa [decidedAsync] using hleft
    · have hzero : (assignLoop cells draws later).1.leftAsync = 0 := by omega
      obtain ⟨b, hb, -⟩ := @decisions_cons cells draws c later
      have hmono : decidedAsync cells draws later ≤ decidedAsync cells draws (c :: later) := by
        unfold decidedAsync
        rw [hb]
        exact count_le_count_cons
      rw [assignLoop, assigned, if_neg hreach]
      dsimp only
      rw [if_pos hzero]
      refine ⟨by rw [hcalls], ?_, fun hlt => absurd (lt_of_le_of_lt hmono hlt) hreach⟩
      rw [hzero]
      omega

/-! ## What it guarantees -/

variable (cells) in
/-- The last call is not async, the budget is kept, and a call that is not async
comes between an async producer and every consumer. -/
structure AsyncSound (calls : List Call) : Prop where
  last : ∀ c, calls.getLast? = some c → c.props.async = false
  budget : calls.countP (·.props.async) ≤ maxAsyncPerProg
  separated : ∀ before c between d after, calls = before ++ c :: (between ++ d :: after) →
    c.props.async = true → (∃ y ∈ c.produces cells, some y ∈ d.consumes cells) →
    ∃ e ∈ between, e.props.async = false

variable (cells draws) in
/-- The budget reaches every call that is already async. -/
def Reached (calls : List Call) : Prop :=
  ∀ i < calls.length, ∀ c ∈ calls[i]?, c.props.async = true →
    decidedAsync cells draws (calls.drop (i + 1)) < maxAsyncPerProg

instance (calls : List Call) : Decidable (Reached cells draws calls) := by
  unfold Reached
  infer_instance

theorem reached_cons :
    Reached cells draws (c :: later) ↔
    (c.props.async = true → decidedAsync cells draws later < maxAsyncPerProg) ∧
      Reached cells draws later := by
  constructor
  · intro h
    refine ⟨h 0 (succ_pos _) c rfl, ?_⟩
    intro i hi c' hc'
    exact h (i + 1) (succ_lt_succ hi) c' hc'
  · rintro ⟨hhead, htail⟩ i hi c' hc'
    cases i with
    | zero =>
      cases hc'
      exact hhead
    | succ i => exact htail i (lt_of_succ_lt_succ hi) c' hc'

theorem decidedAsync_cons (c : Call) (later : List Call) :
    decidedAsync cells draws (c :: later) = decidedAsync cells draws later +
      if (decisions cells draws (c :: later)).1.headD false = true then 1 else 0 := by
  obtain ⟨b, hb, -⟩ := @decisions_cons cells draws c later
  unfold decidedAsync
  rw [hb, count_cons, headD_cons]
  cases b <;> rfl

theorem decidedAsync_cons_le (c : Call) (later : List Call) :
    decidedAsync cells draws (c :: later) ≤ decidedAsync cells draws later + 1 := by
  rw [decidedAsync_cons]
  split
  · exact le_refl _
  · exact le_add_right _ _

/-- Every call that the budget pays for is async. -/
theorem min_le_countP_assigned (calls : List Call) :
    min maxAsyncPerProg (decidedAsync cells draws calls) ≤
      (assigned cells draws calls).countP (·.props.async) := by
  induction calls with
  | nil => exact min_le_right _ _
  | cons c later ih =>
    have hcons := @decidedAsync_cons cells draws c later
    rw [assigned, countP_cons]
    split
    · rename_i hreach
      have hflag : (c.setAsync ((decisions cells draws (c :: later)).1.headD false)).props.async =
          (decisions cells draws (c :: later)).1.headD false := rfl
      rw [hflag]
      omega
    · omega

/-- If no async call is left unreached, no other call is async. -/
theorem countP_assigned_le (h : Reached cells draws calls) :
    (assigned cells draws calls).countP (·.props.async) ≤
      min maxAsyncPerProg (decidedAsync cells draws calls) := by
  induction calls with
  | nil => exact zero_le _
  | cons c later ih =>
    obtain ⟨hhead, htail⟩ := reached_cons.mp h
    have hle := ih htail
    have hcons := @decidedAsync_cons cells draws c later
    have hone := @decidedAsync_cons_le cells draws c later
    rw [assigned, countP_cons]
    split
    · have hflag : (c.setAsync ((decisions cells draws (c :: later)).1.headD false)).props.async =
          (decisions cells draws (c :: later)).1.headD false := rfl
      rw [hflag]
      omega
    · rename_i hreach
      have hsync : c.props.async ≠ true := fun ha => hreach (hhead ha)
      rw [if_neg hsync]
      omega

/-- As long as the budget lasts, the flags are the decisions. -/
theorem flags_assigned (h : decidedAsync cells draws calls < maxAsyncPerProg) :
    (assigned cells draws calls).map (·.props.async) = (decisions cells draws calls).1 := by
  induction calls with
  | nil => rfl
  | cons c later ih =>
    obtain ⟨b, hb, -⟩ := @decisions_cons cells draws c later
    have hlater : decidedAsync cells draws later < maxAsyncPerProg := by
      have := @decidedAsync_cons cells draws c later
      omega
    rw [assigned, if_pos hlater, map_cons, ih hlater, hb]
    rfl

/-- Only the flags change. -/
theorem sync_assigned (calls : List Call) :
    (assigned cells draws calls).map (Call.setAsync false) = calls.map (Call.setAsync false) := by
  induction calls with
  | nil => rfl
  | cons c later ih =>
    rw [assigned, map_cons, map_cons, ih]
    split <;> rfl

theorem consumes_of_sync {d : Call} (h : c.setAsync false = d.setAsync false) :
    c.consumes cells = d.consumes cells := by
  have hc : (c.setAsync false).consumes cells = c.consumes cells := rfl
  rw [← hc, h]
  rfl

/-- A call that is async because it was decided to be is separated from the
consumers of what it produces. -/
theorem separated_of_not_exposed {between after : List Call} {d : Call} {y : Id}
    (hreach : decidedAsync cells draws later < maxAsyncPerProg)
    (heq : assigned cells draws later = between ++ d :: after) (hy : some y ∈ d.consumes cells)
    (hfree : ¬ Exposed cells later (decisions cells draws later).1 y) :
    ∃ e ∈ between, e.props.async = false := by
  by_contra hall
  refine hfree ⟨between.length, ?_, ?_, ?_⟩
  · have hlen := congrArg List.length (@sync_assigned cells draws later)
    rw [heq] at hlen
    simp only [length_map, length_append, length_cons] at hlen
    omega
  · have hget := congrArg (·[between.length]?) (@sync_assigned cells draws later)
    simp only [heq, getElem?_map, getElem?_append_right (le_refl _), Nat.sub_self,
      getElem?_cons_zero, Option.map_some] at hget
    obtain ⟨c', hc', hsame⟩ := Option.map_eq_some_iff.mp hget.symm
    exact ⟨c', hc', consumes_of_sync hsame ▸ hy⟩
  · rw [← flags_assigned hreach, heq, map_append, take_left' (length_map _)]
    intro hmem
    obtain ⟨e, he, hasync⟩ := mem_map.mp hmem
    exact hall ⟨e, he, hasync⟩

theorem separated_assigned (h : Reached cells draws calls) :
    ∀ before c between d after,
      assigned cells draws calls = before ++ c :: (between ++ d :: after) →
      c.props.async = true → (∃ y ∈ c.produces cells, some y ∈ d.consumes cells) →
      ∃ e ∈ between, e.props.async = false := by
  induction calls with
  | nil =>
    intro before c between d after heq
    simp [assigned] at heq
  | cons c₀ later ih =>
    intro before c between d after heq hasync hy
    obtain ⟨hhead, htail⟩ := reached_cons.mp h
    cases before with
    | cons b before =>
      exact ih htail before c between d after (List.cons.inj heq).2 hasync hy
    | nil =>
      obtain ⟨hc, hlater⟩ := List.cons.inj heq
      by_cases hreach : decidedAsync cells draws later < maxAsyncPerProg
      · rw [if_pos hreach] at hc
        obtain ⟨b, hb, hfree⟩ := @decisions_cons cells draws c₀ later
        rw [hb, headD_cons] at hc
        subst hc
        obtain ⟨y, hprod, hcons⟩ := hy
        exact separated_of_not_exposed hreach hlater hcons ((hfree hasync).2 y hprod)
      · rw [if_neg hreach] at hc
        subst hc
        exact absurd (hhead hasync) hreach

theorem last_assigned (calls : List Call) :
    ∀ c, (assigned cells draws calls).getLast? = some c → c.props.async = false := by
  induction calls with
  | nil =>
    intro c hc
    cases hc
  | cons c₀ later ih =>
    intro c hc
    cases later with
    | nil =>
      cases hc
      rfl
    | cons c₁ later =>
      rw [assigned] at hc
      refine ih c ?_
      rwa [assigned, getLast?_cons_cons] at hc

/-- **The sweep is sound exactly if the budget reaches every async call.** -/
theorem assigned_sound_iff :
    AsyncSound cells (assigned cells draws calls) ↔ Reached cells draws calls := by
  constructor
  · intro hsound
    have hbudget := hsound.budget
    clear hsound
    -- an unreached async call comes on top of a budget that is used up
    induction calls with
    | nil =>
      intro i hi
      cases hi
    | cons c later ih =>
      have hmin := @min_le_countP_assigned cells draws later
      rw [assigned, countP_cons] at hbudget
      refine reached_cons.mpr ⟨?_, ih (le_trans (le_add_right _ _) hbudget)⟩
      intro hasync
      by_contra hreach
      rw [if_neg hreach, if_pos hasync] at hbudget
      omega
  · intro h
    exact ⟨last_assigned calls, (countP_assigned_le h).trans (min_le_left _ _),
      separated_assigned h⟩

end Decisions

/-! ## The copy -/

section Copy

variable {cells cells' : Cells} {f : Id → Id}

/-- The copies of the results of a call have the directions and references of the
originals. -/
def Call.SameLinks (cells cells' : Cells) (f : Id → Id) (c : Call) : Prop :=
  ∀ r ∈ c.results, (cells' (f r)).dir = (cells r).dir ∧
    (cells' (f r)).res = (cells r).res.map f

theorem Call.results_rename (c : Call) : (c.rename f).results = c.results.map f := by
  unfold Call.results Call.argResults Call.rename
  rw [map_append, toList_map, flatMap_map_congr fun a _ => a.results_rename f]

variable {c : Call} {calls : List Call}

theorem Call.SameLinks.produces (h : c.SameLinks cells cells' f) :
    (c.rename f).produces cells' = (c.produces cells).map f := by
  unfold Call.produces
  rw [Call.results_rename, filter_map]
  refine congrArg (List.map f) (filter_congr fun r hr => ?_)
  rw [Function.comp_apply, (h r hr).1]

theorem Call.SameLinks.consumes (h : c.SameLinks cells cells' f) :
    (c.rename f).consumes cells' = (c.consumes cells).map (Option.map f) := by
  unfold Call.consumes
  rw [Call.results_rename, filter_map, map_map, map_map]
  have hfilter : c.results.filter ((fun r => decide ((cells' r).dir ≠ .dirOut)) ∘ f) =
      c.results.filter fun r => (cells r).dir ≠ .dirOut :=
    filter_congr fun r hr => by rw [Function.comp_apply, (h r hr).1]
  rw [hfilter]
  refine map_congr_left fun r hr => ?_
  exact (h r (mem_of_mem_filter hr)).2

variable {draws : Nat → Fin 3}

theorem exposed_rename (hf : Function.Injective f) {later : List Call}
    (h : ∀ c ∈ later, c.SameLinks cells cells' f) (flags : List Bool) (y : Id) :
    Exposed cells' (later.map (Call.rename f)) flags (f y) ↔ Exposed cells later flags y := by
  refine exists_congr fun j => ?_
  rw [length_map, getElem?_map]
  refine and_congr_right fun _ => and_congr_left fun _ => ?_
  cases hj : later[j]? with
  | none => simp
  | some c =>
    have hc := h c (mem_of_getElem? hj)
    have hmem : Option.map f (some y) ∈ (c.consumes cells).map (Option.map f) ↔
        some y ∈ c.consumes cells := mem_map_of_injective (Option.map_injective hf)
    rw [Option.map_some] at hmem
    simp [hc.consumes, hmem]

theorem decisions_rename (hf : Function.Injective f) (h : ∀ c ∈ calls, c.SameLinks cells cells' f) :
    decisions cells' draws (calls.map (Call.rename f)) = decisions cells draws calls := by
  induction calls with
  | nil => rfl
  | cons c later ih =>
    rw [forall_mem_cons] at h
    rw [map_cons, decisions, decisions, ih h.2, h.1.produces]
    have hexists : (∃ y ∈ (c.produces cells).map f,
          Exposed cells' (later.map (Call.rename f)) (decisions cells draws later).1 y) ↔
        ∃ y ∈ c.produces cells, Exposed cells later (decisions cells draws later).1 y := by
      simp only [mem_map, exists_exists_and_eq_and, exposed_rename hf h.2]
    simp only [isEmpty_map, hexists]

theorem reached_rename (hf : Function.Injective f) (h : ∀ c ∈ calls, c.SameLinks cells cells' f) :
    Reached cells' draws (calls.map (Call.rename f)) ↔ Reached cells draws calls := by
  induction calls with
  | nil => exact .rfl
  | cons c later ih =>
    rw [forall_mem_cons] at h
    rw [map_cons, reached_cons, reached_cons, ih h.2, decidedAsync, decidedAsync,
      decisions_rename hf h.2]
    rfl

end Copy

/-! ## The transformation -/

/-- `q` is a copy of `p` except for the async flags, and `p` has not changed. -/
structure CopiedButAsync (s : Store) (p : Prog) (s' : Store) (q : Prog) : Prop where
  calls : q.calls.map (Call.setAsync false) =
    (p.rename (s.next + ·)).calls.map (Call.setAsync false)
  contents : ∀ a ∈ p.validated, { s'.cells (s.next + a) with uses := [] } =
    { s.cells a with res := (s.cells.res a).map (s.next + ·), uses := [] }
  uses : ∀ a ∈ p.validated, ∀ z, z ∈ s'.cells.uses (s.next + a) ↔
    ∃ x ∈ s.cells.uses a, z = s.next + x
  unchanged : ∀ i < s.next, s'.cells i = s.cells i

/-- What `AssignRandomAsync` is to return. -/
def AsyncAssigned (s : Store) (p : Prog) (result : Except Panic (Prog × Store)) : Prop :=
  ∃ q s', result = .ok (q, s') ∧ CopiedButAsync s p s' q ∧ AsyncSound s'.cells q.calls

theorem AsyncAssigned.of_ok {s s' : Store} {p q : Prog} {result : Except Panic (Prog × Store)}
    (h : AsyncAssigned s p result) (hok : result = .ok (q, s')) : AsyncSound s'.cells q.calls := by
  obtain ⟨q', s'', hok', -, hsound⟩ := h
  rw [hok] at hok'
  cases hok'
  exact hsound

/-- **`AssignRandomAsync` keeps its promise exactly if no result refers to itself
and the budget reaches every call that is already async.** -/
theorem assignRandomAsync_sound_iff (target : Target) (s : Store) (p : Prog)
    (draws : Nat → Fin 3) (hvalid : p.validate target s.cells = .ok ())
    (hlive : ∀ i ∈ p.ids, i < s.next) :
    AsyncAssigned s p (assignRandomAsync s p draws) ↔
      p.NoSelfReference s.cells ∧ Reached s.cells draws p.calls := by
  obtain ⟨-, htree, -⟩ := validateWithOpts_eq_ok.mp hvalid
  by_cases hself : p.NoSelfReference s.cells
  · have hlinked := Prog.wellLinked_of_validate hvalid hlive hself
    obtain ⟨s', hok, hlinked', -, hold, hcopy⟩ := hlinked.clone
    have hres : ∀ a ∈ p.validated,
        s'.cells.res (s.next + a) = (s.cells.res a).map (s.next + ·) :=
      fun a ha => congrArg ResultArg.res (hcopy a ha)
    have hassign : assignRandomAsync s p draws =
        .ok (⟨(assignLoop s'.cells draws (p.rename (s.next + ·)).calls).2⟩, s') := by
      unfold assignRandomAsync
      rw [hok]
      rfl
    have hsame : ∀ c ∈ p.calls, c.SameLinks s.cells s'.cells (s.next + ·) := by
      intro c hc r hr
      have hr' : r ∈ p.validated :=
        mem_flatMap.mpr ⟨c, hc, c.results_perm.mem_iff.mp hr⟩
      exact ⟨congrArg (fun x => x.dir) (hcopy r hr'), hres r hr'⟩
    have hreached : Reached s'.cells draws (p.rename (s.next + ·)).calls ↔
        Reached s.cells draws p.calls :=
      reached_rename (fun x y hxy => add_left_cancel hxy) hsame
    rw [(assignLoop_spec _).1] at hassign
    rw [← hreached, ← assigned_sound_iff]
    constructor
    · intro h
      exact ⟨hself, h.of_ok hassign⟩
    · rintro ⟨-, hsound⟩
      refine ⟨_, s', hassign, ⟨sync_assigned _, hcopy, ?_, hold⟩, hsound⟩
      intro a ha z
      exact hlinked.uses_copy hlinked' hres ha z
  · refine iff_of_false ?_ fun h => hself h.1
    rintro ⟨q, s', hok, -⟩
    unfold assignRandomAsync at hok
    rw [ErrorChecks.bind_eq_ok] at hok
    obtain ⟨out, hclone, -⟩ := hok
    exact hself (Prog.res_ne_self_of_clone (p.validated_sublist_ids.nodup htree) hlive hclone)

namespace AsyncSample

def target : Target where
  types := fun _ => .int { typeName := "int", typeSize := 4 }
  any := ⟨1, 2, 3⟩
  pageSize := 4096
  numPages := 1
  specialPointers := [0]
  escapingFilename := fun _ => false

def getpid : Call where
  syscall := { id := 0, name := "getpid", args := [], ret := none }
  args := []
  ret := none

/-- One call that is already async in front of `n` calls that are not. -/
def prog (n : Nat) : Prog := ⟨getpid.setAsync true :: List.replicate n getpid⟩

def store : Store := ⟨fun _ => { ref := 0, dir := .dirIn }, 0⟩

end AsyncSample

/-- Three calls. -/
theorem assignRandomAsync_sound_three :
    (AsyncSample.prog 2).validate AsyncSample.target AsyncSample.store.cells = .ok () ∧
      AsyncAssigned AsyncSample.store (AsyncSample.prog 2)
        (assignRandomAsync AsyncSample.store (AsyncSample.prog 2) fun _ => 1) :=
  ⟨rfl, (assignRandomAsync_sound_iff AsyncSample.target AsyncSample.store (AsyncSample.prog 2)
    (fun _ => 1) rfl (by decide)).mpr ⟨by decide, by decide⟩⟩

/-- **Twenty-five async calls**: the budget is used up before the first call. -/
theorem assignRandomAsync_over_budget :
    (AsyncSample.prog 25).validate AsyncSample.target AsyncSample.store.cells = .ok () ∧
      ¬ AsyncAssigned AsyncSample.store (AsyncSample.prog 25)
        (assignRandomAsync AsyncSample.store (AsyncSample.prog 25) fun _ => 1) := by
  refine ⟨rfl, fun h => ?_⟩
  have hbudget := (h.of_ok rfl).budget
  revert hbudget
  decide +kernel

end Sect.Program
