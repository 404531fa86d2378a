import SectProof.StepRuns

/-! # Chunk-wise bisection of a slice

`minimize.Slice` drops from a slice what a predicate does not need.  It splits the
slice into chunks, runs the predicate without each of them, keeps those that turn
out to be necessary and halves them, layer by layer, until every chunk is a single
element.  The last half of a necessary chunk whose other half was dropped is kept
without a run. -/

open List

namespace Sect.Minimize

variable {T ε : Type}

/-! ## The code -/

/-- `MaxSteps` and `MaxChunks` are limits if they are positive. -/
structure Config (T ε : Type) where
  pred : List T → Except ε Bool
  maxSteps : Int
  maxChunks : Int

structure ArrayChunk (T : Type) where
  elements : List T
  final : Bool
  deriving DecidableEq, Repr

/-- The count of predicate runs, and what the predicate was run on. -/
structure Runs (T : Type) where
  predRuns : Nat
  calls : List (List T)
  deriving DecidableEq, Repr

inductive Error (ε : Type)
  | pred (e : ε)
  | tooManyChunks
  deriving DecidableEq, Repr

def mergeChunks (before : List (ArrayChunk T)) (mid : List T) (after : List (ArrayChunk T)) :
    List T :=
  before.flatMap ArrayChunk.elements ++ mid ++ after.flatMap ArrayChunk.elements

def mergeRawChunks (chunks : List (List T)) : List T := chunks.flatten

/-- Cut off pieces of the given size; a slice has at most as many as elements. -/
def cut (size : Nat) : Nat → List T → List (List T)
  | 0, _ => []
  | _, [] => []
  | fuel + 1, chunk => chunk.take size :: cut size fuel (chunk.drop size)

def splitChunk (chunk : List T) (parts : Nat) : List (List T) :=
  cut (max 1 ((chunk.length + parts - 1) / parts)) chunk.length chunk

/-- The limit on predicate runs is reached. -/
def limitReached (cfg : Config T ε) (st : Runs T) : Bool :=
  cfg.maxSteps > 0 && (st.predRuns : Int) ≥ cfg.maxSteps

/-- Determines whether (before + mid + after) covers the necessary elements. -/
def predRun (cfg : Config T ε) (before : List (ArrayChunk T)) (mid : List T)
    (after : List (ArrayChunk T)) (st : Runs T) : Except ε Bool × Runs T :=
  if limitReached cfg st then (.ok false, st)
  else (cfg.pred (mergeChunks before mid after),
    ⟨st.predRuns + 1, st.calls ++ [mergeChunks before mid after]⟩)

/-- The loop over the parts of one chunk: a part is dropped if the predicate holds
without it.  The last part is not tested if something of the chunk is needed and
nothing was found. -/
def testParts (cfg : Config T ε) (someNeeded : Bool) (after : List (ArrayChunk T)) :
    Bool → List (ArrayChunk T) → List (List T) → Runs T →
      Except ε (List (ArrayChunk T)) × Runs T
  | _, newChunks, [], st => (.ok newChunks, st)
  | foundNeeded, newChunks, part :: rest, st =>
    if !rest.isEmpty || foundNeeded || !someNeeded then
      match predRun cfg newChunks (mergeRawChunks rest) after st with
      | (.error e, st) => (.error e, st)
      | (.ok true, st) => testParts cfg someNeeded after foundNeeded newChunks rest st
      | (.ok false, st) =>
        testParts cfg someNeeded after true (newChunks ++ [⟨part, false⟩]) rest st
    else testParts cfg someNeeded after true (newChunks ++ [⟨part, false⟩]) rest st

/-- The loop over the chunks. -/
def splitLoop (cfg : Config T ε) (someNeeded : Bool) (splitInto : Nat) :
    List (ArrayChunk T) → List (ArrayChunk T) → Runs T → Except ε (List (ArrayChunk T)) × Runs T
  | newChunks, [], st => (.ok newChunks, st)
  | newChunks, chunk :: rest, st =>
    if chunk.final then splitLoop cfg someNeeded splitInto (newChunks ++ [chunk]) rest st
    else if (splitChunk chunk.elements splitInto).length = 1 ∧ someNeeded then
      splitLoop cfg someNeeded splitInto (newChunks ++ [{ chunk with final := true }]) rest st
    else
      match testParts cfg someNeeded rest false newChunks (splitChunk chunk.elements splitInto)
          st with
      | (.error e, st) => (.error e, st)
      | (.ok newChunks, st) => splitLoop cfg someNeeded splitInto newChunks rest st

section Bisect
-- `math.Log2(float64(size)) > float64(MaxSteps)`, however it rounds
variable (log2Exceeds : Nat → Int → Bool)

/-- With few steps and many elements, split into as many chunks as there are steps. -/
def initialSplit (cfg : Config T ε) (size : Nat) : Nat :=
  if cfg.maxSteps > 0 && log2Exceeds size cfg.maxSteps then cfg.maxSteps.toNat else 3

/-- Split each chunk and only leave the necessary sub-parts. -/
def splitChunks (cfg : Config T ε) (someNeeded : Bool) (chunks : List (ArrayChunk T))
    (st : Runs T) : Except ε (List (ArrayChunk T)) × Runs T :=
  match someNeeded, chunks with
  | false, [chunk] =>
    splitLoop cfg false (initialSplit log2Exceeds cfg chunk.elements.length) [] [chunk] st
  | _, _ => splitLoop cfg someNeeded 2 [] chunks st

/-- The bisection is done once every chunk is final, or no runs are left. -/
def done (cfg : Config T ε) (chunks : List (ArrayChunk T)) (st : Runs T) : Bool :=
  limitReached cfg st || chunks.all ArrayChunk.final

/-- The rounds after the first; `none` if the fuel does not suffice. -/
def bisectLoop (cfg : Config T ε) : Nat → List (ArrayChunk T) → Runs T →
    Option (List T × Option (Error ε) × Runs T)
  | 0, _, _ => none
  | fuel + 1, chunks, st =>
    if done cfg chunks st then some (mergeChunks chunks [] [], none, st)
    else if cfg.maxChunks > 0 ∧ (chunks.length : Int) > cfg.maxChunks then
      some (mergeChunks chunks [] [], some .tooManyChunks, st)
    else
      match splitChunks log2Exceeds cfg true chunks st with
      | (.error e, st) => some ([], some (.pred e), st)
      | (.ok chunks, st) => bisectLoop cfg fuel chunks st

/-- The result and the error, if any, with the predicate runs made. -/
def slice (cfg : Config T ε) (elements : List T) :
    Option (List T × Option (Error ε) × Runs T) :=
  match splitChunks log2Exceeds cfg false [⟨elements, false⟩] ⟨0, []⟩ with
  | (.error e, st) => some ([], some (.pred e), st)
  | (.ok chunks, st) => bisectLoop log2Exceeds cfg (2 * elements.length + 1) chunks st

end Bisect

/-! ## Cutting -/

section Cut
variable {size : Nat}

variable {fuel : Nat} {l part : List T}

theorem flatten_cut (hsize : 1 ≤ size) (hfuel : l.length ≤ fuel) :
    (cut size fuel l).flatten = l := by
  induction fuel generalizing l with
  | zero => rw [length_eq_zero_iff.mp (Nat.le_zero.mp hfuel)]; rfl
  | succ fuel ih =>
    cases l with
    | nil => rfl
    | cons a l =>
      have hdrop : ((a :: l).drop size).length ≤ fuel := by
        rw [length_drop]
        omega
      rw [cut, flatten_cons, ih hdrop, take_append_drop]
      exact cons_ne_nil a l

theorem ne_nil_of_mem_cut (hsize : 1 ≤ size) (h : part ∈ cut size fuel l) : part ≠ [] := by
  induction fuel generalizing l with
  | zero => cases h
  | succ fuel ih =>
    cases l with
    | nil => cases h
    | cons a l =>
      rw [cut] at h
      · rcases mem_cons.mp h with rfl | h
        · simp
          omega
        · exact ih h
      · exact cons_ne_nil a l

variable (chunk : List T) (parts : Nat)

@[simp] theorem flatten_splitChunk : (splitChunk chunk parts).flatten = chunk :=
  flatten_cut (Nat.le_max_left ..) (Nat.le_refl _)

theorem ne_nil_of_mem_splitChunk (h : part ∈ splitChunk chunk parts) : part ≠ [] :=
  ne_nil_of_mem_cut (Nat.le_max_left ..) h

/-- Only a single element cannot be halved. -/
theorem length_of_splitChunk_two (h : (splitChunk chunk 2).length = 1) : chunk.length = 1 := by
  obtain ⟨part, hpart⟩ := length_eq_one_iff.mp h
  have hflat := flatten_splitChunk chunk 2
  have hmem : part ∈ splitChunk chunk 2 := by rw [hpart]; exact mem_singleton_self part
  have hne := ne_nil_of_mem_splitChunk chunk 2 hmem
  cases chunk with
  | nil => cases hpart
  | cons a l =>
    rw [hpart, flatten_singleton] at hflat
    rw [splitChunk, length_cons, cut] at hpart
    · have htake := (List.cons.inj hpart).1
      have hlen := congrArg List.length htake
      rw [hflat, length_take] at hlen
      rw [length_cons] at hlen ⊢
      omega
    · exact cons_ne_nil a l

end Cut

/-! ## What every run keeps -/

/-- The runs are counted, and within the limit if there is one. -/
structure Runs.Within (cfg : Config T ε) (st : Runs T) : Prop where
  counted : st.calls.length = st.predRuns
  limited : cfg.maxSteps > 0 → (st.predRuns : Int) ≤ cfg.maxSteps

/-- The elements of chunks. -/
def elementsOf (chunks : List (ArrayChunk T)) : List T := chunks.flatMap ArrayChunk.elements

@[simp] theorem elementsOf_nil : elementsOf ([] : List (ArrayChunk T)) = [] := rfl

@[simp] theorem elementsOf_append (a b : List (ArrayChunk T)) :
    elementsOf (a ++ b) = elementsOf a ++ elementsOf b := flatMap_append

@[simp] theorem elementsOf_cons (c : ArrayChunk T) (cs : List (ArrayChunk T)) :
    elementsOf (c :: cs) = c.elements ++ elementsOf cs := flatMap_cons

theorem mergeChunks_eq (before : List (ArrayChunk T)) (mid : List T)
    (after : List (ArrayChunk T)) :
    mergeChunks before mid after = elementsOf before ++ mid ++ elementsOf after := rfl

section Limits
variable {cfg : Config T ε} {st : Runs T}

theorem Runs.Within.predRun (h : st.Within cfg) (before : List (ArrayChunk T)) (mid : List T)
    (after : List (ArrayChunk T)) : (predRun cfg before mid after st).2.Within cfg := by
  rw [Minimize.predRun]
  split
  · exact h
  next hlimit =>
    refine ⟨?_, fun hpos => ?_⟩
    · rw [length_append, h.counted]
      rfl
    · rw [limitReached, Bool.and_eq_true, decide_eq_true_eq, decide_eq_true_eq] at hlimit
      show ((st.predRuns + 1 : Nat) : Int) ≤ _
      omega

theorem Runs.Within.testParts (someNeeded : Bool) (after : List (ArrayChunk T)) (found : Bool)
    (newChunks : List (ArrayChunk T)) (parts : List (List T)) (h : st.Within cfg) :
    (testParts cfg someNeeded after found newChunks parts st).2.Within cfg := by
  induction parts generalizing found newChunks st with
  | nil => exact h
  | cons part rest ih =>
    rw [Minimize.testParts]
    split
    · have hrun := h.predRun newChunks (mergeRawChunks rest) after
      generalize Minimize.predRun cfg newChunks (mergeRawChunks rest) after st = r at *
      obtain ⟨_ | b, st'⟩ := r
      · exact hrun
      · cases b with
        | true | false => exact ih _ _ hrun
    · exact ih _ _ h

theorem Runs.Within.splitLoop (someNeeded : Bool) (splitInto : Nat)
    (newChunks chunks : List (ArrayChunk T)) (h : st.Within cfg) :
    (splitLoop cfg someNeeded splitInto newChunks chunks st).2.Within cfg := by
  induction chunks generalizing newChunks st with
  | nil => exact h
  | cons chunk rest ih =>
    rw [Minimize.splitLoop]
    split
    · exact ih _ h
    split
    · exact ih _ h
    have htest := h.testParts someNeeded rest false newChunks
      (splitChunk chunk.elements splitInto)
    generalize Minimize.testParts cfg someNeeded rest false newChunks
      (splitChunk chunk.elements splitInto) st = r at *
    obtain ⟨_ | new, st'⟩ := r
    · exact htest
    · exact ih _ htest

end Limits

/-! ## Dropping chunks -/

section Sound
variable {cfg : Config T ε} {st : Runs T}

variable {after newChunks new' : List (ArrayChunk T)} {st' : Runs T} {someNeeded : Bool}

/-- A run of the predicate that answers. -/
theorem predRun_ok {before : List (ArrayChunk T)} {mid : List T} {b : Bool}
    (h : predRun cfg before mid after st = (.ok b, st')) :
    (b = true → cfg.pred (elementsOf before ++ mid ++ elementsOf after) = .ok true) ∧
      (cfg.maxSteps ≤ 0 → b = false →
        cfg.pred (elementsOf before ++ mid ++ elementsOf after) = .ok false) := by
  rw [predRun] at h
  split at h
  · next hlimit =>
      obtain ⟨hb, -⟩ := Prod.mk.inj h
      rw [limitReached, Bool.and_eq_true, decide_eq_true_eq] at hlimit
      obtain rfl := Except.ok.inj hb
      exact ⟨fun hb => (nomatch hb), fun hno => absurd hlimit.1 (by omega)⟩
  · obtain ⟨hb, -⟩ := Prod.mk.inj h
    exact ⟨fun htrue => htrue ▸ hb, fun _ hfalse => hfalse ▸ hb⟩

variable {found : Bool} {parts : List (List T)}

/-- **The rule of the loop over the parts**: what holds before it and is kept by a part that
is dropped and by one that is kept holds when no parts are left. -/
theorem testParts_rule {I : Bool → List (ArrayChunk T) → List (List T) → Prop}
    (hdrop : ∀ {found new part rest}, I found new (part :: rest) →
      cfg.pred (elementsOf new ++ rest.flatten ++ elementsOf after) = .ok true → I found new rest)
    (hkeep : ∀ {found new part rest}, I found new (part :: rest) →
      (cfg.maxSteps ≤ 0 →
        cfg.pred (elementsOf new ++ rest.flatten ++ elementsOf after) = .ok false) ∨
        rest = [] ∧ found = false ∧ someNeeded = true → I true (new ++ [⟨part, false⟩]) rest)
    (hstart : I found newChunks parts)
    (h : testParts cfg someNeeded after found newChunks parts st = (.ok new', st')) :
    ∃ found', I found' new' [] := by
  induction parts generalizing found newChunks st with
  | nil =>
    obtain ⟨hnew, -⟩ := Prod.mk.inj h
    exact ⟨found, Except.ok.inj hnew ▸ hstart⟩
  | cons part rest ih =>
    rw [testParts] at h
    split at h
    · split at h
      · cases (Prod.mk.inj h).1
      · next hrun => exact ih (hdrop hstart ((predRun_ok hrun).1 rfl)) h
      · next hrun => exact ih (hkeep hstart (.inl fun hmax => (predRun_ok hrun).2 hmax rfl)) h
    · next hlast =>
        simp only [Bool.or_eq_true, Bool.not_eq_true', not_or, Bool.not_eq_false,
          List.isEmpty_iff, Bool.not_eq_true] at hlast
        exact ih (hkeep hstart (.inr ⟨hlast.1.1, hlast.1.2, hlast.2⟩)) h

/-- What the loop over the parts of a chunk leaves: some of the parts, in order. -/
theorem testParts_kept
    (h : testParts cfg someNeeded after found newChunks parts st = (.ok new', st')) :
    ∃ kept : List (List T), new' = newChunks ++ kept.map (ArrayChunk.mk · false) ∧
      kept.Sublist parts := by
  obtain ⟨_, kept, hnew, hsub⟩ := testParts_rule (I := fun _ new rest => ∃ kept : List (List T),
      new = newChunks ++ kept.map (.mk · false) ∧ (kept ++ rest).Sublist parts)
    (fun ⟨kept, hnew, hsub⟩ _ =>
      ⟨kept, hnew, ((sublist_cons_self _ _).append_left kept).trans hsub⟩)
    (fun {_ _ part _} ⟨kept, hnew, hsub⟩ _ =>
      ⟨kept ++ [part], by simp [hnew], by simpa using hsub⟩) ⟨[], by simp, .refl _⟩ h
  exact ⟨kept, hnew, by rwa [append_nil] at hsub⟩

/-- The predicate stays true: a part is dropped only if it is true without it. -/
theorem testParts_true
    (h : testParts cfg someNeeded after found newChunks parts st = (.ok new', st'))
    (htrue : cfg.pred (elementsOf newChunks ++ parts.flatten ++ elementsOf after) = .ok true) :
    cfg.pred (elementsOf new' ++ elementsOf after) = .ok true := by
  obtain ⟨_, hnew⟩ := testParts_rule (I := fun _ new rest =>
      cfg.pred (elementsOf new ++ rest.flatten ++ elementsOf after) = .ok true)
    (fun _ => id) (fun hbefore _ => by simpa using hbefore) htrue h
  rwa [flatten_nil, append_nil] at hnew

theorem elementsOf_map_mk (kept : List (List T)) :
    elementsOf (kept.map (ArrayChunk.mk · false)) = kept.flatten := by
  rw [elementsOf, flatMap_map]
  exact flatMap_id

theorem testParts_sublist {chunk : List T} {splitInto : Nat} (h : testParts cfg someNeeded after
      found newChunks (splitChunk chunk splitInto) st = (.ok new', st')) :
    (elementsOf new').Sublist (elementsOf newChunks ++ chunk) := by
  obtain ⟨kept, rfl, hkept⟩ := testParts_kept h
  have hflat := hkept.flatten
  rw [flatten_splitChunk] at hflat
  rw [elementsOf_append, elementsOf_map_mk]
  exact hflat.append_left _

/-- **The rule of the loop over the chunks**: a chunk is kept as it is, as a final one, or
replaced by what the loop over its parts leaves. -/
theorem splitLoop_rule {splitInto : Nat} {chunks : List (ArrayChunk T)}
    {J : List (ArrayChunk T) → List (ArrayChunk T) → Prop}
    (hkeep : ∀ {new chunk rest c}, J new (chunk :: rest) → c.elements = chunk.elements →
      c.final = true → chunk.final = true ∨ chunk.final = false ∧
        (splitChunk chunk.elements splitInto).length = 1 ∧ someNeeded = true → J (new ++ [c]) rest)
    (htest : ∀ {new chunk rest new₁ st st₁}, J new (chunk :: rest) → chunk.final = false →
      ¬ ((splitChunk chunk.elements splitInto).length = 1 ∧ someNeeded = true) →
      testParts cfg someNeeded rest false new (splitChunk chunk.elements splitInto) st =
        (.ok new₁, st₁) → J new₁ rest)
    (hstart : J newChunks chunks)
    (h : splitLoop cfg someNeeded splitInto newChunks chunks st = (.ok new', st')) :
    J new' [] := by
  induction chunks generalizing newChunks st with
  | nil =>
    obtain ⟨hnew, -⟩ := Prod.mk.inj h
    exact Except.ok.inj hnew ▸ hstart
  | cons chunk rest ih =>
    rw [splitLoop] at h
    split at h
    · next hfin => exact ih (hkeep hstart rfl hfin (.inl hfin)) h
    next hfin =>
      rw [Bool.not_eq_true] at hfin
      split at h
      · next hone =>
          exact ih (hkeep (c := { chunk with final := true }) hstart rfl rfl (.inr ⟨hfin, hone⟩)) h
      · next hmore =>
          split at h
          · cases (Prod.mk.inj h).1
          · next hparts => exact ih (htest hstart hfin hmore hparts) h

/-- One round leaves a subsequence on which the predicate is still true. -/
theorem splitLoop_sound {splitInto : Nat} {chunks : List (ArrayChunk T)}
    (h : splitLoop cfg someNeeded splitInto newChunks chunks st = (.ok new', st')) :
    (elementsOf new').Sublist (elementsOf newChunks ++ elementsOf chunks) ∧
      (cfg.pred (elementsOf newChunks ++ elementsOf chunks) = .ok true →
        cfg.pred (elementsOf new') = .ok true) := by
  have hend := splitLoop_rule (J := fun new rest =>
      (elementsOf new ++ elementsOf rest).Sublist (elementsOf newChunks ++ elementsOf chunks) ∧
        (cfg.pred (elementsOf newChunks ++ elementsOf chunks) = .ok true →
          cfg.pred (elementsOf new ++ elementsOf rest) = .ok true))
    (fun hold hc _ _ => by simpa [hc] using hold)
    (fun hold _ _ hparts => ⟨?_, fun htrue => testParts_true hparts ?_⟩) ⟨.refl _, id⟩ h
  · simpa using hend
  · exact (((testParts_sublist hparts).append_right _).trans (by simp)).trans hold.1
  · simpa using hold.2 htrue

end Sound

/-! ## Necessary chunks -/

/-- A predicate that stays true when elements of the slice are added. -/
def MonotoneOn (pred : List T → Except ε Bool) (elements : List T) : Prop :=
  ∀ a b : List T, a.Sublist b → b.Sublist elements → pred a = .ok true → pred b = .ok true

/-- Without any one of the chunks, between the given elements, the predicate is not
true. -/
def Necessary (pred : List T → Except ε Bool) (before : List T) (chunks : List (ArrayChunk T))
    (after : List T) : Prop :=
  ∀ a c b, chunks = a ++ c :: b → pred (before ++ elementsOf (a ++ b) ++ after) ≠ .ok true

section Necessary
variable {pred : List T → Except ε Bool} {elements before before' after after' : List T}
  {chunks : List (ArrayChunk T)}

theorem necessary_nil (pred : List T → Except ε Bool) (before after : List T) :
    Necessary pred before [] after := by
  intro a c b h
  cases a <;> cases h

/-- What is necessary among more elements is necessary among fewer. -/
theorem Necessary.mono (h : Necessary pred before chunks after) (hmono : MonotoneOn pred elements)
    (hbefore : before'.Sublist before) (hafter : after'.Sublist after)
    (hin : (before ++ elementsOf chunks ++ after).Sublist elements) :
    Necessary pred before' chunks after' := by
  intro a c b heq htrue
  refine h a c b heq (hmono _ _ ((hbefore.append (.refl _)).append hafter) ?_ htrue)
  refine List.Sublist.trans ?_ hin
  rw [heq, elementsOf_append, elementsOf_append, elementsOf_cons]
  refine ((List.Sublist.refl _).append ?_).append (.refl _)
  exact (sublist_append_right _ _).append_left _

/-- A chunk that was found necessary joins those before it. -/
theorem Necessary.snoc {c : ArrayChunk T} (h : Necessary pred before chunks (c.elements ++ after))
    (hc : pred (before ++ elementsOf chunks ++ after) ≠ .ok true) :
    Necessary pred before (chunks ++ [c]) after := by
  intro a d b heq
  rcases eq_nil_or_concat b with rfl | ⟨b, c', rfl⟩
  · obtain ⟨rfl, hd⟩ := append_inj' heq rfl
    rw [append_nil]
    exact hc
  rw [concat_eq_append, ← cons_append, ← append_assoc] at heq
  obtain ⟨rfl, hd⟩ := append_inj' heq rfl
  obtain rfl := (List.cons.inj hd).1
  have hold := h a d b rfl
  rw [concat_eq_append, ← append_assoc, elementsOf_append, elementsOf_cons,
    elementsOf_nil, append_nil]
  simpa using hold

/-- The first of several necessary chunks, and the others after it. -/
theorem Necessary.head {c : ArrayChunk T} (h : Necessary pred before (c :: chunks) after) :
    pred (before ++ elementsOf chunks ++ after) ≠ .ok true ∧
      Necessary pred (before ++ c.elements) chunks after := by
  refine ⟨h [] c chunks rfl, fun a d b heq => ?_⟩
  have hold := h (c :: a) d b (by rw [heq]; rfl)
  rw [cons_append, elementsOf_cons, ← append_assoc] at hold
  exact hold

end Necessary

section Minimal
variable {cfg : Config T ε} {st : Runs T} {elements : List T}

/-- **The parts that are kept are necessary**: the predicate was not true without
them, or the chunk is necessary and nothing else of it is left. -/
theorem testParts_necessary (hmax : cfg.maxSteps ≤ 0) (hmono : MonotoneOn cfg.pred elements)
    {someNeeded found : Bool} {after newChunks new' : List (ArrayChunk T)} {parts : List (List T)}
    {st' : Runs T} (h : testParts cfg someNeeded after found newChunks parts st = (.ok new', st'))
    (hin : (elementsOf newChunks ++ parts.flatten ++ elementsOf after).Sublist elements)
    (hnew : Necessary cfg.pred [] newChunks (parts.flatten ++ elementsOf after))
    (hsome : someNeeded = true → found = false →
      cfg.pred (elementsOf newChunks ++ elementsOf after) ≠ .ok true) :
    Necessary cfg.pred [] new' (elementsOf after) := by
  have hend := testParts_rule (I := fun found new rest =>
      (elementsOf new ++ rest.flatten ++ elementsOf after).Sublist elements ∧
      Necessary cfg.pred [] new (rest.flatten ++ elementsOf after) ∧
      (someNeeded = true → found = false → cfg.pred (elementsOf new ++ elementsOf after) ≠ .ok true))
    (fun ⟨hin, hnew, hsome⟩ _ => ?_) (fun ⟨hin, hnew, hsome⟩ hneeded => ?_) ⟨hin, hnew, hsome⟩ h
  · obtain ⟨_, -, hnec, -⟩ := hend
    exact hnec
  · -- the part is dropped
    rw [flatten_cons] at hin hnew
    refine ⟨?_, hnew.mono hmono (.refl _) ?_ ?_, hsome⟩
    · exact (((sublist_append_right _ _).append_left _).append_right _).trans hin
    · rw [append_assoc]
      exact sublist_append_right _ _
    · simpa using hin
  · -- the part is kept, and the predicate is not true without it
    refine ⟨by simpa using hin, .snoc ?_ ?_, fun _ hfound => nomatch hfound⟩
    · rwa [flatten_cons, append_assoc] at hnew
    rcases hneeded with hfalse | ⟨rfl, hfound, hneeded⟩
    · have hfalse := hfalse hmax
      rw [nil_append, ← append_assoc, hfalse]
      exact fun heq => nomatch heq
    · -- the last part, and nothing was found: it is all that is left of the chunk
      exact hsome hneeded hfound

/-- **A round leaves necessary chunks**, if what it was given is or everything is
tested. -/
theorem splitLoop_necessary (hmax : cfg.maxSteps ≤ 0) (hmono : MonotoneOn cfg.pred elements)
    {someNeeded : Bool} {splitInto : Nat} {newChunks chunks new' : List (ArrayChunk T)}
    {st' : Runs T} (h : splitLoop cfg someNeeded splitInto newChunks chunks st = (.ok new', st'))
    (hin : (elementsOf newChunks ++ elementsOf chunks).Sublist elements)
    (hnew : Necessary cfg.pred [] newChunks (elementsOf chunks))
    (hchunks : someNeeded = true → Necessary cfg.pred (elementsOf newChunks) chunks [])
    (hfinal : someNeeded = false → ∀ c ∈ chunks, c.final = false) :
    Necessary cfg.pred [] new' [] := by
  have hend := splitLoop_rule (J := fun new rest =>
      (elementsOf new ++ elementsOf rest).Sublist elements ∧
      Necessary cfg.pred [] new (elementsOf rest) ∧
      (someNeeded = true → Necessary cfg.pred (elementsOf new) rest []) ∧
      (someNeeded = false → ∀ c ∈ rest, c.final = false))
    (fun ⟨hin, hnew, hchunks, hfinal⟩ hc _ hcase => ?_)
    (fun ⟨hin, hnew, hchunks, hfinal⟩ _ _ hparts => ?_) ⟨hin, hnew, hchunks, hfinal⟩ h
  · exact hend.2.1
  · -- a necessary chunk that is kept as it is
    have hneeded : someNeeded = true := by
      rcases hcase with hfin | hone
      · by_contra hnot
        rw [hfinal (Bool.not_eq_true _ ▸ hnot) _ mem_cons_self] at hfin
        cases hfin
      · exact hone.2.2
    obtain ⟨hhead, htail⟩ := (hchunks hneeded).head
    rw [append_nil] at hhead
    refine ⟨by simpa [hc] using hin, .snoc ?_ hhead, fun _ => by simpa [hc] using htail,
      fun hnot => absurd (hneeded.symm.trans hnot) (by simp)⟩
    rwa [hc, ← elementsOf_cons]
  · have hfewer := testParts_sublist hparts
    rw [elementsOf_cons, ← append_assoc] at hin
    refine ⟨(hfewer.append_right _).trans hin, ?_, fun hneeded => ?_,
      fun hnot c hc => hfinal hnot c (mem_cons_of_mem _ hc)⟩
    · refine testParts_necessary hmax hmono hparts (by simpa using hin) (by simpa using hnew)
        fun hneeded _ => ?_
      have hhead := (hchunks hneeded).head.1
      rwa [append_nil] at hhead
    · refine (hchunks hneeded).head.2.mono hmono hfewer (.refl _) ?_
      rw [append_nil]
      exact hin

end Minimal

/-! ## Enough rounds -/

/-- The rounds a chunk can still take part in: less than twice its length. -/
def ArrayChunk.weight (c : ArrayChunk T) : Nat :=
  if c.final then 0 else max 1 (2 * c.elements.length - 1)

def weight (chunks : List (ArrayChunk T)) : Nat := (chunks.map ArrayChunk.weight).sum

@[simp] theorem weight_append (a b : List (ArrayChunk T)) :
    weight (a ++ b) = weight a + weight b := by
  rw [weight, map_append, sum_append]
  rfl

@[simp] theorem weight_cons (c : ArrayChunk T) (cs : List (ArrayChunk T)) :
    weight (c :: cs) = c.weight + weight cs := rfl

@[simp] theorem weight_nil : weight ([] : List (ArrayChunk T)) = 0 := rfl

section Weight
variable {cfg : Config T ε} {st : Runs T}

/-- Parts weigh one less each than twice their elements. -/
theorem weight_parts {parts : List (List T)} (h : ∀ part ∈ parts, part ≠ []) :
    weight (parts.map (ArrayChunk.mk · false)) + parts.length = 2 * parts.flatten.length := by
  induction parts with
  | nil => rfl
  | cons part rest ih =>
    obtain ⟨hpart, hrest⟩ := forall_mem_cons.mp h
    have hlen := length_pos_iff.mpr hpart
    have hih := ih hrest
    have hweight : (ArrayChunk.mk part false).weight = max 1 (2 * part.length - 1) := rfl
    rw [map_cons, weight_cons, hweight, length_cons, flatten_cons,
      length_append]
    omega

theorem weight_sublist {a b : List (ArrayChunk T)} (h : a.Sublist b) : weight a ≤ weight b := by
  induction h with
  | slnil => exact Nat.le_refl _
  | cons c _ ih =>
    rw [weight_cons]
    omega
  | cons_cons c _ ih =>
    rw [weight_cons, weight_cons]
    omega

/-- The parts of a chunk that are kept. -/
theorem testParts_weight {someNeeded found : Bool} {after newChunks new' : List (ArrayChunk T)}
    {chunk : List T} {splitInto : Nat} {st' : Runs T}
    (h : testParts cfg someNeeded after found newChunks (splitChunk chunk splitInto) st =
      (.ok new', st')) :
    weight new' + (splitChunk chunk splitInto).length ≤ weight newChunks + 2 * chunk.length := by
  obtain ⟨kept, hnew, hkept⟩ := testParts_kept h
  have hparts := weight_parts fun part (hpart : part ∈ splitChunk chunk splitInto) =>
    ne_nil_of_mem_splitChunk chunk splitInto hpart
  have hsub := weight_sublist (hkept.map (.mk · false))
  rw [flatten_splitChunk] at hparts
  rw [hnew, weight_append]
  omega

/-- **A round that finds a chunk that is not final makes progress.** -/
theorem splitLoop_weight {newChunks chunks new' : List (ArrayChunk T)} {st' : Runs T}
    (h : splitLoop cfg true 2 newChunks chunks st = (.ok new', st')) :
    weight new' + chunks.countP (fun c => !c.final) ≤ weight newChunks + weight chunks := by
  have hend := splitLoop_rule (J := fun new rest => weight new + weight rest +
      chunks.countP (fun c => !c.final) ≤
        weight newChunks + weight chunks + rest.countP fun c => !c.final)
    (fun {new chunk rest c} hold _ hfin hcase => ?_)
    (fun {new chunk rest new₁ st st₁} hold hfin hmore hparts => ?_) (Nat.le_refl _) h
  · simpa using hend
  · have hzero : c.weight = 0 := if_pos hfin
    rw [weight_append, weight_cons, weight_nil, hzero]
    rw [weight_cons, countP_cons] at hold
    rcases hcase with hcase | hcase
    · simp only [hcase, Bool.not_true, Bool.false_eq_true, if_false] at hold
      omega
    · have hweight : 1 ≤ chunk.weight := by rw [ArrayChunk.weight, hcase.1]; exact Nat.le_max_left ..
      split at hold <;> omega
  · have htested := testParts_weight hparts
    have hweight : chunk.weight = max 1 (2 * chunk.elements.length - 1) :=
      if_neg (by rw [hfin]; exact Bool.false_ne_true)
    rw [weight_cons, countP_cons, hfin, hweight] at hold
    have hcount : (splitChunk chunk.elements 2).length ≠ 1 := fun heq => hmore ⟨heq, rfl⟩
    have hnone : (splitChunk chunk.elements 2).length = 0 → chunk.elements.length = 0 := by
      intro hzero
      rw [← flatten_splitChunk chunk.elements 2, length_eq_zero_iff.mp hzero]
      rfl
    simp only [Bool.not_false, if_true] at hold
    omega

end Weight

/-! ## The whole bisection -/

section Bisection
variable {cfg : Config T ε} {log2Exceeds : Nat → Int → Bool} {elements : List T}

/-- What holds between two rounds. -/
structure Round (cfg : Config T ε) (elements : List T) (chunks : List (ArrayChunk T))
    (st : Runs T) : Prop where
  within : st.Within cfg
  sublist : (elementsOf chunks).Sublist elements
  holds : cfg.pred (elementsOf chunks) = .ok true
  single : ∀ c ∈ chunks, c.final = true → c.elements.length = 1
  necessary : cfg.maxSteps ≤ 0 → MonotoneOn cfg.pred elements →
    Necessary cfg.pred [] chunks []

/-- What the code promises of its result. -/
structure Minimized (cfg : Config T ε) (elements result : List T) : Prop where
  sublist : result.Sublist elements
  holds : cfg.pred result = .ok true
  minimal : cfg.maxSteps ≤ 0 → cfg.maxChunks ≤ 0 → MonotoneOn cfg.pred elements →
    ∀ i, i < result.length → cfg.pred (result.eraseIdx i) ≠ .ok true

variable {st : Runs T} {chunks : List (ArrayChunk T)}

/-- The final chunks of a round are single elements. -/
theorem splitLoop_single {st' : Runs T} {newChunks new' : List (ArrayChunk T)}
    (h : splitLoop cfg true 2 newChunks chunks st = (.ok new', st'))
    (hnew : ∀ c ∈ newChunks, c.final = true → c.elements.length = 1)
    (hchunks : ∀ c ∈ chunks, c.final = true → c.elements.length = 1) :
    ∀ c ∈ new', c.final = true → c.elements.length = 1 := by
  have hend := splitLoop_rule (J := fun new rest =>
      ∀ c ∈ new ++ rest, c.final = true → c.elements.length = 1)
    (fun {new chunk rest c} hold hc _ hcase d hd => ?_)
    (fun {new chunk rest new₁ st st₁} hold _ _ hparts d hd hfin => ?_)
    (fun c hc => (mem_append.mp hc).elim (hnew c) (hchunks c)) h
  · simpa using hend
  · rw [append_assoc, mem_append] at hd
    rcases hd with hd | hd
    · exact hold d (mem_append_left _ hd)
    rcases mem_cons.mp hd with rfl | hd
    · intro _
      rw [hc]
      exact hcase.elim (hold chunk (by simp)) fun hone => length_of_splitChunk_two _ hone.2.1
    · exact hold d (mem_append_right _ (mem_cons_of_mem _ hd))
  · obtain ⟨kept, rfl, -⟩ := testParts_kept hparts
    simp only [mem_append, mem_map] at hd
    rcases hd with (hd | ⟨part, -, rfl⟩) | hd
    · exact hold d (by simp [hd]) hfin
    · cases hfin
    · exact hold d (by simp [hd]) hfin

/-- The first round, in which everything is tested. -/
theorem Round.first (htrue : cfg.pred elements = .ok true)
    (h : splitChunks log2Exceeds cfg false [⟨elements, false⟩] ⟨0, []⟩ = (.ok chunks, st)) :
    Round cfg elements chunks st ∧ weight chunks ≤ 2 * elements.length := by
  rw [splitChunks] at h
  have hwithin : (⟨0, []⟩ : Runs T).Within cfg := ⟨rfl, fun hpos => by
    show ((0 : Nat) : Int) ≤ _
    omega⟩
  have hself : elementsOf [ArrayChunk.mk elements false] = elements := append_nil elements
  obtain ⟨hsub, hpred⟩ := splitLoop_sound h
  rw [elementsOf_nil, nil_append, hself] at hsub hpred
  have hlast := hwithin.splitLoop false (initialSplit log2Exceeds cfg elements.length) []
    [⟨elements, false⟩]
  rw [h] at hlast
  -- the only chunk is not final: it goes through the test
  obtain ⟨new₁, st₁, htest, rfl⟩ : ∃ new₁ st₁, testParts cfg false [] false []
      (splitChunk elements (initialSplit log2Exceeds cfg elements.length)) ⟨0, []⟩ =
        (.ok new₁, st₁) ∧ new₁ = chunks := by
    rw [splitLoop, if_neg (by simp), if_neg (by simp)] at h
    split at h
    · cases (Prod.mk.inj h).1
    · next new₁ st₁ htest => exact ⟨new₁, st₁, htest, Except.ok.inj (Prod.mk.inj h).1⟩
  obtain ⟨kept, hkept, -⟩ := testParts_kept htest
  have hweight := testParts_weight htest
  rw [weight_nil] at hweight
  refine ⟨⟨hlast, hsub, hpred htrue, fun c hc hfin => ?_, fun hmax hmono => ?_⟩, by omega⟩
  · rw [hkept, nil_append] at hc
    obtain ⟨part, -, rfl⟩ := mem_map.mp hc
    cases hfin
  · refine splitLoop_necessary hmax hmono h ?_ (necessary_nil _ _ _)
      (fun hneeded => nomatch hneeded) fun _ c hc => ?_
    · rw [elementsOf_nil, nil_append, hself]
    · rw [mem_singleton.mp hc]

/-- A further round. -/
theorem Round.next {chunks' : List (ArrayChunk T)} {st' : Runs T}
    (hr : Round cfg elements chunks st)
    (h : splitChunks log2Exceeds cfg true chunks st = (.ok chunks', st')) :
    Round cfg elements chunks' st' := by
  rw [splitChunks] at h
  · obtain ⟨hsub, hpred⟩ := splitLoop_sound h
    have hwithin := hr.within.splitLoop true 2 [] chunks
    rw [h] at hwithin
    refine ⟨hwithin, hsub.trans hr.sublist, hpred hr.holds,
      splitLoop_single h (fun _ hc => nomatch hc) hr.single, fun hmax hmono => ?_⟩
    refine splitLoop_necessary hmax hmono h ?_ (necessary_nil _ _ _) (fun _ => ?_)
      fun hnot => nomatch hnot
    · exact hr.sublist
    · exact hr.necessary hmax hmono
  · exact fun _ hneeded => nomatch hneeded

/-- Position `i` of the elements of single-element chunks is chunk `i`. -/
theorem eraseIdx_elementsOf {i : Nat} (hsingle : ∀ c ∈ chunks, c.elements.length = 1)
    (hi : i < (elementsOf chunks).length) :
    ∃ a c b, chunks = a ++ c :: b ∧ (elementsOf chunks).eraseIdx i = elementsOf (a ++ b) := by
  induction chunks generalizing i with
  | nil => exact absurd hi (Nat.not_lt_zero i)
  | cons c cs ih =>
    obtain ⟨hc, hcs⟩ := forall_mem_cons.mp hsingle
    obtain ⟨x, hx⟩ := length_eq_one_iff.mp hc
    cases i with
    | zero => exact ⟨[], c, cs, rfl, by rw [elementsOf_cons, hx]; rfl⟩
    | succ i =>
      rw [elementsOf_cons, hx, singleton_append, length_cons] at hi
      obtain ⟨a, d, b, rfl, herase⟩ := ih hcs (Nat.lt_of_succ_lt_succ hi)
      refine ⟨c :: a, d, b, rfl, ?_⟩
      rw [elementsOf_cons, hx, singleton_append, eraseIdx_cons_succ, herase,
        cons_append, elementsOf_cons, hx]
      rfl

/-- When all chunks are final, removing an element removes a necessary chunk. -/
theorem Round.minimized (hr : Round cfg elements chunks st) (hdone : done cfg chunks st = true) :
    Minimized cfg elements (elementsOf chunks) := by
  refine ⟨hr.sublist, hr.holds, fun hmax _ hmono i hi => ?_⟩
  have hfinal : ∀ c ∈ chunks, c.final = true := by
    rw [done, Bool.or_eq_true, limitReached, Bool.and_eq_true, decide_eq_true_eq] at hdone
    rcases hdone with hlimit | hall
    · omega
    · exact all_eq_true.mp hall
  have hnec := hr.necessary hmax hmono
  obtain ⟨a, c, b, hchunks, herase⟩ :=
    eraseIdx_elementsOf (fun c hc => hr.single c hc (hfinal c hc)) hi
  have hneeded := hnec a c b hchunks
  rw [nil_append, append_nil] at hneeded
  rw [herase]
  exact hneeded

/-- The runs made when a round ends in an error. -/
theorem within_splitChunks (log2Exceeds : Nat → Int → Bool) (chunks : List (ArrayChunk T))
    (someNeeded : Bool) (h : st.Within cfg) :
    (splitChunks log2Exceeds cfg someNeeded chunks st).2.Within cfg := by
  rw [splitChunks.eq_def]
  split
  · exact h.splitLoop ..
  · exact h.splitLoop ..

/-- What a bisection returns. -/
structure Returned (cfg : Config T ε) (elements : List T)
    (r : List T × Option (Error ε) × Runs T) : Prop where
  within : r.2.2.Within cfg
  minimized : r.2.1 = none → Minimized cfg elements r.1

theorem Round.loop {fuel : Nat} (hr : Round cfg elements chunks st) (hfuel : weight chunks < fuel) :
    ∃ r, bisectLoop log2Exceeds cfg fuel chunks st = some r ∧ Returned cfg elements r := by
  induction fuel generalizing chunks st with
  | zero => exact absurd hfuel (Nat.not_lt_zero _)
  | succ fuel ih =>
    rw [bisectLoop]
    by_cases hdone : done cfg chunks st = true
    · rw [if_pos hdone]
      refine ⟨_, rfl, hr.within, fun _ => ?_⟩
      rw [mergeChunks_eq, elementsOf_nil, append_nil, append_nil]
      exact hr.minimized hdone
    · rw [if_neg hdone]
      by_cases hmany : cfg.maxChunks > 0 ∧ (chunks.length : Int) > cfg.maxChunks
      · rw [if_pos hmany]
        exact ⟨_, rfl, hr.within, fun hnone => nomatch hnone⟩
      rw [if_neg hmany]
      have hwithin := within_splitChunks log2Exceeds chunks true hr.within
      cases hround : splitChunks log2Exceeds cfg true chunks st with
      | mk res st' =>
        rw [hround] at hwithin
        cases res with
        | error e => exact ⟨_, rfl, hwithin, fun hnone => nomatch hnone⟩
        | ok chunks' =>
          refine ih (hr.next hround) ?_
          have hloop := hround
          rw [splitChunks] at hloop
          · have hweight := splitLoop_weight hloop
            rw [weight_nil, Nat.zero_add] at hweight
            have hprogress : 0 < chunks.countP fun c => !c.final := by
              rw [countP_pos_iff]
              rw [done, Bool.or_eq_true, not_or, all_eq_true] at hdone
              obtain ⟨-, hopen⟩ := hdone
              push Not at hopen
              obtain ⟨c, hc, hfin⟩ := hopen
              exact ⟨c, hc, by simpa using hfin⟩
            omega
          · exact fun _ hneeded => nomatch hneeded

/-- The bisection returns, within its limits and with what it promises. -/
theorem slice_returned (log2Exceeds : Nat → Int → Bool) (cfg : Config T ε) (elements : List T)
    (htrue : cfg.pred elements = .ok true) :
    ∃ r, slice log2Exceeds cfg elements = some r ∧ Returned cfg elements r := by
  have hstart : (⟨0, []⟩ : Runs T).Within cfg := ⟨rfl, fun hpos => by
    show ((0 : Nat) : Int) ≤ _
    omega⟩
  have hwithin := within_splitChunks log2Exceeds [⟨elements, false⟩] false hstart
  rw [slice]
  cases hround : splitChunks log2Exceeds cfg false [⟨elements, false⟩] ⟨0, []⟩ with
  | mk res st =>
    rw [hround] at hwithin
    cases res with
    | error e => exact ⟨_, rfl, hwithin, fun hnone => nomatch hnone⟩
    | ok chunks =>
      obtain ⟨hfirst, hweight⟩ := Round.first htrue hround
      exact hfirst.loop (by omega)

end Bisection

/-- **Chunk-wise bisection.**  For every slice on which the predicate is true the
bisection returns; it runs the predicate at most `MaxSteps` times if that is
positive; and if it reports no error, the result is a subsequence on which the
predicate is true, from which no single element can be removed if there are no
limits and the predicate is monotone. -/
theorem slice_minimizes (log2Exceeds : Nat → Int → Bool) (cfg : Config T ε) (elements : List T)
    (htrue : cfg.pred elements = .ok true) :
    ∃ result err st, slice log2Exceeds cfg elements = some (result, err, st) ∧
      (cfg.maxSteps > 0 → (st.calls.length : Int) ≤ cfg.maxSteps) ∧
      (err = none → result.Sublist elements ∧ cfg.pred result = .ok true ∧
        (cfg.maxSteps = 0 → cfg.maxChunks = 0 → MonotoneOn cfg.pred elements →
          ∀ i, i < result.length → cfg.pred (result.eraseIdx i) ≠ .ok true)) := by
  obtain ⟨⟨result, err, st⟩, hr, hret⟩ := slice_returned log2Exceeds cfg elements htrue
  refine ⟨result, err, st, hr, fun hpos => ?_, fun hnone => ?_⟩
  · rw [hret.within.counted]
    exact hret.within.limited hpos
  · obtain ⟨hsub, hholds, hminimal⟩ := hret.minimized hnone
    exact ⟨hsub, hholds, fun hmax hchunks => hminimal (by omega) (by omega)⟩

/-- No limits, and a predicate that needs the element 2. -/
def needsTwo : Config Nat Unit := ⟨fun elements => .ok (elements.contains 2), 0, 0⟩

theorem slice_minimizes_needsTwo :
    needsTwo.pred [1, 2, 3, 4] = .ok true ∧
      ∃ result err st, slice (fun _ _ => false) needsTwo [1, 2, 3, 4] = some (result, err, st) ∧
        err = none ∧ result = [2] ∧
        ∀ i, i < result.length → needsTwo.pred (result.eraseIdx i) ≠ .ok true := by
  have htrue : needsTwo.pred [1, 2, 3, 4] = .ok true := rfl
  have hmono : MonotoneOn needsTwo.pred [1, 2, 3, 4] := by
    intro a b hsub _ ha
    have hmem : 2 ∈ a := contains_iff_mem.mp (Except.ok.inj ha)
    exact congrArg Except.ok (contains_iff_mem.mpr (hsub.mem hmem))
  have hrun : (slice (fun _ _ => false) needsTwo [1, 2, 3, 4]).map (fun r => (r.1, r.2.1)) =
      some ([2], none) := by decide +kernel
  obtain ⟨result, err, st, heq, -, hret⟩ :=
    slice_minimizes (fun _ _ => false) needsTwo [1, 2, 3, 4] htrue
  rw [heq] at hrun
  obtain ⟨hresult, herr⟩ := Prod.mk.inj (Option.some.inj hrun)
  exact ⟨htrue, result, err, st, heq, herr, hresult, (hret herr).2.2 rfl rfl hmono⟩

end Sect.Minimize
