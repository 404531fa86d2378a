import SectProof.Signals

/-! # The corpus and its signals

`pkg/fuzzer/corpus.go`: the corpus keeps the programs that were saved, the
accumulated priorities for choosing one of them at random, and three signals.
Its methods run under one lock, so a history of the corpus is a list of
operations.  **`corpus_accounting`** says what holds of every history.
-/

open List Nat

namespace Sect.Fuzzer

open PrioMap Signal

/-! ## Searching -/

/-- The loop of `sort.Search`: the search goes on in the window from `i` to `j`,
which shrinks in every round, so `fuel` rounds are enough for that many indices. -/
def searchLoop (f : Nat → Bool) : Nat → Nat → Nat → Nat
  | 0, i, _ => i
  | fuel + 1, i, j =>
    if i < j then
      if f ((i + j) / 2) then searchLoop f fuel i ((i + j) / 2)
      else searchLoop f fuel ((i + j) / 2 + 1) j
    else i

/-- `sort.Search`. -/
def sortSearch (n : Nat) (f : Nat → Bool) : Nat := searchLoop f n 0 n

variable {f : Nat → Bool} {n : Nat}

/-- The window never moves behind an index at which `f` holds. -/
theorem searchLoop_le {last : Nat} (hlast : f last = true) (fuel : Nat) :
    ∀ {i j : Nat}, i ≤ last → j ≤ last + 1 → searchLoop f fuel i j ≤ last := by
  induction fuel with
  | zero =>
    intro i j hi _
    exact hi
  | succ fuel ih =>
    intro i j hi hj
    rw [searchLoop]
    by_cases hlt : i < j
    · rw [if_pos hlt]
      cases hf : f ((i + j) / 2) with
      | true =>
        exact ih hi (by omega)
      | false =>
        have hne : (i + j) / 2 ≠ last := by
          intro heq
          rw [heq, hlast] at hf
          cases hf
        exact ih (by omega) hj
    · rw [if_neg hlt]
      exact hi

/-- If `f` holds at the last index, the search ends inside the range. -/
theorem sortSearch_lt (hn : 0 < n) (hlast : f (n - 1) = true) : sortSearch n f < n := by
  have hle : sortSearch n f ≤ n - 1 := searchLoop_le hlast n (zero_le _) (by omega)
  omega

/-- What the loop returns when `f`, once true, stays true: everything below the
window is false, everything from its end on is true. -/
theorem searchLoop_spec (hmono : ∀ i j, i ≤ j → j < n → f i = true → f j = true) (fuel : Nat) :
    ∀ {i j : Nat}, i ≤ j → j ≤ n → j - i ≤ fuel → (∀ k, k < i → f k = false) →
      (∀ k, j ≤ k → k < n → f k = true) →
      searchLoop f fuel i j ≤ n ∧ (∀ k, k < searchLoop f fuel i j → f k = false) ∧
        ∀ k, searchLoop f fuel i j ≤ k → k < n → f k = true := by
  induction fuel with
  | zero =>
    intro i j hij hjn hfuel hlow hhigh
    obtain rfl : i = j := by omega
    exact ⟨hjn, hlow, hhigh⟩
  | succ fuel ih =>
    intro i j hij hjn hfuel hlow hhigh
    rw [searchLoop]
    by_cases hlt : i < j
    · rw [if_pos hlt]
      cases hf : f ((i + j) / 2) with
      | true =>
        refine ih (by omega) (by omega) (by omega) hlow ?_
        intro k hk hkn
        exact hmono _ k hk hkn hf
      | false =>
        refine ih (by omega) hjn (by omega) ?_ hhigh
        intro k hk
        cases hfk : f k with
        | false => rfl
        | true =>
          have hmid := hmono k ((i + j) / 2) (by omega) (by omega) hfk
          rw [hf] at hmid
          cases hmid
    · rw [if_neg hlt]
      obtain rfl : i = j := by omega
      exact ⟨hjn, hlow, hhigh⟩

/-- `sort.Search` finds the first index at which a monotone `f` holds. -/
theorem sortSearch_spec (hmono : ∀ i j, i ≤ j → j < n → f i = true → f j = true) :
    sortSearch n f ≤ n ∧ (∀ k, k < sortSearch n f → f k = false) ∧
      ∀ k, sortSearch n f ≤ k → k < n → f k = true :=
  searchLoop_spec hmono n (zero_le n) (le_refl n) (le_refl _)
    (fun k hk => absurd hk (not_lt_zero k))
    (fun _ hk hkn => absurd hkn (Nat.not_lt_of_le hk))

/-! ## The corpus -/

/-- The corpus, of programs `P` with hashes `S`. -/
structure Corpus (P S : Type) where
  progs : List P
  hashes : Finset S
  sumPrios : Nat
  accPrios : List Nat
  signal : Signal
  maxSignal : Signal
  newSignal : Signal

/-- `newCorpus`. -/
def newCorpus (P S : Type) : Corpus P S := ⟨[], ∅, 0, [], ∅, ∅, ∅⟩

inductive CorpusOp (P S : Type)
  | save (p : P) (signal : Signal) (sig : S)
  | addMaxSignal (sign : Signal)
  | addRawMaxSignal (signal : List UInt32) (prio : UInt8)
  | grabNewSignal
  | chooseProgram (draw : Nat)

/-- What a method returns. -/
inductive CorpusOutput (P : Type)
  | done
  | diff (diff : Signal)
  | grabbed (sign : Signal)
  | program (p : Option P)

namespace Corpus

variable {P S : Type} [DecidableEq S]

/-- The priority of a new program. -/
def savePrio (signal : Signal) : Nat := if signal.size = 0 then 1 else signal.size

/-- The first part of `Save`. -/
def store (c : Corpus P S) (p : P) (signal : Signal) (sig : S) : Corpus P S :=
  if sig ∈ c.hashes then c
  else
    { c with
      progs := c.progs ++ [p]
      hashes := insert sig c.hashes
      sumPrios := c.sumPrios + savePrio signal
      accPrios := c.accPrios ++ [c.sumPrios + savePrio signal] }

/-- `Save`. -/
def save (c : Corpus P S) (p : P) (signal : Signal) (sig : S) : Corpus P S :=
  { c.store p signal sig with
    signal := c.signal.merge signal
    maxSignal := c.maxSignal.merge signal }

/-- `AddMaxSignal`. -/
def addMaxSignal (c : Corpus P S) (sign : Signal) : Corpus P S :=
  { c with maxSignal := c.maxSignal.merge sign }

/-- `AddRawMaxSignal`. -/
def addRawMaxSignal (c : Corpus P S) (signal : List UInt32) (prio : UInt8) :
    Signal × Corpus P S :=
  let diff := c.maxSignal.diffRaw signal prio
  if diff.isEmpty then (diff, c)
  else
    (diff, { c with maxSignal := c.maxSignal.merge diff, newSignal := c.newSignal.merge diff })

/-- `GrabNewSignal`. -/
def grabNewSignal (c : Corpus P S) : Signal × Corpus P S :=
  (c.newSignal, { c with newSignal := ∅ })

/-- The index that `chooseProgram` looks up; `draw` is the random number that
`Int63n` reduces. -/
def chooseIndex (c : Corpus P S) (draw : Nat) : Nat :=
  sortSearch c.accPrios.length fun i => (c.accPrios[i]?).any (draw % (c.sumPrios + 1) ≤ ·)

/-- `chooseProgram`; no result means that the index is out of range. -/
def chooseProgram (c : Corpus P S) (draw : Nat) : Option (Option P) :=
  if c.progs.length = 0 then some none else (c.progs[c.chooseIndex draw]?).map some

/-- One method call under the lock. -/
def step (c : Corpus P S) : CorpusOp P S → Option (CorpusOutput P × Corpus P S)
  | .save p signal sig => some (.done, c.save p signal sig)
  | .addMaxSignal sign => some (.done, c.addMaxSignal sign)
  | .addRawMaxSignal signal prio =>
    some (.diff (c.addRawMaxSignal signal prio).1, (c.addRawMaxSignal signal prio).2)
  | .grabNewSignal => some (.grabbed c.grabNewSignal.1, c.grabNewSignal.2)
  | .chooseProgram draw => (c.chooseProgram draw).map fun p => (.program p, c)

end Corpus

/-- A method call in a history. -/
structure CorpusEvent (P S : Type) where
  before : Corpus P S
  op : CorpusOp P S
  output : CorpusOutput P
  after : Corpus P S

namespace Corpus

variable {P S : Type} [DecidableEq S]

/-- The history of a list of method calls. -/
def run : Corpus P S → List (CorpusOp P S) → Option (List (CorpusEvent P S) × Corpus P S)
  | c, [] => some ([], c)
  | c, op :: ops =>
    (c.step op).bind fun r => (run r.2 ops).map fun t => (⟨c, op, r.1, r.2⟩ :: t.1, t.2)

/-! ## What a method keeps -/

/-- The invariant of the corpus. -/
structure Ok (c : Corpus P S) : Prop where
  below : ∀ e, c.signal.prio e ≤ c.maxSignal.prio e
  length : c.accPrios.length = c.progs.length
  increasing : c.accPrios.Pairwise (· < ·)
  bounded : ∀ a ∈ c.accPrios, a ≤ c.sumPrios
  last : c.progs ≠ [] → c.accPrios.getLast? = some c.sumPrios

omit [DecidableEq S] in
theorem ok_new : (newCorpus P S).Ok where
  below := fun e => le_refl _
  length := rfl
  increasing := .nil
  bounded := fun a ha => by cases ha
  last := fun h => absurd rfl h

theorem savePrio_pos (signal : Signal) : 0 < savePrio signal := by
  unfold savePrio
  split_ifs with h
  · exact one_pos
  · exact pos_of_ne_zero h

variable {c : Corpus P S}

/-- `Save` appends one priority that is greater than all before it. -/
theorem Ok.save (h : c.Ok) (p : P) (signal : Signal) (sig : S) : (c.save p signal sig).Ok := by
  have hbelow : ∀ e, (c.signal.merge signal).prio e ≤ (c.maxSignal.merge signal).prio e := by
    intro e
    rw [prio_merge, prio_merge]
    exact sup_le_sup_right (h.below e) _
  by_cases hsig : sig ∈ c.hashes
  · unfold Corpus.save store
    rw [if_pos hsig]
    exact ⟨hbelow, h.length, h.increasing, h.bounded, h.last⟩
  unfold Corpus.save store
  rw [if_neg hsig]
  have hpos := savePrio_pos signal
  refine ⟨hbelow, ?_, ?_, ?_, ?_⟩
  · rw [length_append, length_append, h.length]
    rfl
  · refine pairwise_append.mpr ⟨h.increasing, pairwise_singleton _ _, ?_⟩
    intro a ha b hb
    have hle := h.bounded a ha
    rw [mem_singleton] at hb
    omega
  · intro a ha
    rcases mem_append.mp ha with ha | ha
    · exact le_trans (h.bounded a ha) (le_add_right _ _)
    · exact (mem_singleton.mp ha).le
  · intro _
    exact getLast?_concat

omit [DecidableEq S] in
/-- **`chooseProgram` finds a program**: the last accumulated priority is at least
every random value. -/
theorem Ok.chooseProgram_isSome (h : c.Ok) (draw : Nat) : ∃ p, c.chooseProgram draw = some p := by
  by_cases hlen : c.progs.length = 0
  · exact ⟨none, if_pos hlen⟩
  have hne : c.progs ≠ [] := fun hnil => hlen (length_eq_zero_iff.mpr hnil)
  have hlast := h.last hne
  rw [getLast?_eq_getElem?] at hlast
  have hlt : c.chooseIndex draw < c.accPrios.length := by
    refine sortSearch_lt (by rw [h.length]; omega) ?_
    rw [hlast, Option.any_some, decide_eq_true_eq]
    exact Nat.lt_succ_iff.mp (Nat.mod_lt _ (Nat.succ_pos _))
  rw [h.length] at hlt
  refine ⟨some (c.progs.get ⟨_, hlt⟩), ?_⟩
  unfold chooseProgram
  rw [if_neg hlen, getElem?_eq_getElem hlt]
  rfl

/-- Every method keeps the invariant, and none fails. -/
theorem Ok.step (h : c.Ok) (op : CorpusOp P S) : ∃ out c', c.step op = some (out, c') ∧ c'.Ok := by
  cases op with
  | save p signal sig => exact ⟨_, _, rfl, h.save p signal sig⟩
  | addMaxSignal sign =>
    refine ⟨_, _, rfl, ⟨fun e => ?_, h.length, h.increasing, h.bounded, h.last⟩⟩
    exact le_trans (h.below e) (le_of_le_of_eq le_sup_left (prio_merge _ _ e).symm)
  | addRawMaxSignal signal prio =>
    refine ⟨_, _, rfl, ?_⟩
    unfold addRawMaxSignal
    by_cases hempty : (c.maxSignal.diffRaw signal prio).isEmpty = true
    · rw [if_pos hempty]
      exact h
    · rw [if_neg hempty]
      refine ⟨fun e => ?_, h.length, h.increasing, h.bounded, h.last⟩
      exact le_trans (h.below e) (le_of_le_of_eq le_sup_left (prio_merge _ _ e).symm)
  | grabNewSignal => exact ⟨_, _, rfl, ⟨h.below, h.length, h.increasing, h.bounded, h.last⟩⟩
  | chooseProgram draw =>
    obtain ⟨p, hp⟩ := h.chooseProgram_isSome draw
    exact ⟨.program p, c, by rw [Corpus.step, hp]; rfl, h⟩

end Corpus

/-! ## What a method returns -/

/-- The difference that a method returns. -/
def CorpusOutput.diffs {P : Type} : CorpusOutput P → List Signal
  | .diff d => [d]
  | _ => []

/-- The signal that a method hands over. -/
def CorpusOutput.grabs {P : Type} : CorpusOutput P → List Signal
  | .grabbed s => [s]
  | _ => []

/-- The program that a method is asked to save, with its hash. -/
def CorpusOp.saves {P S : Type} : CorpusOp P S → List (P × S)
  | .save p _ sig => [(p, sig)]
  | _ => []

namespace CorpusEvent

variable {P S : Type}

/-- Raw signal raises the priority of `e` to `p`. -/
def Improves (ev : CorpusEvent P S) (e : UInt32) (p : Int8) : Prop :=
  (∃ signal prio, ev.op = .addRawMaxSignal signal prio) ∧
    ev.before.maxSignal.prio e < ev.after.maxSignal.prio e ∧ ev.after.maxSignal.prio e = p

/-- The method returns `e` with the priority `p` as new. -/
def Returns (ev : CorpusEvent P S) (e : UInt32) (p : Int8) : Prop :=
  ∃ d ∈ ev.output.diffs, d.prio e = p

variable [DecidableEq S]

/-- The event is a method call. -/
def Valid (ev : CorpusEvent P S) : Prop := ev.before.step ev.op = some (ev.output, ev.after)

variable {ev : CorpusEvent P S}

omit [DecidableEq S] in
/-- The state and the difference after raw signal. -/
theorem addRaw_cases {c : Corpus P S} {signal : List UInt32} {prio : UInt8} :
    (c.addRawMaxSignal signal prio).1 = c.maxSignal.diffRaw signal prio ∧
      (∀ e, (c.addRawMaxSignal signal prio).2.maxSignal.prio e =
        c.maxSignal.prio e ⊔ (c.maxSignal.diffRaw signal prio).prio e) ∧
      ∀ e, (c.addRawMaxSignal signal prio).2.newSignal.prio e =
        c.newSignal.prio e ⊔ (c.maxSignal.diffRaw signal prio).prio e := by
  unfold Corpus.addRawMaxSignal
  by_cases hempty : (c.maxSignal.diffRaw signal prio).isEmpty = true
  · rw [if_pos hempty]
    have hbot := isEmpty_iff.mp hempty
    exact ⟨rfl, fun e => by rw [hbot, sup_bot_eq], fun e => by rw [hbot, sup_bot_eq]⟩
  · rw [if_neg hempty]
    exact ⟨rfl, prio_merge _ _, prio_merge _ _⟩

/-- **The maximal signal never gets smaller.** -/
theorem Valid.max_le (h : ev.Valid) (e : UInt32) :
    ev.before.maxSignal.prio e ≤ ev.after.maxSignal.prio e := by
  obtain ⟨c, op, out, c'⟩ := ev
  change c.step op = some (out, c') at h
  cases op with
  | save p signal sig | addMaxSignal sign =>
    cases h
    exact le_of_le_of_eq le_sup_left (prio_merge _ _ e).symm
  | addRawMaxSignal signal prio =>
    cases h
    exact le_of_le_of_eq le_sup_left (addRaw_cases.2.1 e).symm
  | grabNewSignal =>
    cases h
    exact le_refl _
  | chooseProgram draw =>
    obtain ⟨p, -, heq⟩ := Option.map_eq_some_iff.mp h
    cases heq
    exact le_refl _

/-- **A call returns exactly what it improves.** -/
theorem Valid.returns_iff (h : ev.Valid) (e : UInt32) (p : Int8) :
    ev.Returns e p ↔ ev.Improves e p := by
  obtain ⟨c, op, out, c'⟩ := ev
  have hother : (∀ signal prio, op ≠ .addRawMaxSignal signal prio) → out.diffs = [] →
      (Returns ⟨c, op, out, c'⟩ e p ↔ Improves ⟨c, op, out, c'⟩ e p) := by
    intro hop hdiffs
    refine iff_of_false ?_ ?_
    · rintro ⟨d, hd, -⟩
      rw [hdiffs] at hd
      cases hd
    · rintro ⟨⟨signal, prio, heq⟩, -⟩
      exact hop signal prio heq
  change c.step op = some (out, c') at h
  cases op with
  | save p signal sig | addMaxSignal sign =>
    cases h
    exact hother (by rintro _ _ ⟨⟩) rfl
  | addRawMaxSignal signal prio =>
    cases h
    have hret : Returns (P := P) (S := S) ⟨c, .addRawMaxSignal signal prio,
        .diff (c.addRawMaxSignal signal prio).1, (c.addRawMaxSignal signal prio).2⟩ e p ↔
        (c.maxSignal.diffRaw signal prio).prio e = p := by
      unfold Returns CorpusOutput.diffs
      simp only [mem_singleton, exists_eq_left, addRaw_cases.1]
    unfold Improves
    rw [hret]
    rw [addRaw_cases.2.1 e, prio_diffRaw]
    split_ifs with hnew
    · rw [sup_eq_right.mpr hnew.2.le]
      exact ⟨fun heq => ⟨⟨_, _, rfl⟩, hnew.2, heq⟩, fun heq => heq.2.2⟩
    · rw [sup_bot_eq]
      exact iff_of_false (fun heq => WithBot.bot_ne_coe heq) fun himp => lt_irrefl _ himp.2.1
  | grabNewSignal =>
    cases h
    exact hother (by rintro _ _ ⟨⟩) rfl
  | chooseProgram draw =>
    obtain ⟨q, -, heq⟩ := Option.map_eq_some_iff.mp h
    cases heq
    exact hother (by rintro _ _ ⟨⟩) rfl

/-- **What a call adds to the new signal it returns, and what it takes away it hands
over.** -/
theorem Valid.new_balance (h : ev.Valid) (e : UInt32) :
    ev.before.newSignal.prio e ⊔ PrioMap.sup ev.output.diffs e =
      PrioMap.sup ev.output.grabs e ⊔ ev.after.newSignal.prio e := by
  obtain ⟨c, op, out, c'⟩ := ev
  have hother : out.diffs = [] → out.grabs = [] → c'.newSignal = c.newSignal →
      c.newSignal.prio e ⊔ PrioMap.sup out.diffs e =
        PrioMap.sup out.grabs e ⊔ c'.newSignal.prio e := by
    intro hdiffs hgrabs hnew
    rw [hdiffs, hgrabs, hnew, sup_nil, sup_bot_eq, bot_sup_eq]
  change c.step op = some (out, c') at h
  cases op with
  | save p signal sig =>
    cases h
    refine hother rfl rfl ?_
    unfold Corpus.save Corpus.store
    by_cases hsig : sig ∈ c.hashes
    · rw [if_pos hsig]
    · rw [if_neg hsig]
  | addMaxSignal sign =>
    cases h
    exact hother rfl rfl rfl
  | addRawMaxSignal signal prio =>
    cases h
    dsimp only [CorpusOutput.diffs, CorpusOutput.grabs]
    rw [sup_cons, sup_nil, sup_bot_eq, bot_sup_eq, addRaw_cases.1,
      addRaw_cases.2.2 e]
  | grabNewSignal =>
    cases h
    dsimp only [CorpusOutput.diffs, CorpusOutput.grabs, Corpus.grabNewSignal]
    exact (sup_eq_left.mpr (le_of_eq_of_le (prio_empty e) bot_le)).symm
  | chooseProgram draw =>
    obtain ⟨q, -, heq⟩ := Option.map_eq_some_iff.mp h
    cases heq
    exact hother rfl rfl rfl

end CorpusEvent

/-! ## Histories -/

/-- The programs that are stored when `saved` are saved in turn. -/
structure Stores {P S : Type} (c : Corpus P S) (saved : List (P × S)) (c' : Corpus P S)
    (stored : List (P × S)) : Prop where
  sublist : stored.Sublist saved
  once : (stored.map Prod.snd).Nodup
  fresh : ∀ x ∈ stored, x.2 ∉ c.hashes
  progs : c'.progs = c.progs ++ stored.map Prod.fst
  hashes : ∀ s, s ∈ c'.hashes ↔ s ∈ c.hashes ∨ s ∈ stored.map Prod.snd
  all : ∀ x ∈ saved, x.2 ∈ c'.hashes

namespace Stores

variable {P S : Type} {c c' c'' : Corpus P S} {saved saved' stored stored' : List (P × S)}

theorem trans (h : Stores c saved c' stored) (h' : Stores c' saved' c'' stored') :
    Stores c (saved ++ saved') c'' (stored ++ stored') where
  sublist := h.sublist.append h'.sublist
  once := by
    rw [map_append, nodup_append]
    refine ⟨h.once, h'.once, ?_⟩
    rintro s hs _ hs' rfl
    obtain ⟨x, hx, rfl⟩ := mem_map.mp hs'
    exact h'.fresh x hx ((h.hashes _).mpr (.inr hs))
  fresh := by
    intro x hx hmem
    rcases mem_append.mp hx with hx | hx
    · exact h.fresh x hx hmem
    · exact h'.fresh x hx ((h.hashes _).mpr (.inl hmem))
  progs := by rw [h'.progs, h.progs, map_append, append_assoc]
  hashes := by
    intro s
    rw [h'.hashes, h.hashes, map_append, mem_append, or_assoc]
  all := by
    intro x hx
    rcases mem_append.mp hx with hx | hx
    · exact (h'.hashes _).mpr (.inl (h.all x hx))
    · exact h'.all x hx

/-- Nothing is saved. -/
theorem same (hprogs : c'.progs = c.progs) (hhashes : c'.hashes = c.hashes) :
    Stores c [] c' [] where
  sublist := .slnil
  once := nodup_nil
  fresh := fun x hx => by cases hx
  progs := by rw [hprogs, map_nil, append_nil]
  hashes := fun s => by simp [hhashes]
  all := fun x hx => by cases hx

variable [DecidableEq S]

/-- `Save` stores the program if its hash is new. -/
theorem save (c : Corpus P S) (p : P) (signal : Signal) (sig : S) :
    ∃ stored, Stores c [(p, sig)] (c.save p signal sig) stored := by
  by_cases hsig : sig ∈ c.hashes
  · refine ⟨[], nil_sublist _, nodup_nil, fun x hx => (by cases hx), ?_, ?_, ?_⟩
    · unfold Corpus.save Corpus.store
      rw [if_pos hsig, map_nil, append_nil]
    · intro s
      unfold Corpus.save Corpus.store
      rw [if_pos hsig]
      simp
    · intro x hx
      rw [mem_singleton] at hx
      subst hx
      unfold Corpus.save Corpus.store
      rw [if_pos hsig]
      exact hsig
  · refine ⟨[(p, sig)], List.Sublist.refl _, nodup_singleton _, ?_, ?_, ?_, ?_⟩
    · intro x hx
      rw [mem_singleton] at hx
      subst hx
      exact hsig
    · unfold Corpus.save Corpus.store
      rw [if_neg hsig]
      rfl
    · intro s
      unfold Corpus.save Corpus.store
      rw [if_neg hsig]
      simp [or_comm]
    · intro x hx
      rw [mem_singleton] at hx
      subst hx
      unfold Corpus.save Corpus.store
      rw [if_neg hsig]
      exact Finset.mem_insert_self _ _

theorem event {ev : CorpusEvent P S} (h : ev.Valid) :
    ∃ stored, Stores ev.before ev.op.saves ev.after stored := by
  obtain ⟨c, op, out, c'⟩ := ev
  change c.step op = some (out, c') at h
  cases op with
  | save p signal sig =>
    cases h
    exact save c p signal sig
  | addMaxSignal sign =>
    cases h
    exact ⟨[], same rfl rfl⟩
  | addRawMaxSignal signal prio =>
    cases h
    have hsame : (c.addRawMaxSignal signal prio).2.progs = c.progs ∧
        (c.addRawMaxSignal signal prio).2.hashes = c.hashes := by
      unfold Corpus.addRawMaxSignal
      by_cases hempty : (c.maxSignal.diffRaw signal prio).isEmpty = true
      · rw [if_pos hempty]
        exact ⟨rfl, rfl⟩
      · rw [if_neg hempty]
        exact ⟨rfl, rfl⟩
    exact ⟨[], same hsame.1 hsame.2⟩
  | grabNewSignal =>
    cases h
    exact ⟨[], same rfl rfl⟩
  | chooseProgram draw =>
    obtain ⟨q, -, heq⟩ := Option.map_eq_some_iff.mp h
    cases heq
    exact ⟨[], same rfl rfl⟩

end Stores

/-- What a history of the corpus accounts for. -/
structure Accounted {P S : Type} (events : List (CorpusEvent P S)) (c : Corpus P S) : Prop where
  below : ∀ e, c.signal.prio e ≤ c.maxSignal.prio e
  returned : ∀ ev ∈ events, ∀ e p, ev.Improves e p →
    ∃! j : Nat, ∃ ev' : CorpusEvent P S, events[j]? = some ev' ∧ ev'.Returns e p
  grabbed : ∀ e, PrioMap.sup (events.flatMap fun ev => ev.output.grabs) e ⊔ c.newSignal.prio e =
    PrioMap.sup (events.flatMap fun ev => ev.output.diffs) e
  stored : ∃ stored, Stores (newCorpus P S) (events.flatMap fun ev => ev.op.saves) c stored
  increasing : c.accPrios.Pairwise (· < ·)
  last : c.progs ≠ [] → c.accPrios.getLast? = some c.sumPrios
  inRange : ∀ draw, ∃ p, c.chooseProgram draw = some p

namespace Corpus

variable {P S : Type} [DecidableEq S] {c c' : Corpus P S} {events : List (CorpusEvent P S)}

theorem run_cons {op : CorpusOp P S} {ops : List (CorpusOp P S)} :
    c.run (op :: ops) = some (events, c') ↔ ∃ out c₁ tail, c.step op = some (out, c₁) ∧
      c₁.run ops = some (tail, c') ∧ events = ⟨c, op, out, c₁⟩ :: tail := by
  rw [run, Option.bind_eq_some_iff]
  constructor
  · rintro ⟨⟨out, c₁⟩, hstep, hmap⟩
    obtain ⟨⟨tail, c₂⟩, hrun, heq⟩ := Option.map_eq_some_iff.mp hmap
    obtain ⟨rfl, rfl⟩ := Prod.mk.inj heq
    exact ⟨out, c₁, tail, hstep, hrun, rfl⟩
  · rintro ⟨out, c₁, tail, hstep, hrun, rfl⟩
    exact ⟨(out, c₁), hstep, by rw [hrun]; rfl⟩

/-- No history fails, and all keep the invariant. -/
theorem Ok.run (ops : List (CorpusOp P S)) : ∀ {c : Corpus P S}, c.Ok →
    ∃ events c', c.run ops = some (events, c') ∧ c'.Ok := by
  induction ops with
  | nil =>
    intro c h
    exact ⟨[], c, rfl, h⟩
  | cons op ops ih =>
    intro c h
    obtain ⟨out, c₁, hstep, h₁⟩ := h.step op
    obtain ⟨tail, c', hrun, h'⟩ := ih h₁
    exact ⟨_, c', run_cons.mpr ⟨out, c₁, tail, hstep, hrun, rfl⟩, h'⟩

/-- The events of a history are method calls, and the maximal signal after one is
below the maximal signal before each later one. -/
theorem run_events (ops : List (CorpusOp P S)) : ∀ {c : Corpus P S}
    {events : List (CorpusEvent P S)}, c.run ops = some (events, c') →
    (∀ ev ∈ events, ev.Valid ∧ ∀ e, c.maxSignal.prio e ≤ ev.before.maxSignal.prio e) ∧
      events.Pairwise fun ev ev' => ∀ e, ev.after.maxSignal.prio e ≤ ev'.before.maxSignal.prio e := by
  induction ops with
  | nil =>
    intro c events h
    cases h
    exact ⟨fun ev hev => (by cases hev), .nil⟩
  | cons op ops ih =>
    intro c events h
    obtain ⟨out, c₁, tail, hstep, hrun, rfl⟩ := run_cons.mp h
    obtain ⟨hvalid, hpairs⟩ := ih hrun
    have hfirst : CorpusEvent.Valid ⟨c, op, out, c₁⟩ := hstep
    refine ⟨?_, .cons (fun ev hev => (hvalid ev hev).2) hpairs⟩
    intro ev hev
    rcases mem_cons.mp hev with rfl | hev
    · exact ⟨hfirst, fun e => le_refl _⟩
    · exact ⟨(hvalid ev hev).1, fun e => le_trans (hfirst.max_le e) ((hvalid ev hev).2 e)⟩

/-- The new signal over a history. -/
theorem run_new (ops : List (CorpusOp P S)) : ∀ {c : Corpus P S}
    {events : List (CorpusEvent P S)}, c.run ops = some (events, c') → ∀ e,
    c.newSignal.prio e ⊔ PrioMap.sup (events.flatMap fun ev => ev.output.diffs) e =
      PrioMap.sup (events.flatMap fun ev => ev.output.grabs) e ⊔ c'.newSignal.prio e := by
  induction ops with
  | nil =>
    intro c events h e
    cases h
    exact sup_comm _ _
  | cons op ops ih =>
    intro c events h e
    obtain ⟨out, c₁, tail, hstep, hrun, rfl⟩ := run_cons.mp h
    have hfirst : CorpusEvent.Valid ⟨c, op, out, c₁⟩ := hstep
    rw [flatMap_cons, flatMap_cons, sup_append, sup_append, ← sup_assoc,
      hfirst.new_balance e, sup_assoc, ih hrun e, sup_assoc]

theorem run_stores (ops : List (CorpusOp P S)) : ∀ {c : Corpus P S}
    {events : List (CorpusEvent P S)}, c.run ops = some (events, c') →
    ∃ stored, Stores c (events.flatMap fun ev => ev.op.saves) c' stored := by
  induction ops with
  | nil =>
    intro c events h
    cases h
    exact ⟨[], .same rfl rfl⟩
  | cons op ops ih =>
    intro c events h
    obtain ⟨out, c₁, tail, hstep, hrun, rfl⟩ := run_cons.mp h
    have hfirst : CorpusEvent.Valid ⟨c, op, out, c₁⟩ := hstep
    obtain ⟨stored, hstored⟩ := Stores.event hfirst
    obtain ⟨stored', hstored'⟩ := ih hrun
    exact ⟨stored ++ stored', hstored.trans hstored'⟩

/-- **An improvement is returned once**: after the call that makes it, no raw signal
improves the element to the same priority. -/
theorem returned_once {ops : List (CorpusOp P S)} (h : c.run ops = some (events, c'))
    {ev : CorpusEvent P S} (hev : ev ∈ events) {e : UInt32} {p : Int8} (himp : ev.Improves e p) :
    ∃! j : Nat, ∃ ev' : CorpusEvent P S, events[j]? = some ev' ∧ ev'.Returns e p := by
  obtain ⟨hvalid, hpairs⟩ := run_events ops h
  -- of two calls that return `e` with `p`, the later one would have found it
  have hnot : ∀ i j : Nat, i < j → ∀ a b, events[i]? = some a → events[j]? = some b →
      a.Returns e p → ¬ b.Returns e p := by
    intro i j hij a b ha hb hra hrb
    obtain ⟨hi, hai⟩ := List.getElem?_eq_some_iff.mp ha
    obtain ⟨hj, hbj⟩ := List.getElem?_eq_some_iff.mp hb
    have hle := List.pairwise_iff_getElem.mp hpairs i j hi hj hij e
    rw [hai, hbj] at hle
    have hia := ((hvalid a (mem_of_getElem? ha)).1.returns_iff e p).mp hra
    have hib := ((hvalid b (mem_of_getElem? hb)).1.returns_iff e p).mp hrb
    have hlt := hib.2.1
    rw [hib.2.2] at hlt
    rw [hia.2.2] at hle
    exact absurd hle (not_le.mpr hlt)
  obtain ⟨i, hi, hget⟩ := List.mem_iff_getElem.mp hev
  have hi' : events[i]? = some ev := List.getElem?_eq_some_iff.mpr ⟨hi, hget⟩
  have hret : ev.Returns e p := ((hvalid ev hev).1.returns_iff e p).mpr himp
  refine ⟨i, ⟨ev, hi', hret⟩, ?_⟩
  rintro j ⟨ev', hj, hret'⟩
  rcases lt_trichotomy j i with hlt | rfl | hlt
  · exact absurd hret (hnot j i hlt ev' ev hj hi' hret')
  · rfl
  · exact absurd hret' (hnot i j hlt ev ev' hi' hj hret)

end Corpus

/-- **Every history of a new corpus accounts for its signals, programs and
priorities.** -/
theorem corpus_accounting {P S : Type} [DecidableEq S] (ops : List (CorpusOp P S)) :
    ∃ events c, (newCorpus P S).run ops = some (events, c) ∧ Accounted events c := by
  obtain ⟨events, c, hrun, hok⟩ := Corpus.Ok.run ops (@Corpus.ok_new P S)
  refine ⟨events, c, hrun, hok.below, ?_, ?_, Corpus.run_stores ops hrun, hok.increasing,
    hok.last, hok.chooseProgram_isSome⟩
  · intro ev hev e p himp
    exact Corpus.returned_once hrun hev himp
  · intro e
    rw [← Corpus.run_new ops hrun e]
    exact bot_sup_eq _

end Sect.Fuzzer
