import SectProof.ManagerServer

/-! # The corpus carries all accepted signal

The server accumulates the signal of the inputs it accepted in `corpusSignal`; the
manager keeps the inputs themselves, merges the signals of a program that comes
again, and from time to time drops the inputs that `signal.Minimize` does not
need.  The two are updated under different conditions.

`Minimize` keeps for every element an input with the greatest priority, so it
does not change the pointwise maximum (`minimize_best`).  **`corpus_carries_signal`**:
in every run the maximum over the corpus is `corpusSignal`, and every program of
the corpus has its record in the database.
-/

open List Option Std.ExtTreeMap Table

namespace Sect.Rpc

open PrioMap
open Sect.Fuzzer (Signal)

/-! ### `signal.Minimize` -/

section Minimize
variable {C : Type}

/-- The best priorities, without the inputs they are from. -/
def Covered.best (covered : Covered) : Signal := covered.map fun _ c => c.1

theorem Covered.prio_best (covered : Covered) (e : UInt32) :
    covered.best.prio e = (covered[e]?).elim ⊥ fun c => ((c.1 : Int8) : WithBot Int8) := by
  rw [PrioMap.prio, best, Std.ExtTreeMap.getElem?_map]
  cases covered[e]? <;> rfl

theorem coverElem_eq (i : Nat) (covered : Covered) (d : UInt32 × Int8) :
    coverElem i covered d =
      if covered.best.prio d.1 < d.2 then covered.insert d.1 (d.2, i) else covered := by
  unfold coverElem
  rw [Covered.prio_best]
  cases covered[d.1]? with
  | none => exact (if_pos (WithBot.bot_lt_coe _)).symm
  | some c => simp only [elim_some, WithBot.coe_lt_coe, gt_iff_lt]

theorem best_insert (covered : Covered) (k : UInt32) (c : Int8 × Nat) :
    Covered.best (covered.insert k c) = covered.best.insert k c.1 := by
  refine Std.ExtTreeMap.ext_getElem? fun e => ?_
  rw [Covered.best, Covered.best, Std.ExtTreeMap.getElem?_map, Std.ExtTreeMap.getElem?_insert,
    Std.ExtTreeMap.getElem?_insert, Std.ExtTreeMap.getElem?_map]
  split <;> rfl

/-- The loop raises the best priorities as a merge does. -/
theorem best_coverElem (i : Nat) (covered : Covered) (d : UInt32 × Int8) :
    (coverElem i covered d).best = PrioMap.raise covered.best d.1 d.2 := by
  rw [coverElem_eq, PrioMap.raise]
  split
  · exact best_insert covered d.1 (d.2, i)
  · rfl

theorem best_foldl_coverElem (i : Nat) (l : List (UInt32 × Int8)) (covered : Covered) :
    Covered.best (l.foldl (coverElem i) covered) =
      l.foldl (fun m e => PrioMap.raise m e.1 e.2) covered.best := by
  induction l generalizing covered with
  | nil => rfl
  | cons d l ih => rw [foldl_cons, ih, best_coverElem, foldl_cons]

/-- **The best priorities are the pointwise maximum of the inputs.** -/
theorem prio_best_coverInputs (inputs : List (Signal × C)) (i : Nat) (covered : Covered)
    (e : UInt32) :
    (coverInputs i inputs covered).best.prio e =
      covered.best.prio e ⊔ PrioMap.sup (inputs.map Prod.fst) e := by
  induction inputs generalizing i covered with
  | nil => rw [coverInputs, map_nil, sup_nil, sup_bot_eq]
  | cons inp inputs ih =>
    have hmerge : Covered.best (inp.1.toList.foldl (coverElem i) covered) =
        PrioMap.merge covered.best inp.1 := best_foldl_coverElem i _ covered
    rw [coverInputs, ih, hmerge, prio_merge, map_cons, sup_cons, sup_assoc]

/-- Every best priority is one of the input it points to. -/
def FromInputs (inputs : List (Signal × C)) (covered : Covered) : Prop :=
  ∀ (e : UInt32) (c : Int8 × Nat), covered[e]? = some c →
    ∃ inp, inputs[c.2]? = some inp ∧ PrioMap.prio inp.1 e = c.1

variable {covered : Covered}

variable {inputs : List (Signal × C)} {i : Nat} {inp : Signal × C}

theorem FromInputs.coverElem (h : FromInputs inputs covered) (hinp : inputs[i]? = some inp)
    {d : UInt32 × Int8} (hd : PrioMap.prio inp.1 d.1 = d.2) :
    FromInputs inputs (coverElem i covered d) := by
  rw [coverElem_eq]
  split
  · intro e c hc
    rw [Std.ExtTreeMap.getElem?_insert] at hc
    split at hc
    · rename_i hcmp
      obtain rfl := Std.LawfulEqOrd.compare_eq_iff_eq.mp hcmp
      cases hc
      exact ⟨inp, hinp, hd⟩
    · exact h e c hc
  · exact h

theorem FromInputs.foldl (hinp : inputs[i]? = some inp) {l : List (UInt32 × Int8)}
    (h : FromInputs inputs covered) (hl : ∀ d ∈ l, PrioMap.prio inp.1 d.1 = d.2) :
    FromInputs inputs (l.foldl (Rpc.coverElem i) covered) := by
  induction l generalizing covered with
  | nil => exact h
  | cons d l ih =>
    rw [forall_mem_cons] at hl
    exact ih (h.coverElem hinp hl.1) hl.2

/-- The loop over the inputs that are left, `done` of them having been seen. -/
theorem fromInputs_coverInputs (done rest : List (Signal × C))
    (h : FromInputs (done ++ rest) covered) :
    FromInputs (done ++ rest) (coverInputs done.length rest covered) := by
  induction rest generalizing done covered with
  | nil => exact h
  | cons inp rest ih =>
    have hinp : (done ++ inp :: rest)[done.length]? = some inp := by simp
    have hstep := FromInputs.foldl hinp h fun d hd => prio_of_mem_toList (m := inp.1) hd
    rw [append_cons] at hstep ⊢
    have hnext := ih (done ++ [inp]) hstep
    rwa [length_append, length_singleton] at hnext

/-- `Minimize` keeps only contexts that it was given. -/
theorem exists_of_mem_minimize {corpus : List (Signal × C)} {c : C} (h : c ∈ minimize corpus) :
    ∃ s, (s, c) ∈ corpus := by
  obtain ⟨idx, -, hidx⟩ := mem_filterMap.mp h
  obtain ⟨inp, hinp, rfl⟩ := map_eq_some_iff.mp hidx
  exact ⟨inp.1, mem_of_getElem? hinp⟩

/-- The loop finds for every element an input that has it with the greatest priority. -/
theorem coverInputs_best (corpus : List (Signal × C)) (e : UInt32) :
    PrioMap.sup (corpus.map Prod.fst) e = ⊥ ∨
      ∃ c inp, (e, c) ∈ (coverInputs 0 corpus ∅).toList ∧ corpus[c.2]? = some inp ∧
        PrioMap.prio inp.1 e = PrioMap.sup (corpus.map Prod.fst) e := by
  have hbest := prio_best_coverInputs corpus 0 ∅ e
  have hempty : Covered.best ∅ = ∅ := by
    refine ext_prio fun k => ?_
    rfl
  rw [hempty, prio_empty, bot_sup_eq, Covered.prio_best] at hbest
  cases hc : (coverInputs 0 corpus ∅)[e]? with
  | none =>
    rw [hc] at hbest
    exact .inl hbest.symm
  | some c =>
    rw [hc, elim_some] at hbest
    have hfrom : FromInputs ([] ++ corpus) ∅ := fun k d hd => by
      cases hd
    obtain ⟨inp, hinp, hprio⟩ := fromInputs_coverInputs [] corpus hfrom e c hc
    exact .inr ⟨c, inp, mem_toList_iff_getElem?_eq_some.mpr hc, hinp,
      hprio.trans hbest⟩

/-- **For every element `Minimize` keeps an input with the greatest priority.** -/
theorem minimize_best (corpus : List (Signal × C)) (e : UInt32) :
    PrioMap.sup (corpus.map Prod.fst) e = ⊥ ∨
      ∃ inp ∈ corpus, inp.2 ∈ minimize corpus ∧
        PrioMap.prio inp.1 e = PrioMap.sup (corpus.map Prod.fst) e := by
  refine (coverInputs_best corpus e).imp_right ?_
  rintro ⟨c, inp, hc, hinp, hprio⟩
  refine ⟨inp, mem_of_getElem? hinp, ?_, hprio⟩
  exact mem_filterMap.mpr ⟨c.2, mem_dedup.mpr (mem_map.mpr ⟨(e, c), hc, rfl⟩), by rw [hinp]; rfl⟩

end Minimize

/-! ### The corpus -/

section Corpus
variable {P H : Type}

/-- The pointwise maximum of the signals in the corpus. -/
def corpusMax (corpus : Table H (CorpusItem P)) (e : UInt32) : WithBot Int8 :=
  PrioMap.sup (corpus.entries.map fun x => Signal.deserialize x.2.signal) e

variable [DecidableEq H]

variable {corpus : Table H (CorpusItem P)} {k : H} {item : CorpusItem P} {T : Target P H}

theorem corpusMax_le_iff {e : UInt32} {p : WithBot Int8} :
    corpusMax corpus e ≤ p ↔
      ∀ k item, corpus.lookup k = some item → (Signal.deserialize item.signal).prio e ≤ p := by
  rw [corpusMax, sup_le_iff_forall]
  constructor
  · intro h k item hitem
    exact h _ (mem_map_of_mem (mem_entries_iff.mpr hitem))
  · rintro h m hm
    obtain ⟨x, hx, rfl⟩ := mem_map.mp hm
    exact h x.1 x.2 (mem_entries_iff.mp hx)

theorem le_corpusMax (h : corpus.lookup k = some item) (e : UInt32) :
    (Signal.deserialize item.signal).prio e ≤ corpusMax corpus e :=
  corpusMax_le_iff.mp le_rfl k item h

/-- Entering an item whose signal contains the one it replaces. -/
theorem corpusMax_insert {e : UInt32}
    (hold : ∀ old, corpus.lookup k = some old →
      (Signal.deserialize old.signal).prio e ≤ (Signal.deserialize item.signal).prio e) :
    corpusMax (corpus.insert k item) e =
      corpusMax corpus e ⊔ (Signal.deserialize item.signal).prio e := by
  refine eq_of_forall_ge_iff fun p => ?_
  rw [sup_le_iff, corpusMax_le_iff, corpusMax_le_iff]
  constructor
  · intro h
    have hitem := h k item (lookup_insert_self k item corpus)
    refine ⟨fun j old hj => ?_, hitem⟩
    by_cases hjk : j = k
    · subst hjk
      exact (hold old hj).trans hitem
    · exact h j old (by rw [lookup_insert_of_ne hjk]; exact hj)
  · rintro ⟨hall, hitem⟩ j new hj
    rw [lookup_insert] at hj
    split at hj
    · cases hj
      exact hitem
    · exact hall j new hj

/-- Every item is filed under the hash of its program. -/
def Keyed (T : Target P H) (corpus : Table H (CorpusItem P)) : Prop :=
  ∀ k item, corpus.lookup k = some item → T.hash item.prog = k

theorem Keyed.insert (h : Keyed T corpus) (hkey : T.hash item.prog = k) :
    Keyed T (corpus.insert k item) := by
  intro j other hj
  rw [lookup_insert] at hj
  split at hj
  · rename_i hjk
    cases hj
    exact hkey.trans hjk.symm
  · exact h j other hj

section Minimized
variable {T : Target P H} {mgr : Manager P H} (hkeyed : Keyed T mgr.corpus)
  (order : CorpusOrder P H)
include hkeyed

variable {item : CorpusItem P}

theorem mem_sortedInputs :
    item ∈ mgr.sortedInputs order ↔ mgr.corpus.lookup (T.hash item.prog) = some item := by
  rw [Manager.sortedInputs, mem_mergeSort, List.mem_map]
  constructor
  · rintro ⟨x, hx, rfl⟩
    have hx' := mem_entries_iff.mp ((order.perm mgr.corpus).mem_iff.mp hx)
    rwa [hkeyed x.1 x.2 hx']
  · intro hitem
    exact ⟨_, (order.perm mgr.corpus).mem_iff.mpr (mem_entries_iff.mpr hitem), rfl⟩

/-- What is kept was in the corpus. -/
theorem lookup_of_mem_keptInputs (h : item ∈ mgr.keptInputs order) :
    mgr.corpus.lookup (T.hash item.prog) = some item := by
  obtain ⟨s, hs⟩ := exists_of_mem_minimize h
  obtain ⟨inp, hinp, heq⟩ := mem_map.mp hs
  obtain ⟨-, rfl⟩ := Prod.mk.inj heq
  exact (mem_sortedInputs hkeyed order).mp hinp

/-- What is kept is in the new corpus. -/
theorem lookup_keepMinimized_of_mem (h : item ∈ mgr.keptInputs order) :
    (mgr.keepMinimized T order).corpus.lookup (T.hash item.prog) = some item := by
  refine lookup_foldl_insert_of_mem (fun inp : CorpusItem P => T.hash inp.prog) id h
    (fun b hb hkey => ?_) .empty
  have hb' := lookup_of_mem_keptInputs hkeyed order hb
  rw [hkey, lookup_of_mem_keptInputs hkeyed order h] at hb'
  exact (some.inj hb').symm

/-- The new corpus is a part of the old one. -/
theorem lookup_keepMinimized {k : H} (h : (mgr.keepMinimized T order).corpus.lookup k = some item) :
    mgr.corpus.lookup k = some item := by
  have hfind := (Table.lookup_foldl_insert (fun inp : CorpusItem P => T.hash inp.prog) id
    (mgr.keptInputs order) .empty k).symm.trans h
  rw [Table.lookup_empty, Option.or_none, Option.map_id_fun, id_eq] at hfind
  have hfound := find?_some hfind
  have hkey : T.hash item.prog = k := of_decide_eq_true hfound
  rw [← hkey]
  exact lookup_of_mem_keptInputs hkeyed order
    (mem_reverse.mp (mem_of_find?_eq_some hfind))

/-- **Minimizing does not change the maximum.** -/
theorem corpusMax_keepMinimized (e : UInt32) :
    corpusMax (mgr.keepMinimized T order).corpus e = corpusMax mgr.corpus e := by
  refine le_antisymm (corpusMax_le_iff.mpr fun k item hitem =>
    le_corpusMax (lookup_keepMinimized hkeyed order hitem) e) ?_
  set contexts := (mgr.sortedInputs order).map fun inp => (Signal.deserialize inp.signal, inp)
    with hcontexts
  have hall : corpusMax mgr.corpus e ≤ PrioMap.sup (contexts.map Prod.fst) e := by
    refine corpusMax_le_iff.mpr fun k item hitem => le_sup ?_ e
    have hin := (mem_sortedInputs hkeyed order).mpr (by rwa [hkeyed k item hitem])
    exact mem_map.mpr ⟨_, mem_map.mpr ⟨item, hin, rfl⟩, rfl⟩
  -- The greatest priority of every element is that of an input that is kept.
  rcases minimize_best contexts e with hbot | ⟨inp, hinp, hin, hprio⟩
  · rw [hbot] at hall
    exact hall.trans bot_le
  · obtain ⟨item, -, rfl⟩ := mem_map.mp hinp
    have hlookup := lookup_keepMinimized_of_mem hkeyed order hin
    exact hall.trans (hprio.symm.le.trans (le_corpusMax hlookup e))

end Minimized

/-! ### The invariant -/

/-- **The corpus carries the accepted signal and its programs are in the database.** -/
structure Carries (T : Target P H) (serv : Server P H) : Prop where
  keyed : Keyed T serv.mgr.corpus
  signal : ∀ e, corpusMax serv.mgr.corpus e = serv.corpusSignal.prio e
  stored : ∀ k item, serv.mgr.corpus.lookup k = some item →
    serv.mgr.corpusDB.lookup k = some item.prog

namespace Carries
variable {T : Target P H} {cfg : Config} {serv : Server P H}

variable {serv' : Server P H}

/-- A server whose corpus is a part of this one with the same maximum. -/
theorem shrink (h : Carries T serv)
    (hsub : ∀ k item, serv'.mgr.corpus.lookup k = some item → serv.mgr.corpus.lookup k = some item)
    (hmax : ∀ e, corpusMax serv'.mgr.corpus e = corpusMax serv.mgr.corpus e)
    (hdb : ∀ k item, serv'.mgr.corpus.lookup k = some item →
      serv'.mgr.corpusDB.lookup k = serv.mgr.corpusDB.lookup k)
    (hsignal : serv'.corpusSignal = serv.corpusSignal) : Carries T serv' where
  keyed k item hitem := h.keyed k item (hsub k item hitem)
  signal e := by rw [hmax e, h.signal e, hsignal]
  stored k item hitem := (hdb k item hitem).trans (h.stored k item (hsub k item hitem))

/-- A server with the same corpus. -/
theorem congr (h : Carries T serv) (hcorpus : serv'.mgr.corpus = serv.mgr.corpus)
    (hdb : serv'.mgr.corpusDB = serv.mgr.corpusDB)
    (hsignal : serv'.corpusSignal = serv.corpusSignal) : Carries T serv' :=
  h.shrink (fun _ _ hitem => hcorpus ▸ hitem) (fun e => by rw [hcorpus])
    (fun k _ _ => by rw [hdb]) hsignal

theorem lookup_purgeDB {mgr : Manager P H} {k : H} {item : CorpusItem P}
    (h : mgr.corpus.lookup k = some item) : mgr.purgeDB.corpusDB.lookup k = mgr.corpusDB.lookup k := by
  refine lookup_foldl_erase_of_notMem (fun e : H × P => e.1) (fun e he heq => ?_) _
  obtain ⟨-, hpurge⟩ := mem_filter.mp he
  rw [decide_eq_true_iff] at hpurge
  rw [heq, h] at hpurge
  cases hpurge.1

theorem minimizeCorpus (h : Carries T serv) (cfg : Config) (order : CorpusOrder P H) :
    Carries T { serv with mgr := serv.mgr.minimizeCorpus T cfg order } := by
  have hsub : ∀ k item, (serv.mgr.keepMinimized T order).corpus.lookup k = some item →
      serv.mgr.corpus.lookup k = some item :=
    fun _ _ hitem => lookup_keepMinimized h.keyed order hitem
  have hmax := corpusMax_keepMinimized h.keyed order
  rw [Manager.minimizeCorpus]
  split
  · exact h
  · split
    · exact h.shrink hsub hmax (fun _ _ _ => rfl) rfl
    · exact h.shrink hsub hmax (fun k item hitem => lookup_purgeDB hitem) rfl

/-- The call of `mgr.newInput`: its caller merges the signal that it returns. -/
theorem mgrNewInput (h : Carries T serv) {order : Signal.RangeOrder} {inp : Input P}
    {shared : List UInt32} {hasAny : Bool} {mgr : Manager P H} {sign : Signal}
    (hnew : serv.mgr.newInput T order inp shared (Signal.deserialize inp.signal) hasAny =
      some (mgr, sign)) :
    Keyed T mgr.corpus ∧
      (∀ k item, mgr.corpus.lookup k = some item → mgr.corpusDB.lookup k = some item.prog) ∧
      ∀ e, corpusMax mgr.corpus e = serv.corpusSignal.prio e ⊔ sign.prio e ∧
        serv.corpusSignal.prio e ⊔ sign.prio e =
          serv.corpusSignal.prio e ⊔ (Signal.deserialize inp.signal).prio e := by
  rw [Manager.newInput] at hnew
  split at hnew
  · cases hnew
  split at hnew
  · rename_i old hold
    obtain ⟨rfl, rfl⟩ := Prod.mk.inj (some.inj hnew)
    have hle : ∀ e, (Signal.deserialize old.signal).prio e ≤ serv.corpusSignal.prio e :=
      fun e => h.signal e ▸ le_corpusMax hold e
    refine ⟨h.keyed.insert (h.keyed _ old hold), fun k item hitem => ?_, fun e => ?_⟩
    · rw [lookup_insert] at hitem
      split at hitem
      · rename_i hk
        cases hitem
        rw [hk]
        exact h.stored _ old hold
      · exact h.stored k item hitem
    · rw [Signal.prio_merge, ← h.signal e]
      constructor
      · rw [corpusMax_insert, Signal.deserialize_serialize, Signal.prio_merge]
        intro other hother
        obtain rfl := some.inj (hold.symm.trans hother)
        rw [Signal.deserialize_serialize, Signal.prio_merge]
        exact le_sup_right
      · rw [h.signal e, ← sup_assoc, sup_eq_left.mpr ((hle e).trans le_sup_left)]
  · rename_i hnone
    obtain ⟨rfl, rfl⟩ := Prod.mk.inj (some.inj hnew)
    refine ⟨h.keyed.insert rfl, fun k item hitem => ?_, fun e => ⟨?_, rfl⟩⟩
    · rw [lookup_insert] at hitem ⊢
      split at hitem
      · rename_i hk
        cases hitem
        exact if_pos hk
      · rename_i hk
        rw [if_neg hk]
        exact h.stored k item hitem
    · rw [corpusMax_insert, h.signal e]
      intro other hother
      rw [hnone] at hother
      cases hother

/-- **`NewInput` enters signal into the corpus and into `corpusSignal` alike**: an
input that is accepted without being genuine has no new signal. -/
theorem newInput (h : Carries T serv) (hready : FilterReady cfg serv)
    (order : Signal.RangeOrder) (a : NewInputArgs P) :
    Carries T (serv.newInput T cfg order a) := by
  rw [Server.newInput]
  split
  · exact h
  rename_i r acc hacc
  obtain ⟨hasAny, mgr, -, -, hmgr, hr, -, -, hgenuine⟩ := Server.acceptInput_spec hacc
  obtain ⟨hkeyed, hstored, hsignal⟩ := h.mgrNewInput hmgr
  rw [(hready.acceptInput hacc).distribute_eq, hr]
  split
  · exact ⟨hkeyed, fun e => (hsignal e).1.trans (Signal.prio_merge _ _ e).symm, hstored⟩
  rename_i hold
  refine ⟨hkeyed, fun e => ?_, hstored⟩
  have hnothing : (serv.corpusSignal.diff
      (.deserialize (serv.canonicalInput a).signal)).isEmpty = true := by
    rw [hgenuine, Server.genuine] at hold
    simpa using hold
  rw [(hsignal e).1, (hsignal e).2]
  exact sup_eq_left.mpr (news_isEmpty_iff.mp hnothing e)

/-- The snapshot minimizes the corpus. -/
theorem snapshot (h : Carries T serv) {order snapshotOrder : CorpusOrder P H}
    {modules : List Cover.KernelModule} {r : Server P H × List (Input P)}
    (hsnap : serv.snapshot T cfg order snapshotOrder modules = some r) : Carries T r.1 := by
  obtain ⟨m, hm, rfl⟩ := map_eq_some_iff.mp hsnap
  have hcanonical : Carries T (serv.setCanonical cfg modules) := by
    rw [Server.setCanonical]
    split
    · exact h.congr rfl rfl rfl
    · exact h
  have hmin := hcanonical.minimizeCorpus cfg order
  rw [Manager.fuzzerConnect] at hm
  split at hm
  · cases hm
    exact hmin.congr rfl rfl rfl
  · obtain ⟨filter, -, rfl⟩ := map_eq_some_iff.mp hm
    exact hmin.congr rfl rfl rfl

theorem connect (h : Carries T serv) {a : ConnectArgs P H}
    (hconn : serv.connect T cfg a = some serv') : Carries T serv' := by
  obtain ⟨r, hsnap, hreg⟩ := bind_eq_some_iff.mp hconn
  obtain ⟨f, rfl, -⟩ := Server.register_spec hreg
  exact (h.snapshot hsnap).congr rfl rfl rfl

/-- A poll takes candidates and inputs, and leaves the corpus alone. -/
theorem poll (h : Carries T serv) (cfg : Config) (order : Signal.RangeOrder) (a : PollArgs) :
    Carries T (serv.poll cfg order a).1 := by
  rw [Server.poll]
  split
  · exact h
  have hmerged : Carries T (serv.mergeMaxSignal a.name (.deserialize a.maxSignal)) := by
    rw [Server.mergeMaxSignal]
    split <;> exact h.congr rfl rfl rfl
  dsimp only
  split
  · exact hmerged
  · rw [Server.pollCandidates]
    split <;> exact hmerged.congr rfl rfl rfl

end Carries

/-- **One call keeps the invariant.** -/
theorem carries_step {cfg : Config} {s s' : Server P H × List (Event P H)} {op : Op P H}
    (h : Carries T s.1 ∧ FilterReady cfg s.1) (hstep : Server.logged T cfg s op = some s') :
    Carries T s'.1 ∧ FilterReady cfg s'.1 := by
  obtain ⟨serv, events⟩ := s
  obtain ⟨hcarries, hready⟩ := h
  obtain ⟨r, hr, rfl⟩ := map_eq_some_iff.mp hstep
  cases op with
  | connect a =>
    obtain ⟨serv', hserv', rfl⟩ := map_eq_some_iff.mp hr
    refine ⟨hcarries.connect hserv', ?_⟩
    obtain ⟨r, hsnap, hreg⟩ := bind_eq_some_iff.mp hserv'
    obtain ⟨f, rfl, -⟩ := Server.register_spec hreg
    exact (hready.snapshot hsnap).congr rfl rfl
  | newInput order a =>
    cases hr
    exact ⟨hcarries.newInput hready order a, hready.newInput order a⟩
  | poll order a =>
    cases hr
    exact ⟨hcarries.poll cfg order a, hready.poll order a⟩
  | shutdownInstance name =>
    cases hr
    exact ⟨hcarries.congr rfl rfl rfl, hready.congr rfl rfl⟩
  | minimizeCorpus order =>
    cases hr
    exact ⟨hcarries.minimizeCorpus cfg order,
      hready.congr (FilterReady.minimizeCorpus_coverFilter order serv.mgr) rfl⟩

/-- A server that has not accepted anything yet. -/
theorem carries_of_empty {serv : Server P H} (hcorpus : serv.mgr.corpus = .empty)
    (hsignal : serv.corpusSignal = ∅) : Carries T serv where
  keyed k item hitem := by
    rw [hcorpus] at hitem
    cases hitem
  signal e := by
    rw [hcorpus, hsignal]
    exact (prio_empty e).symm
  stored k item hitem := by
    rw [hcorpus] at hitem
    cases hitem

/-- **The manager's corpus carries all accepted signal**: after any calls, starting
with an empty corpus, the maximum of the signals of the corpus is `corpusSignal`
and every program of the corpus has its record in the database. -/
theorem corpus_carries_signal (T : Target P H) (cfg : Config) {start : Server P H}
    (hcorpus : start.mgr.corpus = .empty) (hsignal : start.corpusSignal = ∅)
    (hready : FilterReady cfg start)
    (ops : List (Op P H)) {serv : Server P H} {h : List (Event P H)}
    (hrun : StepRuns.run (Server.logged T cfg) (start, []) ops = some (serv, h)) :
    (∀ e, PrioMap.sup (serv.mgr.corpus.entries.map fun x => Signal.deserialize x.2.signal) e =
        serv.corpusSignal.prio e) ∧
      ∀ k item, serv.mgr.corpus.lookup k = some item →
        T.hash item.prog = k ∧ serv.mgr.corpusDB.lookup k = some item.prog := by
  have hcarries : Carries T serv ∧ FilterReady cfg serv :=
    StepRuns.invariant (I := fun s => Carries T s.1 ∧ FilterReady cfg s.1)
      (fun _ _ _ => carries_step) ⟨carries_of_empty hcorpus hsignal, hready⟩ hrun
  exact ⟨hcarries.1.signal, fun k item hitem =>
    ⟨hcarries.1.keyed k item hitem, hcarries.1.stored k item hitem⟩⟩

/-- Two inputs of one program from a fuzzer, and then the corpus is minimized. -/
def repeatedInput : List (Op Nat Nat) :=
  [connectPlain 0 "vm-0" [],
    .newInput inOrder ⟨"vm-0", ⟨"open", 3, [(7, 1)], [7], 0, []⟩⟩,
    .newInput inOrder ⟨"vm-0", ⟨"open", 3, [(9, 2)], [9], 0, []⟩⟩,
    .minimizeCorpus corpusInOrder]

theorem corpus_carries_signal_repeated :
    ∃ (serv : Server Nat Nat) (h : List (Event Nat Nat)),
      StepRuns.run (Server.logged numbered plainConfig) (Server.start emptyManager, [])
        repeatedInput = some (serv, h) ∧
      serv.mgr.corpus.size = 1 ∧
      ∀ e, PrioMap.sup (serv.mgr.corpus.entries.map fun x => Signal.deserialize x.2.signal) e =
        serv.corpusSignal.prio e := by
  have hrun : (StepRuns.run (Server.logged numbered plainConfig) (Server.start emptyManager, [])
      repeatedInput).map (fun s => s.1.mgr.corpus.size) = some 1 := by
    decide +kernel
  obtain ⟨⟨serv, h⟩, hserv, hsize⟩ := map_eq_some_iff.mp hrun
  exact ⟨serv, h, hserv, hsize,
    (corpus_carries_signal _ _ rfl rfl ⟨fun _ => rfl, fun _ => rfl⟩ repeatedInput hserv).1⟩

end Corpus

end Sect.Rpc
