import SectProof.HubCorpus

/-! # Delivery of programs

**`corpus_delivered`**: in every run of connects, syncs and restarts, after a `Sync` that
says that nothing is left, every program in the hub whose calls the manager supports was
submitted by it or returned to it since it last connected fresh; and no program is
returned twice unless it was purged in between.

The invariant says it of the programs up to the cursor of the manager (`Informed.upTo`),
and that programs it has got and that were not purged since are up to the cursor
(`Informed.returned`).
-/

open List Option

namespace Sect.Hub
variable {K : Type} [DecidableEq K]

/-! ## The history of a hub -/

/-- What a call or a restart means for the delivery of programs. -/
inductive CorpusEvent (K : Type)
  | connect (name : String) (fresh : Bool) (calls : List CallName) (corpus : List Program)
      (purged : List K)
  | sync (name : String) (add returned : List Program) (more : Nat) (purged : List K)
  | restart (purged : List K)
  | other

/-- A call of a manager, or a restart of the hub. -/
inductive Op (K : Type)
  | call (c : Call K)
  | restart

def CorpusEvent.of (st st' : State K) : Call K → Reply → CorpusEvent K
  | .connect name _ fresh calls corpus, _ =>
    .connect name fresh calls corpus (purgedKeys st.corpus st'.corpus)
  | .sync _ name add del, .synced (.ok (_, progs, more)) =>
    .sync name add (progs.map HubInput.prog) more
      (purgedKeys st.corpus (st.deleteInputs name del).corpus)
  | _, _ => .other

/-- A step and the record of it; the newest comes first. -/
def State.logCorpus (hash : Program → K) (s : State K × List (CorpusEvent K)) :
    Op K → Option (State K × List (CorpusEvent K))
  | .call c => (s.1.call hash c).map fun r => (r.1, .of s.1 r.1 c r.2 :: s.2)
  | .restart =>
    some (s.1.restart hash,
      .restart (purgedKeys s.1.corpus (s.1.restart hash).corpus) :: s.2)

namespace CorpusEvent

/-- The programs that are purged from the hub. -/
def purged : CorpusEvent K → List K
  | .connect _ _ _ _ purged | .sync _ _ _ _ purged | .restart purged => purged
  | .other => []

def freshFor (name : String) : CorpusEvent K → Bool
  | .connect name' fresh _ _ _ => name' = name ∧ fresh
  | _ => false

def callsOf (name : String) : CorpusEvent K → Option (List CallName)
  | .connect name' _ calls _ _ => if name' = name then some calls else none
  | _ => none

def submittedBy (name : String) : CorpusEvent K → List Program
  | .connect name' _ _ corpus _ => if name' = name then corpus else []
  | .sync name' add _ _ _ => if name' = name then add else []
  | _ => []

def returnedTo (name : String) : CorpusEvent K → List Program
  | .sync name' _ returned _ _ => if name' = name then returned else []
  | _ => []

end CorpusEvent

section History
variable (name : String)

/-- The events since the manager last connected fresh, with this connect. -/
def sinceFresh : List (CorpusEvent K) → List (CorpusEvent K)
  | [] => []
  | ev :: h => if ev.freshFor name then [ev] else ev :: sinceFresh h

/-- The call sets with which it has connected. -/
def callSets (h : List (CorpusEvent K)) : List (List CallName) :=
  (sinceFresh name h).filterMap (CorpusEvent.callsOf name)

/-- What it has submitted. -/
def submittedInputs (h : List (CorpusEvent K)) : List Program :=
  (sinceFresh name h).flatMap (CorpusEvent.submittedBy name)

/-- What was returned to it. -/
def returnedInputs (h : List (CorpusEvent K)) : List Program :=
  (sinceFresh name h).flatMap (CorpusEvent.returnedTo name)

end History

/-- **Programs are delivered to the manager.**  The call set of a manager has not changed
if all call sets since it last connected fresh have the same calls. -/
structure CorpusDelivery (hash : Program → K) (name : String)
    (s : State K × List (CorpusEvent K)) : Prop where
  complete : ∀ add returned purged older, s.2 = .sync name add returned 0 purged :: older →
    ∀ mgr, s.1.managers.lookup name = some mgr →
    (∀ calls ∈ callSets name s.2, ∀ c, c ∈ calls ↔ c ∈ mgr.calls) →
    ∀ key rec, s.1.corpus.lookup key = some rec → supports mgr.calls rec.val = true →
      (∃ x ∈ submittedInputs name s.2, hash x = key) ∨ rec.val ∈ returnedInputs name s.2
  once : ∀ newer ev₂ mid ev₁ older x, s.2 = newer ++ ev₂ :: (mid ++ ev₁ :: older) →
    x ∈ ev₁.returnedTo name → x ∈ ev₂.returnedTo name →
      (∃ ev ∈ ev₂ :: mid, hash x ∈ ev.purged) ∨ ∃ ev ∈ mid, ev.freshFor name = true
  batches : ∀ ev ∈ s.2, (ev.returnedTo name).Nodup

/-- Numbers stay below `2 ^ 64`, and no more than `capRecords` programs are pending when a
manager is served. -/
def WithinLimits (hash : Program → K) (st : State K) : Op K → Prop
  | .call (.connect _ _ _ _ corpus) => corpus ≠ [] → st.corpusSeq + 1 < 2 ^ 64
  | .call (.sync _ name add del) => (add ≠ [] → st.corpusSeq + 1 < 2 ^ 64) ∧
    ∀ u ∈ (st.deleteInputs name del).addInputs hash name add, ∀ mgr ∈ u.managers.lookup name,
      pendingCount mgr u ≤ capRecords
  | _ => True

instance (hash : Program → K) (st : State K) : DecidablePred (WithinLimits hash st)
  | .call (.connect ..) => inferInstanceAs (Decidable (_ → _))
  | .call (.sync ..) => inferInstanceAs (Decidable (_ ∧ _))
  | .call (.addRepro ..) | .call (.pendingRepro ..) | .restart => isTrue trivial

/-! ## The invariant -/

/-- Every record has a number that was given out, and no cursor is ahead. -/
structure CorpusGood (hash : Program → K) (st : State K) : Prop where
  records : ∀ key rec, st.corpus.lookup key = some rec →
    State.goodRecord hash key rec = true ∧ 0 < rec.seq ∧ rec.seq ≤ st.corpusSeq
  cursors : ∀ name mgr, st.managers.lookup name = some mgr → mgr.corpusSeq ≤ st.corpusSeq

/-- What holds of a manager: **the programs up to its cursor were submitted by it or
returned to it**, its own programs were submitted by it, and what was returned and not
purged is up to the cursor. -/
structure Informed (hash : Program → K) (name : String) (mgr : Manager K) (st : State K)
    (h : List (CorpusEvent K)) : Prop where
  upTo : ∀ key rec, st.corpus.lookup key = some rec → rec.seq ≤ mgr.corpusSeq →
    (∀ calls ∈ callSets name h, supports calls rec.val = true) →
      (∃ x ∈ submittedInputs name h, hash x = key) ∨ rec.val ∈ returnedInputs name h
  own : ∀ key ∈ mgr.corpus, ∃ x ∈ submittedInputs name h, hash x = key
  calls : mgr.connected = true → mgr.calls ∈ callSets name h
  returned : ∀ newer ev older x, h = newer ++ ev :: older → x ∈ ev.returnedTo name →
    (∀ ev ∈ newer, ev.freshFor name = false) → (∀ ev ∈ newer, hash x ∉ ev.purged) →
      ∃ rec, st.corpus.lookup (hash x) = some rec ∧ rec.seq ≤ mgr.corpusSeq

/-- When the newest event is a `Sync` that says that nothing is left, the manager has got
everything that all its call sets support. -/
def Complete (hash : Program → K) (st : State K) (h : List (CorpusEvent K)) : Prop :=
  ∀ name add returned purged older, h = .sync name add returned 0 purged :: older →
    ∀ key rec, st.corpus.lookup key = some rec →
    (∀ calls ∈ callSets name h, supports calls rec.val = true) →
      (∃ x ∈ submittedInputs name h, hash x = key) ∨ rec.val ∈ returnedInputs name h

structure CorpusInv (hash : Program → K) (s : State K × List (CorpusEvent K)) : Prop where
  good : CorpusGood hash s.1
  complete : Complete hash s.1 s.2
  informed : ∀ name mgr, s.1.managers.lookup name = some mgr → Informed hash name mgr s.1 s.2
  absent : ∀ name, s.1.managers.lookup name = none → ∀ ev ∈ s.2, ev.returnedTo name = []
  once : ∀ name newer ev₂ mid ev₁ older x, s.2 = newer ++ ev₂ :: (mid ++ ev₁ :: older) →
    x ∈ ev₁.returnedTo name → x ∈ ev₂.returnedTo name →
      (∃ ev ∈ ev₂ :: mid, hash x ∈ ev.purged) ∨ ∃ ev ∈ mid, ev.freshFor name = true
  batches : ∀ name, ∀ ev ∈ s.2, (ev.returnedTo name).Nodup

/-! ## Steps -/

section Cons
variable {name : String} {ev : CorpusEvent K} {h : List (CorpusEvent K)}

omit [DecidableEq K] in
theorem sinceFresh_cons (hfresh : ev.freshFor name = false) :
    sinceFresh name (ev :: h) = ev :: sinceFresh name h := by
  rw [sinceFresh, if_neg (by rw [hfresh]; exact Bool.false_ne_true)]

omit [DecidableEq K] in
theorem callSets_cons (hfresh : ev.freshFor name = false) :
    callSets name (ev :: h) = (ev.callsOf name).toList ++ callSets name h := by
  rw [callSets, sinceFresh_cons hfresh, filterMap_cons]
  cases ev.callsOf name <;> rfl

omit [DecidableEq K] in
theorem submittedInputs_cons (hfresh : ev.freshFor name = false) :
    submittedInputs name (ev :: h) = ev.submittedBy name ++ submittedInputs name h := by
  rw [submittedInputs, sinceFresh_cons hfresh]
  rfl

omit [DecidableEq K] in
theorem returnedInputs_cons (hfresh : ev.freshFor name = false) :
    returnedInputs name (ev :: h) = ev.returnedTo name ++ returnedInputs name h := by
  rw [returnedInputs, sinceFresh_cons hfresh]
  rfl

omit [DecidableEq K] in
/-- What the newest event of a manager that connects fresh, or of any other, adds. -/
theorem mem_submittedInputs_head {x : Program} (hx : x ∈ ev.submittedBy name) :
    x ∈ submittedInputs name (ev :: h) := by
  rw [submittedInputs, sinceFresh]
  split
  · exact mem_flatMap.mpr ⟨ev, mem_singleton_self ev, hx⟩
  · exact mem_flatMap.mpr ⟨ev, mem_cons_self, hx⟩

omit [DecidableEq K] in
theorem mem_callSets_head {calls : List CallName} (hcalls : ev.callsOf name = some calls) :
    calls ∈ callSets name (ev :: h) := by
  rw [callSets, sinceFresh]
  split
  · exact mem_filterMap.mpr ⟨ev, mem_singleton_self ev, hcalls⟩
  · exact mem_filterMap.mpr ⟨ev, mem_cons_self, hcalls⟩

end Cons

section Steps
variable {hash : Program → K} {st st' : State K} {h : List (CorpusEvent K)} {ev : CorpusEvent K}
  {name : String} {mgr mgr' : Manager K}

/-- The step appends an event and adds no record that a cursor has passed. -/
abbrev Evolves (ev : CorpusEvent K) (st st' : State K) : Prop :=
  Purges (fun _ rec => st.corpusSeq < rec.seq) ev.purged st st'

/-- **A step that moves the cursor of a manager forward**: what it passes was submitted or
is returned now. -/
theorem Informed.step (hinf : Informed hash name mgr st h) (hfresh : ev.freshFor name = false)
    (hevolves : Evolves ev st st') (hcursor : mgr.corpusSeq ≤ st.corpusSeq)
    (hle : mgr.corpusSeq ≤ mgr'.corpusSeq)
    (hown : ∀ key ∈ mgr'.corpus, key ∈ mgr.corpus ∨ ∃ x ∈ ev.submittedBy name, hash x = key)
    (hcalls : mgr'.connected = true →
      ev.callsOf name = some mgr'.calls ∨ (mgr.connected = true ∧ mgr'.calls = mgr.calls))
    (hpassed : ∀ key rec, st'.corpus.lookup key = some rec → mgr.corpusSeq < rec.seq →
      rec.seq ≤ mgr'.corpusSeq → (∀ calls ∈ callSets name h, supports calls rec.val = true) →
        key ∈ mgr'.corpus ∨ rec.val ∈ ev.returnedTo name)
    (hret : ∀ x ∈ ev.returnedTo name, ∃ rec, st'.corpus.lookup (hash x) = some rec ∧
      rec.seq ≤ mgr'.corpusSeq) : Informed hash name mgr' st' (ev :: h) := by
  have howns : ∀ key ∈ mgr'.corpus, ∃ x ∈ submittedInputs name (ev :: h), hash x = key := by
    intro key hkey
    rw [submittedInputs_cons hfresh]
    rcases hown key hkey with hbefore | ⟨x, hx, heq⟩
    · obtain ⟨x, hx, heq⟩ := hinf.own key hbefore
      exact ⟨x, mem_append_right _ hx, heq⟩
    · exact ⟨x, mem_append_left _ hx, heq⟩
  refine ⟨fun key rec hrec hseq hsup => ?_, howns, fun hconn => ?_, ?_⟩
  · have hsup' : ∀ calls ∈ callSets name h, supports calls rec.val = true := fun calls hmem =>
      hsup calls (by rw [callSets_cons hfresh]; exact mem_append_right _ hmem)
    rw [returnedInputs_cons hfresh]
    by_cases hpast : rec.seq ≤ mgr.corpusSeq
    · have hbefore : st.corpus.lookup key = some rec := by
        rcases hevolves.found key rec hrec with hbefore | hnew
        · exact hbefore
        · omega
      rcases hinf.upTo key rec hbefore hpast hsup' with ⟨x, hx, heq⟩ | hgot
      · rw [submittedInputs_cons hfresh]
        exact .inl ⟨x, mem_append_right _ hx, heq⟩
      · exact .inr (mem_append_right _ hgot)
    · rcases hpassed key rec hrec (Nat.not_le.mp hpast) hseq hsup' with hmine | hgot
      · exact .inl (howns key hmine)
      · exact .inr (mem_append_left _ hgot)
  · rcases hcalls hconn with hnow | ⟨hbefore, heq⟩
    · exact mem_callSets_head hnow
    · rw [callSets_cons hfresh, heq]
      exact mem_append_right _ (hinf.calls hbefore)
  · intro newer ev₁ older x hsplit hx hnofresh hkept
    cases newer with
    | nil =>
      obtain ⟨rfl, -⟩ := List.cons.inj hsplit
      exact hret x hx
    | cons ev₂ newer =>
      obtain ⟨rfl, htail⟩ := List.cons.inj hsplit
      obtain ⟨rec, hrec, hseq⟩ := hinf.returned newer ev₁ older x htail hx
        (fun e he => hnofresh e (mem_cons_of_mem _ he))
        fun e he => hkept e (mem_cons_of_mem _ he)
      exact ⟨rec, hevolves.keep _ rec hrec (hkept ev mem_cons_self), hseq.trans hle⟩

/-- A step that is not about the manager. -/
theorem Informed.other (hinf : Informed hash name mgr st h) (hfresh : ev.freshFor name = false)
    (hevolves : Evolves ev st st') (hcursor : mgr.corpusSeq ≤ st.corpusSeq)
    (hsame : mgr'.corpusSeq = mgr.corpusSeq) (hown : mgr'.corpus = mgr.corpus)
    (hcalls : mgr'.connected = true → mgr.connected = true ∧ mgr'.calls = mgr.calls)
    (hret : ev.returnedTo name = []) : Informed hash name mgr' st' (ev :: h) := by
  refine hinf.step hfresh hevolves hcursor hsame.ge (fun key hkey => .inl (hown ▸ hkey))
    (fun hconn => .inr (hcalls hconn)) (fun key rec _ hlt hle => ?_) fun x hx => ?_
  · omega
  · rw [hret] at hx
    cases hx

/-- A manager starts from the beginning. -/
theorem Informed.begin (hpos : ∀ key rec, st'.corpus.lookup key = some rec → 0 < rec.seq)
    (hzero : mgr'.corpusSeq = 0)
    (hown : ∀ key ∈ mgr'.corpus, ∃ x ∈ ev.submittedBy name, hash x = key)
    (hcalls : ev.callsOf name = some mgr'.calls) (hret : ev.returnedTo name = [])
    (hpast : ev.freshFor name = true ∨ ∀ ev' ∈ h, ev'.returnedTo name = []) :
    Informed hash name mgr' st' (ev :: h) := by
  refine ⟨fun key rec hrec hseq => ?_, fun key hkey => ?_, fun _ => mem_callSets_head hcalls, ?_⟩
  · have hlt := hpos key rec hrec
    omega
  · obtain ⟨x, hx, heq⟩ := hown key hkey
    exact ⟨x, mem_submittedInputs_head hx, heq⟩
  intro newer ev₁ older x hsplit hx hnofresh _
  cases newer with
  | nil =>
    obtain ⟨rfl, -⟩ := List.cons.inj hsplit
    rw [hret] at hx
    cases hx
  | cons ev₂ newer =>
    obtain ⟨rfl, htail⟩ := List.cons.inj hsplit
    rcases hpast with hfresh | hnothing
    · rw [hnofresh ev mem_cons_self] at hfresh
      cases hfresh
    · rw [hnothing ev₁ (by rw [htail]; exact mem_append_right _ mem_cons_self)] at hx
      cases hx

/-- **The parts of the invariant together.** -/
theorem CorpusInv.step (hinv : CorpusInv hash (st, h)) (hgood : CorpusGood hash st')
    (hcomplete : Complete hash st' (ev :: h)) (hevolves : Evolves ev st st')
    (hinformed : ∀ n m, st'.managers.lookup n = some m → Informed hash n m st' (ev :: h))
    (hkept : ∀ n, st'.managers.lookup n = none → st.managers.lookup n = none)
    (hnew : ∀ n x, x ∈ ev.returnedTo n → ∃ m rec, st.managers.lookup n = some m ∧
      st'.corpus.lookup (hash x) = some rec ∧ m.corpusSeq < rec.seq)
    (hnodup : ∀ n, (ev.returnedTo n).Nodup) : CorpusInv hash (st', ev :: h) := by
  refine ⟨hgood, hcomplete, hinformed, fun n hnone ev' hev' => ?_, ?_, fun n ev' hev' => ?_⟩
  · rcases mem_cons.mp hev' with rfl | hold
    · rw [eq_nil_iff_forall_not_mem]
      intro x hx
      obtain ⟨m, rec, hm, -⟩ := hnew n x hx
      rw [hkept n hnone] at hm
      cases hm
    · exact hinv.absent n (hkept n hnone) ev' hold
  · intro n newer ev₂ mid ev₁ older x hsplit hx₁ hx₂
    cases newer with
    | nil =>
      obtain ⟨rfl, hrest⟩ := List.cons.inj hsplit
      by_contra hneither
      push Not at hneither
      obtain ⟨hunpurged, hnofresh⟩ := hneither
      obtain ⟨m, rec, hm, hrec, hlt⟩ := hnew n x hx₂
      -- It has the record of the first time, which is up to the cursor.
      obtain ⟨rec', hrec', hle⟩ := (hinv.informed n m hm).returned mid ev₁ older x hrest hx₁
        (fun e he => by simpa using hnofresh e he)
        fun e he => hunpurged e (mem_cons_of_mem _ he)
      have hsame := hevolves.keep _ rec' hrec' (hunpurged ev mem_cons_self)
      obtain rfl := some.inj (hrec.symm.trans hsame)
      omega
    | cons ev₃ newer =>
      obtain ⟨rfl, htail⟩ := List.cons.inj hsplit
      exact hinv.once n newer ev₂ mid ev₁ older x htail hx₁ hx₂
  · rcases mem_cons.mp hev' with rfl | hold
    · exact hnodup n
    · exact hinv.batches n ev' hold

/-- **`Connect` preserves the invariant.** -/
theorem CorpusInv.connect (hinv : CorpusInv hash (st, h)) {domain : String} {fresh : Bool}
    {calls : List CallName} {corpus : List Program}
    (hlimit : corpus ≠ [] → st.corpusSeq + 1 < 2 ^ 64)
    (hconn : st.connect hash name domain fresh calls corpus = some st') :
    CorpusInv hash
      (st', .connect name fresh calls corpus (purgedKeys st.corpus st'.corpus) :: h) := by
  obtain ⟨u, hadd, rfl⟩ := map_eq_some_iff.mp hconn
  obtain ⟨hseq, hcorpus, hothers, m, hm, hconnected, hcalls, hempty, hcursor⟩ :=
    connectManager_spec name domain fresh calls st
  obtain ⟨hle, hfound, hkeep, hothers', hself⟩ :=
    addInputs_adds (fun hne => hseq.symm ▸ hlimit hne) hadd
  rw [hseq] at hle hfound
  rw [hcorpus] at hfound hkeep
  obtain ⟨own, hmgr', hown⟩ := hself m hm
  have hbefore : ∀ n, n ≠ name → u.purgeCorpus.managers.lookup n = st.managers.lookup n :=
    fun n hn => (hothers' n hn).trans (hothers n hn)
  have hfound' : ∀ key rec, u.purgeCorpus.corpus.lookup key = some rec →
      st.corpus.lookup key = some rec ∨ st.corpusSeq < rec.seq ∧ rec.seq ≤ u.corpusSeq ∧
        State.goodRecord hash key rec = true :=
    fun key rec hrec => hfound key rec (lookup_purgeCorpus hrec)
  have hgood : CorpusGood hash u.purgeCorpus := by
    refine ⟨fun key rec hrec => ?_, fun n m' hm' => ?_⟩
    · rcases hfound' key rec hrec with hold | ⟨hlt, hbound, hrecord⟩
      · obtain ⟨hrecord, hpos, hbound⟩ := hinv.good.records key rec hold
        exact ⟨hrecord, hpos, hbound.trans hle⟩
      · exact ⟨hrecord, by omega, hbound⟩
    · by_cases hn : n = name
      · subst hn
        obtain rfl := some.inj (hmgr'.symm.trans hm')
        rcases hcursor with ⟨hzero, -⟩ | ⟨-, m₀, hm₀, heq⟩
        · exact hzero.le.trans (Nat.zero_le _)
        · exact heq.le.trans ((hinv.good.cursors n m₀ hm₀).trans hle)
      · exact (hinv.good.cursors n m' (hbefore n hn ▸ hm')).trans hle
  have hevolves : Evolves (.connect name fresh calls corpus
      (purgedKeys st.corpus u.purgeCorpus.corpus)) st u.purgeCorpus := by
    refine ⟨fun key rec hrec => (hfound' key rec hrec).imp_right And.left,
      fun key rec hrec hkept => lookup_of_notMem_purgedKeys hrec (fun rec' hrec' => ?_) hkept⟩
    have hsame := hkeep key rec hrec
    rw [lookup_purgeCorpus hrec'] at hsame
    rw [hsame, hrec]
  refine hinv.step hgood nofun hevolves (fun n m' hm' => ?_) (fun n hnone => ?_)
    (fun n x hx => by cases hx) fun n => nodup_nil
  · by_cases hn : n = name
    · subst hn
      obtain rfl := some.inj (hmgr'.symm.trans hm')
      have hsubmitted : ∀ key ∈ own, ∃ x ∈ (CorpusEvent.connect n fresh calls corpus
          (purgedKeys st.corpus u.purgeCorpus.corpus)).submittedBy n, hash x = key := by
        intro key hkey
        rw [CorpusEvent.submittedBy, if_pos rfl]
        rcases hown key hkey with hno | hyes
        · rw [hempty] at hno
          exact absurd hno (Finset.notMem_empty key)
        · exact hyes
      have hcallsOf : (CorpusEvent.connect n fresh calls corpus
          (purgedKeys st.corpus u.purgeCorpus.corpus)).callsOf n = some m.calls := by
        rw [hcalls]
        exact if_pos rfl
      rcases hcursor with ⟨hzero, hbegin⟩ | ⟨hfresh, m₀, hm₀, heq⟩
      · refine .begin (fun key rec hrec => (hgood.records key rec hrec).2.1) hzero
          hsubmitted hcallsOf rfl (hbegin.imp (fun hfresh => ?_) fun hnone => hinv.absent n hnone)
        simp [CorpusEvent.freshFor, hfresh]
      · refine (hinv.informed n m₀ hm₀).step (by simp [CorpusEvent.freshFor, hfresh]) hevolves
          (hinv.good.cursors n m₀ hm₀) heq.ge (fun key hkey => .inr (hsubmitted key hkey))
          (fun _ => .inl hcallsOf) (fun key rec _ hlt hbound => ?_) nofun
        dsimp only at hbound
        omega
    · have hm₀ := hbefore n hn ▸ hm'
      exact (hinv.informed n m' hm₀).other (by simp [CorpusEvent.freshFor, Ne.symm hn]) hevolves
        (hinv.good.cursors n m' hm₀) rfl rfl (fun hc => ⟨hc, rfl⟩) rfl
  · by_cases hn : n = name
    · subst hn
      rw [show u.purgeCorpus.managers.lookup n = _ from hmgr'] at hnone
      cases hnone
    · rw [← hbefore n hn]
      exact hnone

/-- A manager is served after its programs have been updated. -/
theorem CorpusInv.served (hinv : CorpusInv hash (st, h)) {u : State K} {own : Finset K}
    {add : List Program} {purged : List K} {progs : List HubInput} {sent : List (K × Rec)}
    {cursor more : Nat} (hlookup : st.managers.lookup name = some mgr)
    (hconn : mgr.connected = true) (hupdates : Updates hash name add purged mgr own st u)
    (hrecords : ∀ key rec, u.corpus.lookup key = some rec →
      State.goodRecord hash key rec = true ∧ 0 < rec.seq ∧ rec.seq ≤ u.corpusSeq)
    (hprogs : progs.map HubInput.prog = sent.map fun e => e.2.val)
    (hserves : Serves name { mgr with corpus := own } sent cursor more u st') :
    CorpusInv hash (st', .sync name add (progs.map HubInput.prog) more purged :: h) := by
  have hcursor := hinv.good.cursors name mgr hlookup
  have hbefore : ∀ n, n ≠ name → st'.managers.lookup n = st.managers.lookup n :=
    fun n hn => (hserves.others n hn).trans (hupdates.others n hn)
  have hhash : ∀ e ∈ sent, hash e.2.val = e.1 := fun e he =>
    (of_goodRecord (hrecords e.1 e.2 (hserves.sound e he).1).1).2.1
  have hgood : CorpusGood hash st' := by
    refine ⟨fun key rec hrec => ?_, fun n m hm => ?_⟩
    · rw [hserves.corpus] at hrec
      rw [hserves.corpusSeq]
      exact hrecords key rec hrec
    rw [hserves.corpusSeq]
    by_cases hn : n = name
    · subst hn
      obtain rfl := some.inj (hserves.self.symm.trans hm)
      exact hserves.forward.2
    · exact (hinv.good.cursors n m (hbefore n hn ▸ hm)).trans hupdates.corpusSeq
  have hevolves : Evolves (.sync name add (progs.map HubInput.prog) more purged) st st' := by
    refine ⟨fun key rec hrec => ?_, fun key rec hrec hkept => ?_⟩
    · rw [hserves.corpus] at hrec
      exact (hupdates.found key rec hrec).imp_right And.left
    · rw [hserves.corpus]
      exact hupdates.keep key rec hrec hkept
  have hsent : ∀ n x,
      x ∈ (CorpusEvent.sync (K := K) name add (progs.map HubInput.prog) more purged).returnedTo n →
      n = name ∧ ∃ e ∈ sent, e.2.val = x := by
    intro n x hx
    rw [CorpusEvent.returnedTo] at hx
    split at hx
    · rename_i hn
      rw [hprogs] at hx
      exact ⟨hn.symm, mem_map.mp hx⟩
    · cases hx
  have hself : Informed hash name { mgr with corpus := own, corpusSeq := cursor } st'
      (.sync name add (progs.map HubInput.prog) more purged :: h) := by
    refine (hinv.informed name mgr hlookup).step rfl hevolves hcursor hserves.forward.1
      (fun key hkey => ?_) (fun _ => Or.inr ⟨hconn, rfl⟩) (fun key rec hrec hlt hbound hsup => ?_)
      fun x hx => ?_
    · rw [CorpusEvent.submittedBy, if_pos rfl]
      exact hupdates.own key hkey
    · rw [hserves.corpus] at hrec
      by_cases hmine : key ∈ own
      · exact Or.inl hmine
      · have hpending : pending mgr.corpusSeq own mgr.calls (key, rec) = true :=
          pending_iff.mpr ⟨hlt, hmine, hsup _ ((hinv.informed name mgr hlookup).calls hconn)⟩
        have hin := hserves.upTo key rec hrec hpending hbound
        rw [CorpusEvent.returnedTo, if_pos rfl, hprogs]
        exact Or.inr (mem_map.mpr ⟨(key, rec), hin, rfl⟩)
    · obtain ⟨-, e, he, rfl⟩ := hsent name x hx
      obtain ⟨hrec, -, hbound⟩ := hserves.sound e he
      rw [hserves.corpus, hhash e he]
      exact ⟨e.2, hrec, hbound⟩
  have hcomplete : Complete hash st'
      (.sync name add (progs.map HubInput.prog) more purged :: h) := by
    intro n add' returned' purged' older heq key rec hrec hsup
    obtain ⟨hev, -⟩ := List.cons.inj heq
    obtain ⟨rfl, -, -, hmore, -⟩ := CorpusEvent.sync.inj hev
    by_cases hbound : rec.seq ≤ cursor
    · exact hself.upTo key rec hrec hbound hsup
    by_cases hmine : key ∈ own
    · exact Or.inl (hself.own key hmine)
    have hpending : pending mgr.corpusSeq own mgr.calls (key, rec) = true := by
      have hforward := hserves.forward.1
      dsimp only at hforward
      exact pending_iff.mpr ⟨by omega, hmine, hsup _ (hself.calls hconn)⟩
    have hin := hserves.complete hmore key rec (hserves.corpus ▸ hrec) hpending
    rw [returnedInputs_cons rfl, CorpusEvent.returnedTo, if_pos rfl, hprogs]
    exact Or.inr (mem_append_left _ (mem_map.mpr ⟨(key, rec), hin, rfl⟩))
  refine hinv.step hgood hcomplete hevolves (fun n m hm => ?_) (fun n hnone => ?_)
    (fun n x hx => ?_) fun n => ?_
  · by_cases hn : n = name
    · subst hn
      obtain rfl := some.inj (hserves.self.symm.trans hm)
      exact hself
    · have hm₀ := hbefore n hn ▸ hm
      refine (hinv.informed n m hm₀).other rfl hevolves (hinv.good.cursors n m hm₀) rfl rfl
        (fun hc => ⟨hc, rfl⟩) ?_
      exact if_neg (Ne.symm hn)
  · by_cases hn : n = name
    · subst hn
      rw [hserves.self] at hnone
      cases hnone
    · rw [← hbefore n hn]
      exact hnone
  · obtain ⟨rfl, e, he, rfl⟩ := hsent n x hx
    obtain ⟨hrec, hpending, -⟩ := hserves.sound e he
    refine ⟨mgr, e.2, hlookup, ?_, (pending_iff.mp hpending).1⟩
    rw [hserves.corpus, hhash e he]
    exact hrec
  · rw [CorpusEvent.returnedTo]
    split
    · rw [hprogs]
      -- Programs with different hashes are different.
      have hkeys : (sent.map fun e => hash e.2.val).Nodup := by
        rw [map_congr_left hhash]
        exact hserves.nodup
      exact List.Nodup.of_map hash (by rw [List.map_map]; exact hkeys)
    · exact nodup_nil

/-- **`Sync` preserves the invariant.** -/
theorem CorpusInv.sync (hinv : CorpusInv hash (st, h)) {draws : Draws K} {add : List Program}
    {del : List K} (hlimit : WithinLimits hash st (.call (.sync draws name add del)))
    (hmgr : st.connectedManager name = some mgr) {r : State K × State.SyncReply}
    (hsync : st.sync hash draws name add del = some r) :
    CorpusInv hash (r.1, .of st r.1 (.sync draws name add del) (.synced r.2) :: h) := by
  obtain ⟨hlookup, hconn⟩ := filter_eq_some_iff.mp hmgr
  obtain ⟨hseqLimit, hpending⟩ := hlimit
  rw [State.sync, hmgr] at hsync
  obtain ⟨u, hadd, hsync⟩ := bind_eq_some_iff.mp hsync
  obtain ⟨mgr₂, hmgr₂, rfl⟩ := map_eq_some_iff.mp hsync
  obtain ⟨own, hupdates⟩ := updates_of_addInputs hlookup hseqLimit hadd
  obtain rfl := some.inj (hupdates.self.symm.trans hmgr₂)
  have hrecords : ∀ key rec, u.corpus.lookup key = some rec →
      State.goodRecord hash key rec = true ∧ 0 < rec.seq ∧ rec.seq ≤ u.corpusSeq := by
    intro key rec hrec
    rcases hupdates.found key rec hrec with hold | ⟨hlt, hbound, hrecord⟩
    · obtain ⟨hrecord, hpos, hbound⟩ := hinv.good.records key rec hold
      exact ⟨hrecord, hpos, hbound.trans hupdates.corpusSeq⟩
    · exact ⟨hrecord, by omega, hbound⟩
  have hcursor := hinv.good.cursors name mgr hlookup
  obtain ⟨progs, more, sent, cursor, hreply, hprogs, hserves⟩ :=
    pendingInputs_serves draws hupdates.self (hcursor.trans hupdates.corpusSeq)
      (fun key rec hrec => ⟨(hrecords key rec hrec).2.2,
        (of_goodRecord (hrecords key rec hrec).1).2.2⟩) (hpending u hadd _ hupdates.self)
  dsimp only
  rw [hreply]
  exact hinv.served hlookup hconn hupdates hrecords hprogs hserves

/-- **A restart preserves the invariant.** -/
theorem CorpusInv.restart (hinv : CorpusInv hash (st, h)) :
    CorpusInv hash (st.restart hash,
      .restart (purgedKeys st.corpus (st.restart hash).corpus) :: h) := by
  obtain ⟨hpurges, hbound, hmgrs, hkept⟩ := restart_spec hash st
  have hold : ∀ key rec, (st.restart hash).corpus.lookup key = some rec →
      st.corpus.lookup key = some rec :=
    fun key rec hrec => (hpurges.found key rec hrec).resolve_right id
  have hevolves : Evolves (.restart (purgedKeys st.corpus (st.restart hash).corpus)) st
      (st.restart hash) := ⟨fun key rec hrec => .inl (hold key rec hrec), hpurges.keep⟩
  refine hinv.step ⟨fun key rec hrec => ?_, fun n m hm => (hmgrs n m hm).1⟩ nofun hevolves
    (fun n m hm => ?_) hkept nofun fun n => nodup_nil
  · obtain ⟨hrecord, hpos, -⟩ := hinv.good.records key rec (hold key rec hrec)
    exact ⟨hrecord, hpos, hbound key rec hrec⟩
  · obtain ⟨-, hconn, m₀, hm₀, hcursor, hown⟩ := hmgrs n m hm
    refine (hinv.informed n m₀ hm₀).other rfl hevolves (hinv.good.cursors n m₀ hm₀) hcursor hown
      (fun hyes => ?_) rfl
    rw [hconn] at hyes
    cases hyes

/-- What the delivery of programs reads of a manager. -/
def Manager.corpusView (mgr : Manager K) : Nat × Finset K × Bool × List CallName :=
  (mgr.corpusSeq, mgr.corpus, mgr.connected, mgr.calls)

/-- A call that is not about programs preserves the invariant. -/
theorem CorpusInv.other (hinv : CorpusInv hash (st, h)) (hseq : st'.corpusSeq = st.corpusSeq)
    (hcorpus : st'.corpus = st.corpus)
    (hview : ∀ n, (st'.managers.lookup n).map Manager.corpusView =
      (st.managers.lookup n).map Manager.corpusView) : CorpusInv hash (st', .other :: h) := by
  have hevolves : Evolves .other st st' :=
    ⟨fun key rec hrec => .inl (hcorpus ▸ hrec), fun key rec hrec _ => hcorpus ▸ hrec⟩
  have hsame : ∀ n m, st'.managers.lookup n = some m →
      ∃ m₀, st.managers.lookup n = some m₀ ∧ m.corpusView = m₀.corpusView := by
    intro n m hm
    have heq := hview n
    rw [hm, map_some] at heq
    obtain ⟨m₀, hm₀, hv⟩ := map_eq_some_iff.mp heq.symm
    exact ⟨m₀, hm₀, hv.symm⟩
  refine hinv.step ⟨?_, fun n m hm => ?_⟩ nofun hevolves (fun n m hm => ?_) (fun n hnone => ?_)
    nofun fun n => nodup_nil
  · rw [hcorpus, hseq]
    exact hinv.good.records
  · obtain ⟨m₀, hm₀, hv⟩ := hsame n m hm
    rw [hseq]
    exact (congrArg Prod.fst hv).le.trans (hinv.good.cursors n m₀ hm₀)
  · obtain ⟨m₀, hm₀, hv⟩ := hsame n m hm
    simp only [Manager.corpusView, Prod.mk.injEq] at hv
    obtain ⟨hcursor, hown, hconn, hcalls⟩ := hv
    exact (hinv.informed n m₀ hm₀).other rfl hevolves (hinv.good.cursors n m₀ hm₀) hcursor hown
      (fun hyes => ⟨hconn ▸ hyes, hcalls⟩) rfl
  · have heq := hview n
    rwa [hnone, map_none, eq_comm, map_eq_none_iff] at heq

omit [DecidableEq K] in
theorem corpusView_modify {g : Manager K → Manager K} (hg : ∀ m, (g m).corpusView = m.corpusView)
    (name n : String) (t : Table String (Manager K)) :
    ((t.modify name g).lookup n).map Manager.corpusView =
      (t.lookup n).map Manager.corpusView := by
  rw [Table.lookup_modify]
  split
  · rw [Option.map_map]
    exact congrArg (Option.map · _) (funext hg)
  · rfl

omit [DecidableEq K] in
theorem corpusView_moveReproSeq (name n : String) (seq : Nat) (st : State K) :
    ((st.moveReproSeq name seq).managers.lookup n).map Manager.corpusView =
      (st.managers.lookup n).map Manager.corpusView := by
  rw [State.moveReproSeq, corpusView_modify]
  exact fun _ => rfl

theorem CorpusInv.addRepro (hinv : CorpusInv hash (st, h)) {repro : Program}
    {r : State K × Except Error Unit} (hadd : st.addRepro hash name repro = some r) :
    CorpusInv hash (r.1, .other :: h) := by
  have hstay : ∀ {e : Except Error Unit}, some (st, e) = some r →
      CorpusInv hash (r.1, .other :: h) := by
    intro e he
    cases he
    exact hinv.other rfl rfl fun _ => rfl
  rw [State.addRepro] at hadd
  split at hadd
  · exact hstay hadd
  split at hadd
  · exact hstay hadd
  split at hadd
  · exact hstay hadd
  split at hadd
  · cases hadd
  cases hadd
  refine hinv.other ?_ ?_ fun n => ?_
  · rw [State.ownRepro]
    split <;> rfl
  · rw [State.ownRepro]
    split <;> rfl
  rw [State.ownRepro]
  split
  · rw [corpusView_moveReproSeq, corpusView_modify]
    exact fun _ => rfl
  · rw [corpusView_modify]
    exact fun _ => rfl

theorem CorpusInv.pendingRepro (hinv : CorpusInv hash (st, h)) (order : Table.RangeOrder K Rec)
    (name : String) : CorpusInv hash ((st.pendingRepro order name).1, .other :: h) := by
  have hmoved : ∀ seq, CorpusInv hash (st.moveReproSeq name seq, .other :: h) := fun seq =>
    hinv.other rfl rfl fun n => corpusView_moveReproSeq name n seq st
  have hstay : CorpusInv hash (st, .other :: h) := hinv.other rfl rfl fun _ => rfl
  rw [State.pendingRepro]
  split
  · exact hstay
  split
  · exact hstay
  · split
    · exact hstay
    · split
      · exact hmoved _
      · exact hmoved _

/-- **Every step preserves the invariant.** -/
theorem CorpusInv.log {s s' : State K × List (CorpusEvent K)} (hinv : CorpusInv hash s) {op : Op K}
    (hlimit : WithinLimits hash s.1 op) (hstep : State.logCorpus hash s op = some s') :
    CorpusInv hash s' := by
  cases op with
  | restart =>
    cases hstep
    exact hinv.restart
  | call c =>
    obtain ⟨r, hcall, rfl⟩ := map_eq_some_iff.mp hstep
    cases c with
    | connect name domain fresh calls corpus =>
      obtain ⟨st', hconn, rfl⟩ := map_eq_some_iff.mp hcall
      exact hinv.connect hlimit hconn
    | sync draws name add del =>
      obtain ⟨r, hsync, rfl⟩ := map_eq_some_iff.mp hcall
      cases hmgr : s.1.connectedManager name with
      | none =>
        rw [State.sync, hmgr] at hsync
        cases hsync
        exact hinv.other rfl rfl fun _ => rfl
      | some mgr => exact hinv.sync hlimit hmgr hsync
    | addRepro name repro =>
      obtain ⟨r, hadd, rfl⟩ := map_eq_some_iff.mp hcall
      exact hinv.addRepro hadd
    | pendingRepro order name =>
      cases hcall
      exact hinv.pendingRepro order name

end Steps

/-! ## Delivery -/

/-- Call sets with the same calls support the same programs. -/
theorem supports_congr {calls calls' : List CallName} (h : ∀ c, c ∈ calls ↔ c ∈ calls')
    (program : Program) : supports calls program = supports calls' program := by
  rw [supports, supports]
  cases callSet program with
  | none => rfl
  | some needed => simp [managerSupportsAllCalls, h]

/-- A hub without files. -/
def State.fresh : State K := ⟨0, 0, .empty, .empty, .empty⟩

theorem CorpusInv.fresh (hash : Program → K) : CorpusInv hash (State.fresh, []) where
  good := ⟨nofun, nofun⟩
  complete := nofun
  informed := nofun
  absent := nofun
  once _ newer _ _ _ _ _ hsplit := by cases newer <;> cases hsplit
  batches := nofun

/-- The invariant says that programs are delivered. -/
theorem CorpusInv.delivery {hash : Program → K} {s : State K × List (CorpusEvent K)}
    (hinv : CorpusInv hash s) (name : String) : CorpusDelivery hash name s := by
  refine ⟨?_, hinv.once name, hinv.batches name⟩
  intro add returned purged older hlast mgr _ hcalls key rec hrec hsup
  refine hinv.complete name add returned purged older hlast key rec hrec fun calls hmem => ?_
  exact (supports_congr (hcalls calls hmem) rec.val).trans hsup

/-- **Programs are delivered** in every run that stays within the limits. -/
theorem corpus_delivered {hash : Program → K} {ops : List (Op K)}
    {s : State K × List (CorpusEvent K)}
    (hrun : StepRuns.run (State.logCorpus hash) (State.fresh, []) ops = some s)
    (hlimits : StepRuns.Along (State.logCorpus hash) (fun s op => WithinLimits hash s.1 op)
      (State.fresh, []) ops) (name : String) : CorpusDelivery hash name s :=
  (StepRuns.invariant_along (I := CorpusInv hash) (fun _ _ _ hinv hlimit hstep =>
    hinv.log hlimit hstep) (.fresh hash) hlimits hrun).delivery name

/-! ### Two managers -/

/-- Tables are read in their order, and records are sorted by insertion. -/
def drawsInOrder : Draws Program where
  managers := .inOrder
  records := .inOrder
  sort :=
    { sort := fun l => l.insertionSort fun a b => a.2.seq ≤ b.2.seq
      perm := fun l => perm_insertionSort _ l
      sorted := fun l => pairwise_insertionSort _ l }

/-- The first manager submits a program, the hub restarts, and the second one connects
again and syncs. -/
def syncAfterRestart : List (Op Program) :=
  [.call (.connect "foo" "" true [[111, 112, 101, 110]] []),
    .call (.connect "bar" "" true [[111, 112, 101, 110]] []),
    .call (.sync drawsInOrder "foo" [[111, 112, 101, 110, 40, 41]] []), .restart,
    .call (.connect "bar" "" false [[111, 112, 101, 110]] []),
    .call (.sync drawsInOrder "bar" [] [])]

/-- The second manager gets the program. -/
theorem corpus_delivered_restart :
    ∃ s, StepRuns.run (State.logCorpus id) (State.fresh, []) syncAfterRestart = some s ∧
      returnedInputs "bar" s.2 = [[111, 112, 101, 110, 40, 41]] ∧
      CorpusDelivery id "bar" s := by
  have hrun : ((StepRuns.run (State.logCorpus id) (State.fresh, []) syncAfterRestart).map
      fun s => returnedInputs "bar" s.2) = some [[111, 112, 101, 110, 40, 41]] := by
    decide +kernel
  have hcheck : StepRuns.check (State.logCorpus id) (fun s op => decide (WithinLimits id s.1 op))
      (State.fresh, []) syncAfterRestart = true := by decide +kernel
  obtain ⟨s, hs, hreturned⟩ := map_eq_some_iff.mp hrun
  exact ⟨s, hs, hreturned, corpus_delivered hs
    (StepRuns.Along.of_check (fun _ _ => of_decide_eq_true) hcheck) "bar"⟩

end Sect.Hub
