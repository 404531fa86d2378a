import SectProof.HubRepros

/-! # Delivery of reproducers

`AddRepro` looks whether the hub has the reproducer before it records it as one of the
manager, so a manager that submits what the hub already has and what it has not been
served is later sent its own reproducer (`repro_sentBack`).  Without such submissions
delivery works (**`repros_delivered`**): nothing twice, in the order of acceptance,
nothing of its own, and everything that the manager supports.

The invariant says of a reproducer that a manager waits for that it is behind the cursor,
and that every poll since its acceptance has moved the cursor.
-/

open List Finset Nat Option

namespace Sect.Hub
open State (firstRepro)
variable {K : Type} [DecidableEq K]

/-! ## The invariant -/

/-- What the hub has about reproducers is in order: every record has a number that was
given out and its own hash as key, no cursor is ahead, and own reproducers are in the
hub. -/
structure ReprosGood (hash : Program → K) (st : State K) : Prop where
  records : ∀ key rec, st.repros.lookup key = some rec →
    rec.seq ≤ st.reproSeq ∧ rec.seq < seqDeleted ∧ hash rec.val = key ∧ (callSet rec.val).isSome
  cursors : ∀ name mgr, st.managers.lookup name = some mgr → mgr.reproSeq ≤ st.reproSeq
  own : ∀ name mgr key, st.managers.lookup name = some mgr → key ∈ mgr.ownRepros →
    (st.repros.lookup key).isSome

/-- The number of a reproducer in the hub. -/
def seqOf (hash : Program → K) (st : State K) (repro : Program) : Nat :=
  ((st.repros.lookup (hash repro)).map Rec.seq).getD 0

variable {hash : Program → K} {st : State K}

theorem seqOf_eq {repro : Program} {rec : Rec} (h : st.repros.lookup (hash repro) = some rec) :
    seqOf hash st repro = rec.seq := by
  rw [seqOf, h]
  rfl

theorem seqOf_congr {st' : State K} (h : st'.repros = st.repros) :
    seqOf hash st' = seqOf hash st := by
  funext repro
  rw [seqOf, seqOf, h]

/-- The history of the reproducers that the hub has accepted. -/
structure AcceptedGood (hash : Program → K) (st : State K) (h : List ReproEvent) : Prop where
  stored : ∀ sender repro seq, .addRepro sender repro (some seq) ∈ h →
    st.repros.lookup (hash repro) = some ⟨repro, seq⟩ ∧ 0 < seq ∧
      ∀ key rec, st.repros.lookup key = some rec → rec.seq = seq → key = hash repro
  ordered : (acceptedRepros h).Pairwise fun x y => seqOf hash st y < seqOf hash st x

/-- The history of one manager.  A reproducer that it is waiting for is behind the
cursor, and **every poll since has moved the cursor**. -/
structure ServedGood (hash : Program → K) (name : String) (mgr : Manager K) (st : State K)
    (h : List ReproEvent) : Prop where
  submitted : ∀ repro rec, repro ∈ submittedRepros name h →
    st.repros.lookup (hash repro) = some rec → rec.val = repro →
      hash repro ∈ mgr.ownRepros ∨ rec.seq ≤ mgr.reproSeq
  returned : ∀ repro ∈ returnedRepros name h, ∃ rec,
    st.repros.lookup (hash repro) = some rec ∧ rec.seq ≤ mgr.reproSeq
  waiting : ∀ newer sender repro seq older,
    h = newer ++ .addRepro sender repro (some seq) :: older → sender ≠ name →
    (∀ ev ∈ newer, ev.opensFor name = false) →
    (∀ calls result, .pendingRepro name calls result ∈ newer → supports calls repro = true) →
    repro ∈ returnedRepros name newer ∨
      (mgr.reproSeq < seq ∧ reproPolls name newer ≤ mgr.reproSeq ∧ hash repro ∉ mgr.ownRepros)

/-- The invariant of a hub with its history. -/
structure ReproInv (hash : Program → K) (s : State K × List ReproEvent) : Prop where
  good : ReprosGood hash s.1
  accepted : AcceptedGood hash s.1 s.2
  parsed : ∀ name repro, repro ∈ submittedRepros name s.2 → (callSet repro).isSome →
    (s.1.repros.lookup (hash repro)).isSome
  ordered : ∀ name, (returnedRepros name s.2).Pairwise fun x y => seqOf hash s.1 y < seqOf hash s.1 x
  notOwn : ∀ name newer calls repro older,
    s.2 = newer ++ .pendingRepro name calls (some repro) :: older →
      repro ∉ submittedRepros name older
  served : ∀ name mgr, s.1.managers.lookup name = some mgr → ServedGood hash name mgr s.1 s.2
  absent : ∀ name, s.1.managers.lookup name = none →
    submittedRepros name s.2 = [] ∧ returnedRepros name s.2 = [] ∧ reproPolls name s.2 = 0

/-! ## Steps -/

/-- An event that accepts, submits and returns nothing and is no poll. -/
structure ReproEvent.Quiet (ev : ReproEvent) : Prop where
  accepted : ev.acceptedRepro = none
  submitted : ∀ name, ev.submittedBy name = none
  returned : ∀ name, ev.returnedTo name = none
  poll : ∀ name, ev.isPoll name = false

section Quiet
variable {ev : ReproEvent} {h : List ReproEvent} (hev : ev.Quiet)

include hev

theorem ReproEvent.Quiet.submittedRepros_cons (name : String) :
    submittedRepros name (ev :: h) = submittedRepros name h :=
  filterMap_cons_none (hev.submitted name)

theorem ReproEvent.Quiet.returnedRepros_cons (name : String) :
    returnedRepros name (ev :: h) = returnedRepros name h :=
  filterMap_cons_none (hev.returned name)

theorem ReproEvent.Quiet.reproPolls_cons (name : String) :
    reproPolls name (ev :: h) = reproPolls name h :=
  countP_cons_of_neg (by rw [hev.poll name]; exact Bool.false_ne_true)

end Quiet

section Steps
variable {hash : Program → K} {st st' : State K} {h : List ReproEvent} {ev : ReproEvent}

omit [DecidableEq K] in
/-- The head of a history. -/
theorem eq_head_or_tail {A : Type} {x y : A} {l newer older : List A}
    (h : x :: l = newer ++ y :: older) :
    (newer = [] ∧ x = y ∧ l = older) ∨ ∃ newer', newer = x :: newer' ∧ l = newer' ++ y :: older := by
  cases newer with
  | nil =>
    obtain ⟨rfl, rfl⟩ := List.cons.inj h
    exact .inl ⟨rfl, rfl, rfl⟩
  | cons z newer' =>
    obtain ⟨rfl, htail⟩ := List.cons.inj h
    exact .inr ⟨newer', rfl, htail⟩

/-- The part of the invariant about what was accepted, when nothing is. -/
theorem AcceptedGood.cons (hacc : AcceptedGood hash st h) (hrepros : st'.repros = st.repros)
    (hev : ev.acceptedRepro = none) : AcceptedGood hash st' (ev :: h) := by
  refine ⟨fun sender repro seq hmem => ?_, ?_⟩
  · rw [hrepros]
    rcases mem_cons.mp hmem with rfl | htail
    · cases hev
    · exact hacc.stored sender repro seq htail
  · rw [acceptedRepros, filterMap_cons_none hev, seqOf_congr hrepros]
    exact hacc.ordered

/-- How a call that is not about reproducers changes a manager: a cursor moves forward
when the manager connects. -/
def Moved (ev : ReproEvent) (name : String) (st : State K) (mgr' : Manager K) : Prop :=
  (∃ mgr, st.managers.lookup name = some mgr ∧ mgr'.ownRepros = mgr.ownRepros ∧
    mgr.reproSeq ≤ mgr'.reproSeq ∧ mgr'.reproSeq ≤ st.reproSeq ∧
    (ev.opensFor name = false → mgr'.reproSeq = mgr.reproSeq)) ∨
  (st.managers.lookup name = none ∧ mgr'.ownRepros = ∅ ∧ mgr'.reproSeq = st.reproSeq ∧
    ev.opensFor name = true)

variable {name n : String} {mgr : Manager K} {repro : Program}

theorem ServedGood.move {mgr' : Manager K} (hserved : ServedGood hash name mgr st h)
    (hev : ev.Quiet) (hrepros : st'.repros = st.repros) (hown : mgr'.ownRepros = mgr.ownRepros)
    (hle : mgr.reproSeq ≤ mgr'.reproSeq)
    (hsame : ev.opensFor name = false → mgr'.reproSeq = mgr.reproSeq) :
    ServedGood hash name mgr' st' (ev :: h) := by
  refine ⟨fun repro rec hsub hrec hval => ?_, fun repro hret => ?_, ?_⟩
  · rw [hev.submittedRepros_cons] at hsub
    rw [hrepros] at hrec
    rw [hown]
    exact (hserved.submitted repro rec hsub hrec hval).imp_right fun hseq => hseq.trans hle
  · rw [hev.returnedRepros_cons] at hret
    rw [hrepros]
    obtain ⟨rec, hrec, hseq⟩ := hserved.returned repro hret
    exact ⟨rec, hrec, hseq.trans hle⟩
  · intro newer sender repro seq older hsplit hsender hopens hpolls
    rcases eq_head_or_tail hsplit with ⟨-, rfl, -⟩ | ⟨newer', rfl, hsplit'⟩
    · cases hev.accepted
    · rw [hsame (hopens ev mem_cons_self), hown, hev.returnedRepros_cons, hev.reproPolls_cons]
      exact hserved.waiting newer' sender repro seq older hsplit' hsender
        (fun e he => hopens e (mem_cons_of_mem _ he))
        fun calls result hmem => hpolls calls result (mem_cons_of_mem _ hmem)

/-- **A call that is not about reproducers preserves the invariant.** -/
theorem ReproInv.move (hinv : ReproInv hash (st, h)) (hev : ev.Quiet)
    (hseq : st'.reproSeq = st.reproSeq) (hrepros : st'.repros = st.repros)
    (hmoved : ∀ name mgr', st'.managers.lookup name = some mgr' → Moved ev name st mgr')
    (hkept : ∀ name, st'.managers.lookup name = none → st.managers.lookup name = none) :
    ReproInv hash (st', ev :: h) := by
  refine ⟨⟨?_, ?_, ?_⟩, hinv.accepted.cons hrepros hev.accepted, ?_, ?_, ?_, ?_, ?_⟩
  · rw [hseq, hrepros]
    exact hinv.good.records
  · intro name mgr' hmgr'
    rw [hseq]
    rcases hmoved name mgr' hmgr' with ⟨mgr, hmgr, hown, hle, hbound, -⟩ | ⟨-, -, heq, -⟩
    · exact hbound
    · exact heq.le
  · intro name mgr' key hmgr' hkey
    rw [hrepros]
    rcases hmoved name mgr' hmgr' with ⟨mgr, hmgr, hown, -⟩ | ⟨-, hown, -⟩
    · exact hinv.good.own name mgr key hmgr (hown ▸ hkey)
    · rw [hown] at hkey
      exact absurd hkey (notMem_empty key)
  · intro name repro hsub
    rw [hev.submittedRepros_cons] at hsub
    rw [hrepros]
    exact hinv.parsed name repro hsub
  · intro name
    rw [hev.returnedRepros_cons, seqOf_congr hrepros]
    exact hinv.ordered name
  · intro name newer calls repro older hsplit
    rcases eq_head_or_tail hsplit with ⟨-, rfl, -⟩ | ⟨newer', rfl, hsplit'⟩
    · have hreturned := hev.returned name
      rw [ReproEvent.returnedTo, if_pos rfl] at hreturned
      cases hreturned
    · exact hinv.notOwn name newer' calls repro older hsplit'
  · intro name mgr' hmgr'
    rcases hmoved name mgr' hmgr' with ⟨mgr, hmgr, hown, hle, -, hsame⟩ | ⟨hnone, hown, hcursor, hopens⟩
    · exact (hinv.served name mgr hmgr).move hev hrepros hown hle hsame
    obtain ⟨hsub, hret, -⟩ := hinv.absent name hnone
    refine ⟨fun repro rec hmem => ?_, fun repro hmem => ?_, ?_⟩
    · rw [hev.submittedRepros_cons, hsub] at hmem
      cases hmem
    · rw [hev.returnedRepros_cons, hret] at hmem
      cases hmem
    · intro newer sender repro seq older hsplit _ hnever
      rcases eq_head_or_tail hsplit with ⟨-, rfl, -⟩ | ⟨newer', rfl, -⟩
      · cases hev.accepted
      · rw [hnever ev mem_cons_self] at hopens
        cases hopens
  · intro name hnone
    rw [hev.submittedRepros_cons, hev.returnedRepros_cons, hev.reproPolls_cons]
    exact hinv.absent name (hkept name hnone)

omit [DecidableEq K] in
theorem submittedRepros_addRepro (n name : String) (repro : Program) (accepted : Option Nat) :
    submittedRepros n (.addRepro name repro accepted :: h) =
      if name = n then repro :: submittedRepros n h else submittedRepros n h := by
  split_ifs with hn
  · exact filterMap_cons_some (if_pos hn)
  · have hnone : (ReproEvent.addRepro name repro accepted).submittedBy n = none := if_neg hn
    exact filterMap_cons_none hnone

omit [DecidableEq K] in
/-- A submission adds to what its sender has submitted. -/
theorem mem_submittedRepros_addRepro {x : Program} {accepted : Option Nat}
    (hmem : x ∈ submittedRepros n (.addRepro name repro accepted :: h)) :
    (n = name ∧ x = repro) ∨ x ∈ submittedRepros n h := by
  rw [submittedRepros_addRepro] at hmem
  split at hmem
  · rename_i hn
    exact (mem_cons.mp hmem).imp_left fun heq => ⟨hn.symm, heq⟩
  · exact .inr hmem

/-- A manager submits what the hub does not take: by assumption it is no reproducer that
the manager has still to be served. -/
theorem ReproInv.reject (hinv : ReproInv hash (st, h)) (hmgr : st.managers.lookup name = some mgr)
    (hknown : (callSet repro).isSome → (st.repros.lookup (hash repro)).isSome)
    (hserved : ∀ rec, st.repros.lookup (hash repro) = some rec → rec.val = repro →
      hash repro ∈ mgr.ownRepros ∨ rec.seq ≤ mgr.reproSeq) :
    ReproInv hash (st, .addRepro name repro none :: h) := by
  refine ⟨hinv.good, hinv.accepted.cons rfl rfl, ?_, hinv.ordered, ?_, ?_, ?_⟩
  · intro n x hmem hparsed
    rcases mem_submittedRepros_addRepro hmem with ⟨-, rfl⟩ | hbefore
    · exact hknown hparsed
    · exact hinv.parsed n x hbefore hparsed
  · intro n newer calls x older hsplit
    rcases eq_head_or_tail hsplit with ⟨-, heq, -⟩ | ⟨newer', rfl, hsplit'⟩
    · cases heq
    · exact hinv.notOwn n newer' calls x older hsplit'
  · intro n m hm
    obtain ⟨hsubmitted, hreturned, hwaiting⟩ := hinv.served n m hm
    refine ⟨fun x rec hmem hrec hval => ?_, hreturned, ?_⟩
    · rcases mem_submittedRepros_addRepro hmem with ⟨rfl, rfl⟩ | hbefore
      · obtain rfl := some.inj (hmgr.symm.trans hm)
        exact hserved rec hrec hval
      · exact hsubmitted x rec hbefore hrec hval
    · intro newer sender x seq older hsplit hsender hopens hpolls
      rcases eq_head_or_tail hsplit with ⟨-, heq, -⟩ | ⟨newer', rfl, hsplit'⟩
      · cases heq
      · exact hwaiting newer' sender x seq older hsplit' hsender
          (fun e he => hopens e (mem_cons_of_mem _ he))
          fun calls result hmem => hpolls calls result (mem_cons_of_mem _ hmem)
  · intro n hnone
    obtain ⟨hnosub, hnoret, hnopoll⟩ := hinv.absent n hnone
    have hn : name ≠ n := by
      rintro rfl
      rw [hmgr] at hnone
      cases hnone
    exact ⟨by rw [submittedRepros_addRepro, if_neg hn]; exact hnosub, hnoret, hnopoll⟩

/-- What the acceptance of a reproducer does to the managers. -/
theorem lookup_ownRepro {m' : Manager K} {sig : K} (hmgr : st.managers.lookup name = some mgr)
    (h : (st.ownRepro name mgr sig).managers.lookup n = some m') :
    ∃ m, st.managers.lookup n = some m ∧ (n ≠ name → m' = m) ∧
      (n = name → m'.ownRepros = insert sig m.ownRepros ∧
        (m'.reproSeq = m.reproSeq ∨
          m.reproSeq = st.reproSeq ∧ m'.reproSeq = nextSeq st.reproSeq)) := by
  rw [State.ownRepro] at h
  by_cases hn : n = name
  · subst hn
    refine ⟨mgr, hmgr, fun hne => absurd rfl hne, fun _ => ?_⟩
    split at h
    · rename_i heq
      rw [State.moveReproSeq, Table.lookup_modify_self, Table.lookup_modify_self, hmgr] at h
      cases h
      exact ⟨rfl, .inr ⟨heq, congrArg nextSeq heq⟩⟩
    · rw [Table.lookup_modify_self, hmgr] at h
      cases h
      exact ⟨rfl, .inl rfl⟩
  · refine ⟨m', ?_, fun _ => rfl, fun h => absurd h hn⟩
    split at h
    · rwa [State.moveReproSeq, Table.lookup_modify_of_ne hn, Table.lookup_modify_of_ne hn] at h
    · rwa [Table.lookup_modify_of_ne hn] at h

omit [DecidableEq K] in
theorem mem_acceptedRepros {x : Program} :
    x ∈ acceptedRepros h ↔ ∃ sender seq, .addRepro sender x (some seq) ∈ h := by
  rw [acceptedRepros, List.mem_filterMap]
  constructor
  · rintro ⟨ev, hev, hx⟩
    cases ev with
    | addRepro sender repro accepted =>
      obtain ⟨seq, rfl, rfl⟩ := map_eq_some_iff.mp hx
      exact ⟨sender, seq, hev⟩
    | connect name opens | pendingRepro name calls result | other => cases hx
  · rintro ⟨sender, seq, hev⟩
    exact ⟨_, hev, rfl⟩

/-- The step from `st` to `st'` stores a new reproducer of the manager `name` with the
next number.  A cursor that was at the end moves along if it is the sender's. -/
structure Stores (hash : Program → K) (name : String) (repro : Program) (st st' : State K) :
    Prop where
  reproSeq : st'.reproSeq = st.reproSeq + 1
  new : st.repros.lookup (hash repro) = none
  repros : st'.repros = st.repros.insert (hash repro) ⟨repro, st.reproSeq + 1⟩
  managers : ∀ n m', st'.managers.lookup n = some m' → ∃ m, st.managers.lookup n = some m ∧
    m.reproSeq ≤ m'.reproSeq ∧ m'.reproSeq ≤ st.reproSeq + 1 ∧
    m'.ownRepros ⊆ insert (hash repro) m.ownRepros ∧ m.ownRepros ⊆ m'.ownRepros ∧
    (n = name → hash repro ∈ m'.ownRepros) ∧ (n ≠ name → m' = m) ∧
    (m.reproSeq < st.reproSeq → m'.reproSeq = m.reproSeq)
  sender : (st.managers.lookup name).isSome
  kept : ∀ n, st'.managers.lookup n = none → st.managers.lookup n = none

namespace Stores
variable {name : String} {repro : Program} (hst : Stores hash name repro st st')
include hst

variable {key : K} {rec : Rec}

theorem ne (hrec : st.repros.lookup key = some rec) : key ≠ hash repro := by
  rintro rfl
  rw [hst.new] at hrec
  cases hrec

theorem keep (hrec : st.repros.lookup key = some rec) : st'.repros.lookup key = some rec := by
  rw [hst.repros, Table.lookup_insert_of_ne (hst.ne hrec), hrec]

theorem stored : st'.repros.lookup (hash repro) = some ⟨repro, st.reproSeq + 1⟩ := by
  rw [hst.repros, Table.lookup_insert_self]

theorem found (hrec : st'.repros.lookup key = some rec) :
    (key = hash repro ∧ rec = ⟨repro, st.reproSeq + 1⟩) ∨ st.repros.lookup key = some rec := by
  rw [hst.repros, Table.lookup_insert] at hrec
  split at hrec
  · rename_i hkey
    exact .inl ⟨hkey, (some.inj hrec).symm⟩
  · exact .inr hrec

theorem seqOf_of_some {x : Program} (hrec : st.repros.lookup (hash x) = some rec) :
    seqOf hash st' x = seqOf hash st x := by
  rw [seqOf_eq hrec, seqOf_eq (hst.keep hrec)]

theorem good (hgood : ReprosGood hash st) (hparsed : (callSet repro).isSome)
    (hlt : st.reproSeq + 1 < seqDeleted) : ReprosGood hash st' := by
  refine ⟨fun key rec hrec => ?_, fun n m' hm' => ?_, fun n m' key hm' hkey => ?_⟩
  · rw [hst.reproSeq]
    rcases hst.found hrec with ⟨rfl, rfl⟩ | hold
    · exact ⟨le_rfl, hlt, rfl, hparsed⟩
    · obtain ⟨hle, hrest⟩ := hgood.records key rec hold
      exact ⟨le_succ_of_le hle, hrest⟩
  · obtain ⟨m, -, -, hle, -⟩ := hst.managers n m' hm'
    rw [hst.reproSeq]
    exact hle
  · obtain ⟨m, hm, -, -, hsub, -⟩ := hst.managers n m' hm'
    rcases mem_insert.mp (hsub hkey) with rfl | hold
    · rw [hst.stored]
      rfl
    · obtain ⟨rec, hrec⟩ := isSome_iff_exists.mp (hgood.own n m key hm hold)
      rw [hst.keep hrec]
      rfl

theorem accepted (hgood : ReprosGood hash st) (hacc : AcceptedGood hash st h) :
    AcceptedGood hash st' (.addRepro name repro (some (st.reproSeq + 1)) :: h) := by
  refine ⟨fun sender x seq hmem => ?_, ?_⟩
  · rcases mem_cons.mp hmem with heq | hbefore
    · obtain ⟨rfl, rfl, hseq⟩ := ReproEvent.addRepro.inj heq
      cases hseq
      refine ⟨hst.stored, succ_pos _, fun key rec hrec hseq => ?_⟩
      rcases hst.found hrec with ⟨rfl, -⟩ | hold
      · rfl
      · have hle := (hgood.records key rec hold).1
        omega
    · obtain ⟨hstored, hpos, huniq⟩ := hacc.stored sender x seq hbefore
      refine ⟨hst.keep hstored, hpos, fun key rec hrec hseq => ?_⟩
      rcases hst.found hrec with ⟨rfl, rfl⟩ | hold
      · have hle := (hgood.records _ _ hstored).1
        dsimp only at hle hseq
        omega
      · exact huniq key rec hold hseq
  · have hcons : acceptedRepros (.addRepro name repro (some (st.reproSeq + 1)) :: h) =
        repro :: acceptedRepros h := rfl
    have hstored : ∀ x ∈ acceptedRepros h, ∃ rec, st.repros.lookup (hash x) = some rec := by
      intro x hx
      obtain ⟨sender, seq, hmem⟩ := mem_acceptedRepros.mp hx
      exact ⟨_, (hacc.stored sender x seq hmem).1⟩
    rw [hcons, List.pairwise_cons]
    refine ⟨fun x hx => ?_, hacc.ordered.imp_of_mem fun {x y} hx hy hxy => ?_⟩
    · obtain ⟨rec, hrec⟩ := hstored x hx
      rw [seqOf_eq hst.stored, seqOf_eq (hst.keep hrec)]
      exact lt_succ_of_le (hgood.records _ _ hrec).1
    · obtain ⟨recx, hrecx⟩ := hstored x hx
      obtain ⟨recy, hrecy⟩ := hstored y hy
      rwa [hst.seqOf_of_some hrecx, hst.seqOf_of_some hrecy]

theorem served (hinv : ReproInv hash (st, h)) (hparsed : (callSet repro).isSome) {n : String}
    {m' : Manager K} (hm' : st'.managers.lookup n = some m') :
    ServedGood hash n m' st' (.addRepro name repro (some (st.reproSeq + 1)) :: h) := by
  obtain ⟨m, hm, hle, -, hsub, hsup, hself, hother, hsame⟩ := hst.managers n m' hm'
  obtain ⟨hsubmitted, hreturned, hwaiting⟩ := hinv.served n m hm
  refine ⟨fun x rec hmem hrec hval => ?_, fun x hx => ?_, ?_⟩
  · rcases mem_submittedRepros_addRepro hmem with ⟨hn, rfl⟩ | hbefore
    · exact .inl (hself hn)
    rcases hst.found hrec with ⟨hkey, rfl⟩ | hold
    · -- It would have been accepted when it was submitted before.
      have hknown := hinv.parsed n x hbefore (hval ▸ hparsed)
      rw [hkey, hst.new] at hknown
      cases hknown
    · exact (hsubmitted x rec hbefore hold hval).imp (fun hown => hsup hown)
        fun hseq => hseq.trans hle
  · obtain ⟨rec, hrec, hseq⟩ := hreturned x hx
    exact ⟨rec, hst.keep hrec, hseq.trans hle⟩
  · intro newer sender x seq older hsplit hsender hopens hpolls
    rcases eq_head_or_tail hsplit with ⟨rfl, heq, -⟩ | ⟨newer', rfl, hsplit'⟩
    · obtain ⟨rfl, rfl, hseq⟩ := ReproEvent.addRepro.inj heq
      cases hseq
      obtain rfl := hother (.symm hsender)
      refine .inr ⟨lt_succ_of_le (hinv.good.cursors n m' hm), zero_le _, fun hown => ?_⟩
      obtain ⟨rec, hrec⟩ := isSome_iff_exists.mp (hinv.good.own n m' _ hm hown)
      exact hst.ne hrec rfl
    · refine (hwaiting newer' sender x seq older hsplit' hsender
        (fun e he => hopens e (mem_cons_of_mem _ he))
        fun calls result hmem => hpolls calls result (mem_cons_of_mem _ hmem)).imp_right ?_
      rintro ⟨hlt, hcount, hown⟩
      have hstored := (hinv.accepted.stored sender x seq
        (by rw [hsplit']; exact mem_append_right _ mem_cons_self)).1
      have hbound := (hinv.good.records _ _ hstored).1
      rw [hsame (lt_of_lt_of_le hlt hbound)]
      refine ⟨hlt, hcount, fun hmem => ?_⟩
      rcases mem_insert.mp (hsub hmem) with heq | hold
      · exact hst.ne hstored heq
      · exact hown hold

/-- **A new reproducer is accepted.** -/
theorem inv (hinv : ReproInv hash (st, h)) (hparsed : (callSet repro).isSome)
    (hlt : st.reproSeq + 1 < seqDeleted) :
    ReproInv hash (st', .addRepro name repro (some (st.reproSeq + 1)) :: h) := by
  refine ⟨hst.good hinv.good hparsed hlt, hst.accepted hinv.good hinv.accepted, ?_, ?_, ?_,
    fun n m' hm' => hst.served hinv hparsed hm', ?_⟩
  · intro n x hmem hx
    rcases mem_submittedRepros_addRepro hmem with ⟨-, rfl⟩ | hbefore
    · rw [hst.stored]
      rfl
    · obtain ⟨rec, hrec⟩ := isSome_iff_exists.mp (hinv.parsed n x hbefore hx)
      rw [hst.keep hrec]
      rfl
  · intro n
    refine (hinv.ordered n).imp_of_mem fun {x y} hx hy hxy => ?_
    cases hm : st.managers.lookup n with
    | none =>
      have hnothing : x ∉ returnedRepros n h := by
        rw [(hinv.absent n hm).2.1]
        exact not_mem_nil
      exact absurd hx hnothing
    | some m =>
      obtain ⟨recx, hrecx, -⟩ := (hinv.served n m hm).returned x hx
      obtain ⟨recy, hrecy, -⟩ := (hinv.served n m hm).returned y hy
      rwa [hst.seqOf_of_some hrecx, hst.seqOf_of_some hrecy]
  · intro n newer calls x older hsplit
    rcases eq_head_or_tail hsplit with ⟨-, heq, -⟩ | ⟨newer', rfl, hsplit'⟩
    · cases heq
    · exact hinv.notOwn n newer' calls x older hsplit'
  · intro n hnone
    obtain ⟨hnosub, hnoret, hnopoll⟩ := hinv.absent n (hst.kept n hnone)
    have hn : name ≠ n := by
      rintro rfl
      have hsome := hst.sender
      rw [hst.kept name hnone] at hsome
      cases hsome
    exact ⟨by rw [submittedRepros_addRepro, if_neg hn]; exact hnosub, hnoret, hnopoll⟩

end Stores

/-- The step from `st` to `st'` is a poll of the manager: it is sent the pending
reproducer with the smallest number, or nothing if there is none. -/
structure Polls (name : String) (mgr : Manager K) (result : Option Program) (st st' : State K) :
    Prop where
  lookup : st.managers.lookup name = some mgr
  reproSeq : st'.reproSeq = st.reproSeq
  repros : st'.repros = st.repros
  others : ∀ n, n ≠ name → st'.managers.lookup n = st.managers.lookup n
  self : ∃ mgr', st'.managers.lookup name = some mgr' ∧ mgr'.ownRepros = mgr.ownRepros ∧
    ((result = none ∧ mgr'.reproSeq = st.reproSeq ∧
        ∀ key rec, st.repros.lookup key = some rec →
          pending mgr.reproSeq mgr.ownRepros mgr.calls (key, rec) = false) ∨
      ∃ key rec, st.repros.lookup key = some rec ∧
        pending mgr.reproSeq mgr.ownRepros mgr.calls (key, rec) = true ∧
        result = some rec.val ∧ mgr'.reproSeq = rec.seq ∧
        ∀ key' rec', st.repros.lookup key' = some rec' →
          pending mgr.reproSeq mgr.ownRepros mgr.calls (key', rec') = true → rec.seq ≤ rec'.seq)

namespace Polls
variable {name : String} {mgr : Manager K} {result : Option Program}
  (hpoll : Polls name mgr result st st')

omit [DecidableEq K] in
theorem returnedRepros_cons (n : String) (calls : List CallName) :
    returnedRepros n (.pendingRepro name calls result :: h) =
      if name = n then result.toList ++ returnedRepros n h else returnedRepros n h := by
  by_cases hn : name = n
  · subst hn
    rw [if_pos rfl]
    cases result with
    | none => exact filterMap_cons_none (if_pos rfl)
    | some x => exact filterMap_cons_some (if_pos rfl)
  · rw [if_neg hn]
    have hnone : (ReproEvent.pendingRepro name calls result).returnedTo n = none := if_neg hn
    exact filterMap_cons_none hnone

omit [DecidableEq K] in
theorem reproPolls_cons (n : String) (calls : List CallName) :
    reproPolls n (.pendingRepro name calls result :: h) =
      if name = n then reproPolls n h + 1 else reproPolls n h := by
  rw [reproPolls, countP_cons, ReproEvent.isPoll]
  by_cases hn : name = n <;> simp [hn, reproPolls]

include hpoll

theorem good (hgood : ReprosGood hash st) : ReprosGood hash st' := by
  obtain ⟨mgr', hmgr', hown, hcase⟩ := hpoll.self
  refine ⟨?_, fun n m hm => ?_, fun n m key hm hkey => ?_⟩
  · rw [hpoll.reproSeq, hpoll.repros]
    exact hgood.records
  · rw [hpoll.reproSeq]
    by_cases hn : n = name
    · subst hn
      obtain rfl := some.inj (hmgr'.symm.trans hm)
      rcases hcase with ⟨-, hend, -⟩ | ⟨key, rec, hrec, -, -, hcursor, -⟩
      · exact hend.le
      · exact hcursor.le.trans (hgood.records key rec hrec).1
    · exact hgood.cursors n m (hpoll.others n hn ▸ hm)
  · rw [hpoll.repros]
    by_cases hn : n = name
    · subst hn
      obtain rfl := some.inj (hmgr'.symm.trans hm)
      exact hgood.own n mgr key hpoll.lookup (hown ▸ hkey)
    · exact hgood.own n m key (hpoll.others n hn ▸ hm) hkey

/-- The manager is served: what it waits for is returned or still behind the cursor,
which has moved. -/
theorem servedSelf (hinv : ReproInv hash (st, h)) {mgr' : Manager K}
    (hmgr' : st'.managers.lookup name = some mgr') :
    ServedGood hash name mgr' st' (.pendingRepro name mgr.calls result :: h) := by
  obtain ⟨m', hm', hown, hcase⟩ := hpoll.self
  obtain rfl := some.inj (hm'.symm.trans hmgr')
  obtain ⟨hsubmitted, hreturned, hwaiting⟩ := hinv.served name mgr hpoll.lookup
  have hle : mgr.reproSeq ≤ m'.reproSeq := by
    rcases hcase with ⟨-, hend, -⟩ | ⟨key, rec, -, hpending, -, hcursor, -⟩
    · exact (hinv.good.cursors name mgr hpoll.lookup).trans hend.ge
    · exact (pending_iff.mp hpending).1.le.trans hcursor.ge
  refine ⟨fun x rec hmem hrec hval => ?_, fun x hx => ?_, ?_⟩
  · rw [hpoll.repros] at hrec
    rw [hown]
    exact (hsubmitted x rec hmem hrec hval).imp_right fun hseq => hseq.trans hle
  · rw [hpoll.repros]
    rw [returnedRepros_cons, if_pos rfl] at hx
    rcases mem_append.mp hx with hnew | hold
    · rcases hcase with ⟨rfl, -⟩ | ⟨key, rec, hrec, -, rfl, hcursor, -⟩
      · cases hnew
      · obtain rfl : x = rec.val := by simpa using hnew
        obtain ⟨-, -, hkey, -⟩ := hinv.good.records key rec hrec
        exact ⟨rec, hkey ▸ hrec, hcursor.ge⟩
    · obtain ⟨rec, hrec, hseq⟩ := hreturned x hold
      exact ⟨rec, hrec, hseq.trans hle⟩
  · intro newer sender x seq older hsplit hsender hopens hpolls
    rcases eq_head_or_tail hsplit with ⟨-, heq, -⟩ | ⟨newer', rfl, hsplit'⟩
    · cases heq
    rw [returnedRepros_cons, if_pos rfl, reproPolls_cons, if_pos rfl, hown]
    have hsupports := hpolls mgr.calls result mem_cons_self
    obtain ⟨hstored, -, huniq⟩ := hinv.accepted.stored sender x seq
      (by rw [hsplit']; exact mem_append_right _ mem_cons_self)
    rcases hwaiting newer' sender x seq older hsplit' hsender
      (fun e he => hopens e (mem_cons_of_mem _ he))
      (fun calls result hmem => hpolls calls result (mem_cons_of_mem _ hmem)) with
      hdone | ⟨hlt, hcount, hnotown⟩
    · exact .inl (mem_append_right _ hdone)
    have hwaits : pending mgr.reproSeq mgr.ownRepros mgr.calls (hash x, ⟨x, seq⟩) = true :=
      pending_iff.mpr ⟨hlt, hnotown, hsupports⟩
    rcases hcase with ⟨-, -, hnothing⟩ | ⟨key, rec, hrec, hpending, rfl, hcursor, hmin⟩
    · rw [hnothing _ _ hstored] at hwaits
      cases hwaits
    have hfirst := hmin _ _ hstored hwaits
    have hmoved := (pending_iff.mp hpending).1
    rcases lt_or_eq_of_le hfirst with hbefore | hsame
    · exact .inr ⟨hcursor ▸ hbefore, by omega, hnotown⟩
    · -- The number is that of the reproducer, so it is returned now.
      obtain rfl := huniq key rec hrec hsame
      obtain rfl := some.inj (hstored.symm.trans hrec)
      exact .inl (mem_append_left _ (by simp))

theorem inv (hinv : ReproInv hash (st, h)) :
    ReproInv hash (st', .pendingRepro name mgr.calls result :: h) := by
  obtain ⟨hsubmitted, hreturned, -⟩ := hinv.served name mgr hpoll.lookup
  obtain ⟨mgr', hmgr', hown, hcase⟩ := hpoll.self
  refine ⟨hpoll.good hinv.good, hinv.accepted.cons hpoll.repros rfl, ?_, ?_, ?_, ?_, ?_⟩
  · rw [hpoll.repros]
    exact hinv.parsed
  · intro n
    rw [seqOf_congr hpoll.repros, returnedRepros_cons]
    split
    · rename_i hn
      subst hn
      rcases hcase with ⟨rfl, -⟩ | ⟨key, rec, hrec, hpending, rfl, -⟩
      · exact hinv.ordered name
      · refine pairwise_cons.mpr ⟨fun x hx => ?_, hinv.ordered name⟩
        obtain ⟨recx, hrecx, hseq⟩ := hreturned x hx
        obtain ⟨-, -, hkey, -⟩ := hinv.good.records key rec hrec
        rw [seqOf_eq hrecx, seqOf_eq (hkey.symm ▸ hrec)]
        exact hseq.trans_lt (pending_iff.mp hpending).1
    · exact hinv.ordered n
  · intro n newer calls x older hsplit
    rcases eq_head_or_tail hsplit with ⟨-, heq, rfl⟩ | ⟨newer', rfl, hsplit'⟩
    · obtain ⟨rfl, -, hresult⟩ := ReproEvent.pendingRepro.inj heq
      rcases hcase with ⟨rfl, -⟩ | ⟨key, rec, hrec, hpending, rfl, -⟩
      · cases hresult
      cases hresult
      obtain ⟨-, -, hkey, -⟩ := hinv.good.records key rec hrec
      obtain ⟨hlt, hnotown, -⟩ := pending_iff.mp hpending
      intro hmem
      rcases hsubmitted rec.val rec hmem (hkey.symm ▸ hrec) rfl with hmine | hserved
      · exact hnotown (hkey ▸ hmine)
      · exact not_le.mpr hlt hserved
    · exact hinv.notOwn n newer' calls x older hsplit'
  · intro n m hm
    by_cases hn : n = name
    · subst hn
      exact hpoll.servedSelf hinv hm
    have hm₀ := hpoll.others n hn ▸ hm
    obtain ⟨hsub, hret, hwait⟩ := hinv.served n m hm₀
    refine ⟨?_, ?_, ?_⟩
    · rw [hpoll.repros]
      exact hsub
    · rw [hpoll.repros, returnedRepros_cons, if_neg (Ne.symm hn)]
      exact hret
    intro newer sender x seq older hsplit hsender hopens hpolls
    rcases eq_head_or_tail hsplit with ⟨-, heq, -⟩ | ⟨newer', rfl, hsplit'⟩
    · cases heq
    · rw [returnedRepros_cons, if_neg (Ne.symm hn), reproPolls_cons, if_neg (Ne.symm hn)]
      exact hwait newer' sender x seq older hsplit' hsender
        (fun e he => hopens e (mem_cons_of_mem _ he))
        fun calls result hmem => hpolls calls result (mem_cons_of_mem _ hmem)
  · intro n hnone
    have hn : n ≠ name := by
      rintro rfl
      rw [hmgr'] at hnone
      cases hnone
    obtain ⟨hnosub, hnoret, hnopoll⟩ := hinv.absent n (hpoll.others n hn ▸ hnone)
    rw [returnedRepros_cons, if_neg (Ne.symm hn), reproPolls_cons, if_neg (Ne.symm hn)]
    exact ⟨hnosub, hnoret, hnopoll⟩

end Polls

omit [DecidableEq K] in
theorem lookup_moveReproSeq_self {seq : Nat} (hmgr : st.managers.lookup name = some mgr) :
    (st.moveReproSeq name seq).managers.lookup name =
      some { mgr with reproSeq := seq, reproSeqFile := seq } := by
  rw [State.moveReproSeq, Table.lookup_modify_self, hmgr, map_some]

/-- **`PendingRepro` of a connected manager is a poll.** -/
theorem pendingRepro_polls (hgood : ReprosGood hash st) (order : Table.RangeOrder K Rec)
    (hmgr : st.connectedManager name = some mgr) :
    ∃ result, (st.pendingRepro order name).2 = .ok result ∧
      Polls name mgr result st (st.pendingRepro order name).1 := by
  have hlookup := lookup_of_connectedManager hmgr
  rw [State.pendingRepro, hmgr]
  dsimp only
  by_cases hend : mgr.reproSeq = st.reproSeq
  · rw [if_pos hend]
    refine ⟨none, rfl, hlookup, rfl, rfl, fun _ _ => rfl, mgr, hlookup, rfl,
      .inl ⟨rfl, hend, fun key rec hrec => ?_⟩⟩
    rw [← Bool.not_eq_true, pending_iff]
    rintro ⟨hlt, -⟩
    exact not_le.mpr hlt (hend ▸ (hgood.records key rec hrec).1)
  · have hcollect : collect mgr.wantsRepro (order.list st.repros) = .ok
        ((order.list st.repros).filter (pending mgr.reproSeq mgr.ownRepros mgr.calls)) := by
      refine collect_eq_filter fun e he => wants_eq_pending _ _ _ ?_
      exact (hgood.records e.1 e.2 (Table.mem_list_iff.mp he)).2.2.2
    have hmem : ∀ e, e ∈ (order.list st.repros).filter
        (pending mgr.reproSeq mgr.ownRepros mgr.calls) ↔ st.repros.lookup e.1 = some e.2 ∧
          pending mgr.reproSeq mgr.ownRepros mgr.calls e = true :=
      fun e => mem_filter.trans (and_congr_left' Table.mem_list_iff)
    rw [if_neg hend, hcollect]
    dsimp only
    have hother : ∀ n seq, n ≠ name →
        (st.moveReproSeq name seq).managers.lookup n = st.managers.lookup n :=
      fun n seq hn => Table.lookup_modify_of_ne hn _ _
    rcases firstRepro_spec (l := (order.list st.repros).filter
        (pending mgr.reproSeq mgr.ownRepros mgr.calls))
      (fun e he => (hgood.records e.1 e.2 ((hmem e).mp he).1).2.1) with
      ⟨hfirst, hnil⟩ | ⟨e, he, hfirst, hmin⟩
    · rw [hfirst]
      refine ⟨none, rfl, hlookup, rfl, rfl, fun n hn => hother n _ hn, _,
        lookup_moveReproSeq_self hlookup, rfl, .inl ⟨rfl, rfl, fun key rec hrec => ?_⟩⟩
      rw [← Bool.not_eq_true]
      intro hpending
      have hin := (hmem (key, rec)).mpr ⟨hrec, hpending⟩
      rw [hnil] at hin
      cases hin
    · rw [hfirst]
      obtain ⟨hrec, hpending⟩ := (hmem e).mp he
      exact ⟨some e.2.val, rfl, hlookup, rfl, rfl, fun n hn => hother n _ hn, _,
        lookup_moveReproSeq_self hlookup, rfl, .inr ⟨e.1, e.2, hrec, hpending, rfl, rfl,
          fun key' rec' hrec' hpending' => hmin (key', rec') ((hmem _).mpr ⟨hrec', hpending'⟩)⟩⟩

/-- A submission of a new reproducer stores it. -/
theorem ownRepro_stores (hgood : ReprosGood hash st) (hmgr : st.managers.lookup name = some mgr)
    (hnew : st.repros.lookup (hash repro) = none) (hnext : nextSeq st.reproSeq = st.reproSeq + 1) :
    Stores hash name repro st
      { st.ownRepro name mgr (hash repro) with
        reproSeq := nextSeq st.reproSeq
        repros := st.repros.insert (hash repro) ⟨repro, nextSeq st.reproSeq⟩ } := by
  refine ⟨hnext, hnew, by rw [hnext], fun n m' hm' => ?_, by rw [hmgr]; rfl, fun n hnone => ?_⟩
  · obtain ⟨m, hm, hother, hself⟩ := lookup_ownRepro hmgr hm'
    have hcursor := hgood.cursors n m hm
    refine ⟨m, hm, ?_⟩
    by_cases hn : n = name
    · obtain ⟨hown, hseq⟩ := hself hn
      rw [hown]
      refine ⟨by omega, by omega, subset_rfl, subset_insert _ _,
        fun _ => mem_insert_self _ _, fun hne => absurd hn hne, fun hlt => ?_⟩
      omega
    · obtain rfl := hother hn
      exact ⟨le_rfl, by omega, subset_insert _ _, subset_rfl, fun h => absurd h hn,
        fun _ => rfl, fun _ => rfl⟩
  · rw [← not_isSome_iff_eq_none] at hnone ⊢
    refine fun hsome => hnone ?_
    rw [State.ownRepro]
    split
    · rw [State.moveReproSeq, Table.lookup_modify, Table.lookup_modify]
      split <;> simpa using hsome
    · rw [Table.lookup_modify]
      split <;> simpa using hsome

theorem connect_kept {domain : String} {fresh : Bool} {calls : List CallName}
    {corpus : List Program} (hconn : st.connect hash name domain fresh calls corpus = some st')
    (hnone : st'.managers.lookup n = none) : st.managers.lookup n = none := by
  obtain ⟨u, hadd, rfl⟩ := map_eq_some_iff.mp hconn
  have hview := (SameRepros.addInputs hadd).managers n
  rw [show u.managers.lookup n = none from hnone, map_none, eq_comm,
    map_eq_none_iff, State.connectManager] at hview
  rw [Table.lookup_modify] at hview
  have hensure : (st.ensureManager name).managers.lookup n = none := by
    split at hview
    · exact map_eq_none_iff.mp hview
    · exact hview
  rw [State.ensureManager] at hensure
  split at hensure
  · exact hensure
  · rw [State.createManager, Table.lookup_insert] at hensure
    split at hensure
    · cases hensure
    · exact hensure

/-- **Every call preserves the invariant** if it submits nothing that the manager has
still to be served. -/
theorem ReproInv.call (hinv : ReproInv hash (st, h)) {c : Call K} (hnew : NewToHub hash st c)
    {r : State K × Reply} (hcall : st.call hash c = some r) :
    ReproInv hash (r.1, .of hash st r.1 c r.2 :: h) := by
  have hother : ReproEvent.other.Quiet := ⟨rfl, fun _ => rfl, fun _ => rfl, fun _ => rfl⟩
  have hstay : ReproInv hash (st, .other :: h) :=
    hinv.move hother rfl rfl
      (fun n m hm => .inl ⟨m, hm, rfl, le_rfl, hinv.good.cursors n m hm, fun _ => rfl⟩)
      fun _ => id
  cases c with
  | connect name domain fresh calls corpus =>
    obtain ⟨st', hconn, rfl⟩ := map_eq_some_iff.mp hcall
    obtain ⟨hseq, hrepros, hmgrs⟩ := connect_spec hconn
    refine hinv.move ⟨rfl, fun _ => rfl, fun _ => rfl, fun _ => rfl⟩ hseq hrepros
      (fun n m' hm' => ?_) fun n => connect_kept hconn
    rcases hmgrs n m' hm' with ⟨m, hm, hown, hcursor, hsame, hkeep⟩ | ⟨hn, hnone, hown, hcursor⟩
    · have hbound := hinv.good.cursors n m hm
      refine .inl ⟨m, hm, hown, ?_, ?_, fun hopens => ?_⟩
      · rcases hcursor with heq | heq
        · exact heq.ge
        · exact hbound.trans heq.ge
      · rcases hcursor with heq | heq
        · exact heq.le.trans hbound
        · exact heq.le
      by_cases hn : n = name
      · refine hkeep hn ?_
        rw [← Bool.not_eq_true]
        rintro rfl
        simp [ReproEvent.opensFor, ReproEvent.of, hn] at hopens
      · exact congrArg Prod.fst (hsame hn)
    · refine .inr ⟨hnone, hown, hcursor, ?_⟩
      have hfirst : st.connectedManager name = none := by
        rw [State.connectedManager, ← hn, hnone]
        rfl
      simp [ReproEvent.opensFor, ReproEvent.of, hn, hfirst]
  | sync draws name add del =>
    obtain ⟨r, hsync, rfl⟩ := map_eq_some_iff.mp hcall
    have hsame := SameRepros.sync hsync
    refine hinv.move hother hsame.reproSeq hsame.repros (fun n m' hm' => ?_) fun n hnone => ?_
    · obtain ⟨m, hm, hview⟩ := hsame.lookup hm'
      simp only [Manager.reproView, Prod.mk.injEq] at hview
      obtain ⟨hcursor, hown, -⟩ := hview
      exact .inl ⟨m, hm, hown, hcursor.ge, hcursor.le.trans (hinv.good.cursors n m hm),
        fun _ => hcursor⟩
    · have hview := hsame.managers n
      rwa [hnone, map_none, eq_comm, map_eq_none_iff] at hview
  | addRepro name repro =>
    obtain ⟨r, hadd, rfl⟩ := map_eq_some_iff.mp hcall
    obtain ⟨hlimit, hserved⟩ := hnew
    have hnext : nextSeq st.reproSeq = st.reproSeq + 1 := by
      rw [seqDeleted] at hlimit
      exact mod_eq_of_lt (by omega)
    rw [State.addRepro] at hadd
    split at hadd
    · cases hadd
      exact hstay
    rename_i mgr hmgr
    have hlookup := lookup_of_connectedManager hmgr
    have hreject : ∀ {r : State K × Except Error Unit}, some (st, .ok ()) = some r →
        ((callSet repro).isSome → (st.repros.lookup (hash repro)).isSome) →
        ReproInv hash (r.1, .of hash st r.1 (.addRepro name repro) (.added r.2) :: h) := by
      intro r hr hknown
      cases hr
      have hevent : acceptedSeq (hash repro) st st = none := by
        rw [acceptedSeq]
        split
        · rfl
        · rename_i hnone
          rw [not_isSome_iff_eq_none.mp hnone]
          rfl
      have hinv' := hinv.reject hlookup hknown fun rec hrec => hserved mgr hmgr rec hrec
      rwa [← hevent] at hinv'
    split at hadd
    · rename_i hbad
      exact hreject hadd fun hsome => by rw [hbad] at hsome; cases hsome
    rename_i calls hcalls
    split at hadd
    · rename_i hknown
      exact hreject hadd fun _ => hknown
    rename_i hunknown
    split at hadd
    · cases hadd
    rename_i hlast
    cases hadd
    have hnone := not_isSome_iff_eq_none.mp hunknown
    have hstores := ownRepro_stores hinv.good hlookup hnone hnext
    have hlt : st.reproSeq + 1 < seqDeleted := by omega
    have hinv' := hstores.inv hinv (by rw [hcalls]; rfl) hlt
    have hevent : acceptedSeq (hash repro) st
        { st.ownRepro name mgr (hash repro) with
          reproSeq := nextSeq st.reproSeq
          repros := st.repros.insert (hash repro) ⟨repro, nextSeq st.reproSeq⟩ } =
        some (st.reproSeq + 1) := by
      rw [acceptedSeq, if_neg hunknown, hstores.stored]
      rfl
    rwa [← hevent] at hinv'
  | pendingRepro order name =>
    cases hcall
    cases hmgr : st.connectedManager name with
    | none =>
      have hpoll : st.pendingRepro order name = (st, .error (.unconnectedManager name)) := by
        rw [State.pendingRepro, hmgr]
      rw [hpoll]
      exact hstay
    | some mgr =>
      obtain ⟨result, hresult, hpolls⟩ := pendingRepro_polls hinv.good order hmgr
      have hinv' := hpolls.inv hinv
      rw [hresult, ReproEvent.of, hpolls.lookup]
      exact hinv'

end Steps

/-! ## The start of the hub -/

/-- While the managers are loaded, no cursor gets ahead. -/
theorem createManager_good (hgood : ReprosGood hash st) (name : String) (files : State.Files K) :
    ReprosGood hash (st.createManager name files) := by
  have hle : st.reproSeq ≤ (st.createManager name files).reproSeq := le_max_left _ _
  refine ⟨fun key rec hrec => ?_, fun n m hm => ?_, fun n m key hm hkey => ?_⟩
  · obtain ⟨hseq, hrest⟩ := hgood.records key rec hrec
    exact ⟨hseq.trans hle, hrest⟩
  · rw [State.createManager, Table.lookup_insert] at hm
    split at hm
    · cases hm
      exact le_max_right _ _
    · exact (hgood.cursors n m hm).trans hle
  · rw [State.createManager, Table.lookup_insert] at hm
    split at hm
    · cases hm
      exact absurd hkey (notMem_empty key)
    · exact hgood.own n m key hm hkey

theorem make_good (hash : Program → K) (disk : State.Disk K) :
    ReprosGood hash (State.make hash disk) := by
  have hload : ReprosGood hash (.loadDBs hash disk) :=
    ⟨fun key rec hrec => loadDB_records hrec, nofun, nofun⟩
  have hfold : ∀ (l : List (String × State.Files K)) {st : State K}, ReprosGood hash st →
      ReprosGood hash (l.foldl (fun st m => st.createManager m.1 m.2) st) := by
    intro l
    induction l with
    | nil => exact id
    | cons m l ih => exact fun hst => ih (createManager_good hst m.1 m.2)
  obtain ⟨hrecords, hcursors, hown⟩ := hfold disk.managers hload
  exact ⟨hrecords, hcursors, hown⟩

theorem ReproInv.make (hash : Program → K) (disk : State.Disk K) :
    ReproInv hash (State.make hash disk, []) where
  good := make_good hash disk
  accepted := ⟨nofun, .nil⟩
  parsed := nofun
  ordered _ := .nil
  notOwn _ newer _ _ _ hsplit := by cases newer <;> cases hsplit
  served _ _ _ := ⟨nofun, nofun, fun newer _ _ _ _ hsplit => by cases newer <;> cases hsplit⟩
  absent _ _ := ⟨rfl, rfl, rfl⟩

/-! ## Delivery -/

/-- The invariant says that reproducers are delivered. -/
theorem ReproInv.delivery {s : State K × List ReproEvent} (hinv : ReproInv hash s) (name : String) :
    ReproDelivery name s.2 := by
  have hirrefl : ∀ {l : List Program},
      (l.Pairwise fun x y => seqOf hash s.1 y < seqOf hash s.1 x) → l.Nodup :=
    fun hl => hl.imp (S := (· ≠ ·)) fun hlt heq => lt_irrefl _ (heq ▸ hlt)
  refine ⟨hirrefl (hinv.ordered name), ?_, hinv.notOwn name, ?_⟩
  · have hordered := (hinv.ordered name).filter (· ∈ acceptedRepros s.2)
    have hsubset : (returnedRepros name s.2).filter (· ∈ acceptedRepros s.2) ⊆
        acceptedRepros s.2 := fun x hx => of_decide_eq_true (mem_filter.mp hx).2
    exact sublist_of_subperm_of_pairwise
      (subperm_of_subset (hirrefl hordered) hsubset) hordered hinv.accepted.ordered
  · intro newer sender repro seq older hsplit hsender hopens hpolls hcount
    cases hmgr : s.1.managers.lookup name with
    | none =>
      have hpos := (hinv.accepted.stored sender repro seq
        (by rw [hsplit]; exact mem_append_right _ mem_cons_self)).2.1
      have hzero := (hinv.absent name hmgr).2.2
      rw [hsplit, reproPolls, countP_append] at hzero
      rw [reproPolls] at hcount
      omega
    | some mgr =>
      rcases (hinv.served name mgr hmgr).waiting newer sender repro seq older hsplit hsender
        hopens hpolls with hdone | ⟨hlt, hle, -⟩
      · exact hdone
      · omega

/-- **Reproducers are delivered in every run in which no manager submits one that the hub
has from another and that it has still to be served**, whatever was on disk at the start. -/
theorem repros_delivered {hash : Program → K} {disk : State.Disk K} {calls : List (Call K)}
    {s : State K × List ReproEvent}
    (hrun : StepRuns.run (State.logRepros hash) (State.make hash disk, []) calls = some s)
    (hnew : StepRuns.Along (State.logRepros hash) (fun s c => NewToHub hash s.1 c)
      (State.make hash disk, []) calls) (name : String) : ReproDelivery name s.2 := by
  refine ReproInv.delivery (StepRuns.invariant_along (I := ReproInv hash) ?_
    (ReproInv.make hash disk) hnew hrun) name
  intro s c s' hinv hgood hstep
  obtain ⟨r, hr, rfl⟩ := map_eq_some_iff.mp hstep
  exact hinv.call hgood hr

/-! ### Two managers -/

/-- Programs are their own hashes, and databases are read in their order. -/
def reproInOrder : Table.RangeOrder Program Rec := .inOrder

/-- `open()`. -/
def openProgram : Program := [111, 112, 101, 110, 40, 41]

/-- Two managers connect, and the first one submits a reproducer. -/
def twoManagers : List (Call Program) :=
  [.connect "foo" "" false [[111, 112, 101, 110]] [],
    .connect "bar" "" false [[111, 112, 101, 110]] [], .addRepro "foo" openProgram]

/-- The hub starts without files. -/
def noFiles : State.Disk Program := ⟨.empty, .empty, []⟩

/-- The second one is sent it, and may submit it after that. -/
theorem repros_delivered_submittedLate :
    ∃ s, StepRuns.run (State.logRepros id) (State.make id noFiles, [])
        (twoManagers ++ [.pendingRepro reproInOrder "bar", .addRepro "bar" openProgram,
          .pendingRepro reproInOrder "bar"]) = some s ∧
      returnedRepros "bar" s.2 = [openProgram] ∧ ReproDelivery "bar" s.2 := by
  have hrun : ((StepRuns.run (State.logRepros id) (State.make id noFiles, [])
      (twoManagers ++ [.pendingRepro reproInOrder "bar", .addRepro "bar" openProgram,
        .pendingRepro reproInOrder "bar"])).map fun s => returnedRepros "bar" s.2) =
      some [openProgram] := by decide +kernel
  obtain ⟨s, hs, hreturned⟩ := map_eq_some_iff.mp hrun
  refine ⟨s, hs, hreturned, repros_delivered hs ?_ "bar"⟩
  have hcheck : StepRuns.check (State.logRepros id) (fun s c => decide (NewToHub id s.1 c))
      (State.make id noFiles, [])
      (twoManagers ++ [.pendingRepro reproInOrder "bar", .addRepro "bar" openProgram,
        .pendingRepro reproInOrder "bar"]) = true := by decide +kernel
  exact StepRuns.Along.of_check (fun _ _ => of_decide_eq_true) hcheck

/-- **A manager is sent its own reproducer**: when it submitted it, the hub already had it,
and the manager had not been served it yet. -/
theorem repro_sentBack :
    ∃ s, StepRuns.run (State.logRepros id) (State.make id noFiles, [])
        (twoManagers ++ [.addRepro "bar" openProgram, .pendingRepro reproInOrder "bar"]) = some s ∧
      ¬ ReproDelivery "bar" s.2 := by
  refine ⟨_, rfl, fun hdelivery => ?_⟩
  exact hdelivery.notOwn [] [[111, 112, 101, 110]] openProgram _ rfl (by decide +kernel)

end Sect.Hub
