import SectProof.HubState

/-! # Reproducers in the hub

The hub numbers the reproducers it accepts.  A manager has a cursor, the number of the
last one it was served, and a set of its own; `PendingRepro` returns the reproducer with
the smallest number behind the cursor that is not an own one and moves the cursor to it.

This module says what it means that reproducers are delivered (`ReproDelivery`), finds
the smallest number (`firstRepro_spec`), and shows that the other calls leave what is
about reproducers alone (`SameRepros`, `connect_spec`).
-/

open Option

namespace Sect.Hub
open State (firstRepro)
variable {K : Type} [DecidableEq K]

/-! ## The history of a hub -/

/-- What a call means for the delivery of reproducers.  `opens` says that a connect is
the first one of the manager or a fresh one, `accepted` is the number under which the hub
has accepted a reproducer. -/
inductive ReproEvent
  | connect (name : String) (opens : Bool)
  | addRepro (name : String) (repro : Program) (accepted : Option Nat)
  | pendingRepro (name : String) (calls : List CallName) (result : Option Program)
  | other

/-- The number of a reproducer that is in the hub after a call and was not before. -/
def acceptedSeq (sig : K) (st st' : State K) : Option Nat :=
  if (st.repros.lookup sig).isSome then none else (st'.repros.lookup sig).map Rec.seq

def ReproEvent.of (hash : Program → K) (st st' : State K) : Call K → Reply → ReproEvent
  | .connect name _ fresh _ _, _ => .connect name (fresh || (st.connectedManager name).isNone)
  | .addRepro name repro, .added (.ok _) =>
    .addRepro name repro (acceptedSeq (hash repro) st st')
  | .pendingRepro _ name, .pending (.ok result) =>
    .pendingRepro name (((st.managers.lookup name).map Manager.calls).getD []) result
  | _, _ => .other

/-- A call and the record of it; the newest comes first. -/
def State.logRepros (hash : Program → K) (s : State K × List ReproEvent) (c : Call K) :
    Option (State K × List ReproEvent) :=
  (s.1.call hash c).map fun r => (r.1, .of hash s.1 r.1 c r.2 :: s.2)

namespace ReproEvent

/-- The manager connects for the first time, or fresh. -/
def opensFor (name : String) : ReproEvent → Bool
  | .connect name' opens => name' = name ∧ opens
  | _ => false

def isPoll (name : String) : ReproEvent → Bool
  | .pendingRepro name' _ _ => name' = name
  | _ => false

/-- The reproducer that the manager is sent. -/
def returnedTo (name : String) : ReproEvent → Option Program
  | .pendingRepro name' _ result => if name' = name then result else none
  | _ => none

/-- The reproducer that the hub accepts. -/
def acceptedRepro : ReproEvent → Option Program
  | .addRepro _ repro accepted => accepted.map fun _ => repro
  | _ => none

/-- The reproducer that the manager submits. -/
def submittedBy (name : String) : ReproEvent → Option Program
  | .addRepro name' repro _ => if name' = name then some repro else none
  | _ => none

end ReproEvent

/-- All that the manager was sent; the newest comes first. -/
def returnedRepros (name : String) (h : List ReproEvent) : List Program :=
  h.filterMap (ReproEvent.returnedTo name)

/-- All that the hub has accepted. -/
def acceptedRepros (h : List ReproEvent) : List Program := h.filterMap ReproEvent.acceptedRepro

/-- All that the manager has submitted. -/
def submittedRepros (name : String) (h : List ReproEvent) : List Program :=
  h.filterMap (ReproEvent.submittedBy name)

/-- The number of polls of the manager. -/
def reproPolls (name : String) (h : List ReproEvent) : Nat := h.countP (ReproEvent.isPoll name)

/-- **Reproducers are delivered to the manager.**  A reproducer that was accepted from
another manager since it last connected fresh or for the first time is there after as
many polls as its number says, if the manager supported its calls in all of them. -/
structure ReproDelivery (name : String) (h : List ReproEvent) : Prop where
  once : (returnedRepros name h).Nodup
  ordered : ((returnedRepros name h).filter (· ∈ acceptedRepros h)).Sublist (acceptedRepros h)
  notOwn : ∀ newer calls repro older,
    h = newer ++ .pendingRepro name calls (some repro) :: older →
      repro ∉ submittedRepros name older
  complete : ∀ newer sender repro seq older,
    h = newer ++ .addRepro sender repro (some seq) :: older → sender ≠ name →
    (∀ ev ∈ newer, ev.opensFor name = false) →
    (∀ calls result, .pendingRepro name calls result ∈ newer → supports calls repro = true) →
    seq ≤ reproPolls name newer → repro ∈ returnedRepros name newer

/-- **No manager submits a reproducer that the hub has from another and that it has still
to be served**, and the numbers do not run out. -/
def NewToHub (hash : Program → K) (st : State K) : Call K → Prop
  | .addRepro name repro => st.reproSeq < seqDeleted ∧
    ∀ mgr ∈ st.connectedManager name, ∀ rec ∈ st.repros.lookup (hash repro),
      rec.val = repro → hash repro ∈ mgr.ownRepros ∨ rec.seq ≤ mgr.reproSeq
  | _ => True

instance (hash : Program → K) (st : State K) : DecidablePred (NewToHub hash st)
  | .addRepro _ _ => inferInstanceAs (Decidable (_ ∧ _))
  | .connect .. | .sync .. | .pendingRepro .. => isTrue trivial

/-! ## The smallest number -/

omit [DecidableEq K] in
/-- **The loop finds the smallest number.** -/
theorem firstRepro_spec {l : List (K × Rec)} (h : ∀ e ∈ l, e.2.seq < seqDeleted) :
    (firstRepro l = (seqDeleted, none) ∧ l = []) ∨
      ∃ e ∈ l, firstRepro l = (e.2.seq, some e.2.val) ∧ ∀ e' ∈ l, e.2.seq ≤ e'.2.seq := by
  induction l using List.reverseRecOn with
  | nil => exact .inl ⟨rfl, rfl⟩
  | append_singleton l x ih =>
    have hx : x.2.seq < seqDeleted := h x (by simp)
    have hstep : firstRepro (l ++ [x]) = if (firstRepro l).1 > x.2.seq
        then (x.2.seq, some x.2.val) else firstRepro l := by
      rw [firstRepro, List.foldl_append]
      rfl
    rw [hstep]
    refine .inr ?_
    rcases ih fun e he => h e (List.mem_append_left _ he) with ⟨hfirst, rfl⟩ | ⟨e, he, hfirst, hmin⟩
    · refine ⟨x, by simp, ?_, by simp⟩
      rw [hfirst, if_pos hx]
    rw [hfirst]
    by_cases hlt : e.2.seq > x.2.seq
    · refine ⟨x, by simp, if_pos hlt, fun e' he' => ?_⟩
      rcases List.mem_append.mp he' with hl | hx'
      · exact hlt.le.trans (hmin e' hl)
      · rw [List.mem_singleton.mp hx']
    · refine ⟨e, List.mem_append_left _ he, if_neg hlt, fun e' he' => ?_⟩
      rcases List.mem_append.mp he' with hl | hx'
      · exact hmin e' hl
      · rw [List.mem_singleton.mp hx']
        exact Nat.not_lt.mp hlt

/-! ## What the other calls leave alone -/

/-- What the delivery of reproducers reads of a manager. -/
def Manager.reproView (mgr : Manager K) : Nat × Finset K × Bool × List CallName :=
  (mgr.reproSeq, mgr.ownRepros, mgr.connected, mgr.calls)

/-- Two states that agree on everything about reproducers. -/
structure SameRepros (st st' : State K) : Prop where
  reproSeq : st'.reproSeq = st.reproSeq
  repros : st'.repros = st.repros
  managers : ∀ name, (st'.managers.lookup name).map Manager.reproView =
    (st.managers.lookup name).map Manager.reproView

namespace SameRepros
variable {st st' st'' : State K}

omit [DecidableEq K] in
theorem refl (st : State K) : SameRepros st st := ⟨rfl, rfl, fun _ => rfl⟩

omit [DecidableEq K] in
theorem trans (h : SameRepros st st') (h' : SameRepros st' st'') : SameRepros st st'' :=
  ⟨h'.reproSeq.trans h.reproSeq, h'.repros.trans h.repros,
    fun name => (h'.managers name).trans (h.managers name)⟩

variable {name : String} {hash : Program → K}

omit [DecidableEq K] in
/-- Changing a manager elsewhere. -/
theorem modify {g : Manager K → Manager K} {st : State K}
    (hg : ∀ mgr, (g mgr).reproView = mgr.reproView) :
    SameRepros st { st with managers := st.managers.modify name g } := by
  refine ⟨rfl, rfl, fun name' => ?_⟩
  rw [Table.lookup_modify]
  split
  · rw [map_map]
    exact congrArg (Option.map · _) (funext hg)
  · rfl

theorem addInput {input : Program} (h : st.addInput hash name input = some st') :
    SameRepros st st' := by
  rw [State.addInput] at h
  split at h
  · cases h
    exact refl st
  split at h
  · cases h
    exact refl st
  have hown : SameRepros st (st.ownInput name (hash input)) := modify fun _ => rfl
  rw [State.saveInput] at h
  split at h
  · cases h
    exact hown
  · split at h
    · cases h
    · cases h
      exact hown.trans ⟨rfl, rfl, fun _ => rfl⟩

theorem addInputs {inputs : List Program} (h : st.addInputs hash name inputs = some st') :
    SameRepros st st' := by
  rw [State.addInputs] at h
  split at h
  · cases h
    exact refl st
  have hfold : ∀ (l : List Program) {u u' : State K},
      l.foldlM (State.addInput hash name) u = some u' → SameRepros u u' := by
    intro l
    induction l with
    | nil =>
      intro u u' hu
      cases hu
      exact refl u
    | cons input rest ih =>
      intro u u' hu
      obtain ⟨v, hv, hrest⟩ := bind_eq_some_iff.mp hu
      exact (addInput hv).trans (ih hrest)
  have hnext : SameRepros st { st with corpusSeq := nextSeq st.corpusSeq } :=
    ⟨rfl, rfl, fun _ => rfl⟩
  exact hnext.trans (hfold inputs h)

theorem deleteInputs (name : String) (del : List K) (st : State K) :
    SameRepros st (st.deleteInputs name del) := by
  rw [State.deleteInputs]
  split
  · exact refl st
  · have hdeleted : SameRepros st { st with managers := st.managers.modify name fun mgr =>
        { mgr with corpus := mgr.corpus \ del.toFinset } } := modify fun _ => rfl
    exact hdeleted.trans ⟨rfl, rfl, fun _ => rfl⟩

theorem pendingInputs (draws : Draws K) (name : String) (mgr : Manager K) (st : State K) :
    SameRepros st (st.pendingInputs draws name mgr).1 := by
  rw [State.pendingInputs]
  split
  · exact refl st
  · split
    · exact refl st
    · exact modify fun _ => rfl

theorem sync {draws : Draws K} {add : List Program} {del : List K} {r : State K × State.SyncReply}
    (h : st.sync hash draws name add del = some r) : SameRepros st r.1 := by
  rw [State.sync] at h
  split at h
  · cases h
    exact refl st
  · obtain ⟨st₁, hadd, h⟩ := bind_eq_some_iff.mp h
    obtain ⟨mgr, hmgr, rfl⟩ := map_eq_some_iff.mp h
    exact ((deleteInputs name del st).trans (addInputs hadd)).trans
      (pendingInputs draws name mgr st₁)

omit [DecidableEq K] in
/-- A manager with its view in the other state. -/
theorem lookup (h : SameRepros st st') {mgr' : Manager K}
    (hmgr' : st'.managers.lookup name = some mgr') :
    ∃ mgr, st.managers.lookup name = some mgr ∧ mgr'.reproView = mgr.reproView := by
  have hview := h.managers name
  rw [hmgr', map_some] at hview
  obtain ⟨mgr, hmgr, heq⟩ := map_eq_some_iff.mp hview.symm
  exact ⟨mgr, hmgr, heq.symm⟩

end SameRepros

/-- **What `Connect` does to the managers, as far as reproducers go**: the one that
connects may be new or moved to the end. -/
theorem connect_spec {hash : Program → K} {name domain : String} {fresh : Bool}
    {calls : List CallName} {corpus : List Program} {st st' : State K}
    (h : st.connect hash name domain fresh calls corpus = some st') :
    st'.reproSeq = st.reproSeq ∧ st'.repros = st.repros ∧
      ∀ name' mgr', st'.managers.lookup name' = some mgr' →
        (∃ mgr, st.managers.lookup name' = some mgr ∧ mgr'.ownRepros = mgr.ownRepros ∧
          (mgr'.reproSeq = mgr.reproSeq ∨ mgr'.reproSeq = st.reproSeq) ∧
          (name' ≠ name → mgr'.reproView = mgr.reproView) ∧
          (name' = name → fresh = false → mgr'.reproSeq = mgr.reproSeq)) ∨
        (name' = name ∧ st.managers.lookup name' = none ∧ mgr'.ownRepros = ∅ ∧
          mgr'.reproSeq = st.reproSeq) := by
  obtain ⟨u, hadd, rfl⟩ := map_eq_some_iff.mp h
  have hsame : SameRepros (st.connectManager name domain fresh calls) u.purgeCorpus :=
    (SameRepros.addInputs hadd).trans ⟨rfl, rfl, fun _ => rfl⟩
  have hensure : (st.ensureManager name).reproSeq = st.reproSeq ∧
      (st.ensureManager name).repros = st.repros := by
    rw [State.ensureManager]
    split
    · exact ⟨rfl, rfl⟩
    · exact ⟨Nat.max_self _, rfl⟩
  refine ⟨hsame.reproSeq.trans hensure.1, hsame.repros.trans hensure.2, fun name' mgr' hmgr' => ?_⟩
  obtain ⟨m, hm, hview⟩ := hsame.lookup hmgr'
  simp only [Manager.reproView, Prod.mk.injEq] at hview
  obtain ⟨hseq, hown, hconn, hcalls⟩ := hview
  rw [State.connectManager] at hm
  rw [Table.lookup_modify, hensure.1] at hm
  by_cases hname : name' = name
  · rw [if_pos hname, State.ensureManager] at hm
    obtain ⟨m₀, hm₀, rfl⟩ := map_eq_some_iff.mp hm
    split at hm₀
    · refine .inl ⟨m₀, hm₀, hown, ?_, fun hne => absurd hname hne, fun _ hfresh => ?_⟩
      · rw [hseq, State.connected]
        cases fresh
        · exact .inl rfl
        · exact .inr rfl
      · rw [hseq, State.connected, hfresh]
        rfl
    · rename_i hnone
      rw [State.createManager, hname, Table.lookup_insert_self] at hm₀
      cases hm₀
      refine .inr ⟨hname, ?_, hown, ?_⟩
      · rw [hname]
        exact not_isSome_iff_eq_none.mp hnone
      · rw [hseq, State.connected]
        cases fresh <;> rfl
  · rw [if_neg hname] at hm
    have hbefore : st.managers.lookup name' = some m := by
      rw [State.ensureManager] at hm
      split at hm
      · exact hm
      · rwa [State.createManager, Table.lookup_insert_of_ne hname] at hm
    exact .inl ⟨m, hbefore, hown, .inl hseq,
      fun _ => by rw [Manager.reproView, hseq, hown, hconn, hcalls]; rfl,
      fun h => absurd h hname⟩

end Sect.Hub
