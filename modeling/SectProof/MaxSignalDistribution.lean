import SectProof.ManagerServer

/-! # Distribution of the maximal signal

Every fuzzer that is not rotated is told the signal that the others have found, in
batches.  The server keeps for it what it has still to be told: at first all of
`maxSignal`, then whatever is new in what the others report.

The invariant couples this pending signal with the history of the connection:
together with what was sent and what the fuzzer reported itself it is `maxSignal`,
and it is above everything that was sent (`Informed`).  **`maxSignal_distributed`**
is what it says about every run.
-/

open Option

namespace Sect.Rpc

open Server
open Sect.Fuzzer (Signal)
variable {P H : Type}

/-! ### The history of a connection -/

/-- The fuzzer `name` connects. -/
def Event.connects (name : String) (ev : Event P H) : Bool :=
  match ev.op with
  | .connect a => a.name = name
  | _ => false

/-- The signal that the reply of a poll carries to the fuzzer `name`. -/
def Event.sentTo (name : String) (ev : Event P H) : Option Signal :=
  match ev.op with
  | .poll _ a => if a.name = name then some (Signal.deserialize ev.res.maxSignal) else none
  | _ => none

/-- The signal that the fuzzer `name` reports with a poll. -/
def Event.reportedBy (name : String) (ev : Event P H) : Option Signal :=
  match ev.op with
  | .poll _ a => if a.name = name then some (Signal.deserialize a.maxSignal) else none
  | _ => none

/-- The events since the fuzzer `name` connected last. -/
def sinceConnect (name : String) (h : List (Event P H)) : List (Event P H) :=
  h.takeWhile fun ev => !ev.connects name

/-- All signal sent to the fuzzer since it connected; the newest comes first. -/
def sentSignals (name : String) (h : List (Event P H)) : List Signal :=
  (sinceConnect name h).filterMap (Event.sentTo name)

/-- All signal that it reported since then. -/
def reportedSignals (name : String) (h : List (Event P H)) : List Signal :=
  (sinceConnect name h).filterMap (Event.reportedBy name)

/-- No element of `later` was in `earlier` with the same or a higher priority. -/
def Ahead (earlier later : Signal) : Prop :=
  ∀ e, later.prio e ≠ ⊥ → earlier.prio e < later.prio e

/-- **What a fuzzer knows and will be told is all there is**, and what it will be told
is news to it. -/
structure Informed (name : String) (f : Fuzzer P) (serv : Server P H) (h : List (Event P H)) :
    Prop where
  complete : ∀ e, PrioMap.sup (sentSignals name h) e ⊔ PrioMap.sup (reportedSignals name h) e ⊔
    f.newMaxSignal.prio e = serv.maxSignal.prio e
  pending : ∀ s ∈ sentSignals name h, Ahead s f.newMaxSignal
  fresh : (sentSignals name h).Pairwise fun later earlier => Ahead earlier later

/-- The invariant of the server. -/
def AllInformed (s : Server P H × List (Event P H)) : Prop :=
  ∀ name f, s.1.fuzzers.lookup name = some f → f.rotated = false → Informed name f s.1 s.2

variable {name : String} {ev : Event P H} {h : List (Event P H)}

theorem sentSignals_cons (hev : ev.connects name = false) :
    sentSignals name (ev :: h) = (ev.sentTo name).toList ++ sentSignals name h := by
  rw [sentSignals, sinceConnect, List.takeWhile_cons_of_pos (by simp [hev]), List.filterMap_cons]
  cases ev.sentTo name <;> rfl

theorem reportedSignals_cons (hev : ev.connects name = false) :
    reportedSignals name (ev :: h) = (ev.reportedBy name).toList ++ reportedSignals name h := by
  rw [reportedSignals, sinceConnect, List.takeWhile_cons_of_pos (by simp [hev]),
    List.filterMap_cons]
  cases ev.reportedBy name <;> rfl

theorem sentSignals_connect (hev : ev.connects name = true) : sentSignals name (ev :: h) = [] := by
  rw [sentSignals, sinceConnect, List.takeWhile_cons_of_neg (by simp [hev]), List.filterMap_nil]

theorem reportedSignals_connect (hev : ev.connects name = true) :
    reportedSignals name (ev :: h) = [] := by
  rw [reportedSignals, sinceConnect, List.takeWhile_cons_of_neg (by simp [hev]),
    List.filterMap_nil]

namespace Informed
variable {name : String} {f f' : Fuzzer P} {serv serv' : Server P H} {h : List (Event P H)}
  {ev : Event P H}

/-- What was sent is below the maximum. -/
theorem sent_le (hinf : Informed name f serv h) {s : Signal} (hs : s ∈ sentSignals name h)
    (e : UInt32) : s.prio e ≤ serv.maxSignal.prio e := by
  have hsup : s.prio e ≤ PrioMap.sup (sentSignals name h) e := PrioMap.le_sup hs e
  rw [← hinf.complete e]
  exact hsup.trans (le_sup_left.trans le_sup_left)

/-- An event that is not about the fuzzer. -/
theorem quiet (hinf : Informed name f serv h) (hconn : ev.connects name = false)
    (hsent : ev.sentTo name = none) (hreported : ev.reportedBy name = none)
    (hmax : serv'.maxSignal = serv.maxSignal) (hnew : f'.newMaxSignal = f.newMaxSignal) :
    Informed name f' serv' (ev :: h) := by
  have hsents : sentSignals name (ev :: h) = sentSignals name h := by
    rw [sentSignals_cons hconn, hsent]
    rfl
  have hreports : reportedSignals name (ev :: h) = reportedSignals name h := by
    rw [reportedSignals_cons hconn, hreported]
    rfl
  refine ⟨fun e => ?_, ?_, ?_⟩
  · rw [hsents, hreports, hmax, hnew]
    exact hinf.complete e
  · rw [hsents, hnew]
    exact hinf.pending
  · rw [hsents]
    exact hinf.fresh

/-- A fuzzer that connects is told everything. -/
theorem connected (hconn : ev.connects name = true) (hnew : f.newMaxSignal = serv.maxSignal) :
    Informed name f serv (ev :: h) := by
  refine ⟨fun e => ?_, ?_, ?_⟩
  · rw [sentSignals_connect hconn, reportedSignals_connect hconn, hnew]
    simp
  · rw [sentSignals_connect hconn]
    exact fun s hs => absurd hs List.not_mem_nil
  · rw [sentSignals_connect hconn]
    exact .nil

/-- Another fuzzer reports `signal`: what is new of it is still to be told. -/
theorem otherPolls (hinf : Informed name f serv h) {signal : Signal}
    (hconn : ev.connects name = false) (hsent : ev.sentTo name = none)
    (hreported : ev.reportedBy name = none)
    (hmax : ∀ e, serv'.maxSignal.prio e = serv.maxSignal.prio e ⊔ signal.prio e)
    (hnew : ∀ e, f'.newMaxSignal.prio e =
      f.newMaxSignal.prio e ⊔ (serv.maxSignal.diff signal).prio e) :
    Informed name f' serv' (ev :: h) := by
  have hsents : sentSignals name (ev :: h) = sentSignals name h := by
    rw [sentSignals_cons hconn, hsent]
    rfl
  have hreports : reportedSignals name (ev :: h) = reportedSignals name h := by
    rw [reportedSignals_cons hconn, hreported]
    rfl
  refine ⟨fun e => ?_, ?_, ?_⟩
  · rw [hsents, hreports, hnew, hmax, ← sup_assoc, hinf.complete e, Signal.prio_merge_diff]
  · rw [hsents]
    intro s hs e hne
    rw [hnew, Signal.prio_diff] at hne ⊢
    by_cases hlt : serv.maxSignal.prio e < signal.prio e
    · rw [if_pos hlt]
      exact lt_of_le_of_lt (hinf.sent_le hs e) (hlt.trans_le le_sup_right)
    · rw [if_neg hlt, sup_bot_eq] at hne ⊢
      exact hinf.pending s hs e hne
  · rw [hsents]
    exact hinf.fresh

/-- The fuzzer itself reports `signal` and is sent a part of what is pending. -/
theorem polls (hinf : Informed name f serv h) {signal part : Signal}
    (hconn : ev.connects name = false) (hsent : ev.sentTo name = some part)
    (hreported : ev.reportedBy name = some signal)
    (hmax : ∀ e, serv'.maxSignal.prio e = serv.maxSignal.prio e ⊔ signal.prio e)
    (hpart : PrioMap.Parted f.newMaxSignal f'.newMaxSignal part) :
    Informed name f' serv' (ev :: h) := by
  have hsents : sentSignals name (ev :: h) = part :: sentSignals name h := by
    rw [sentSignals_cons hconn, hsent]
    rfl
  have hreports : reportedSignals name (ev :: h) = signal :: reportedSignals name h := by
    rw [reportedSignals_cons hconn, hreported]
    rfl
  have hbelow : ∀ s ∈ sentSignals name h, ∀ t : Signal, (∀ e, t.prio e ≠ ⊥ →
      t.prio e = f.newMaxSignal.prio e) → Ahead s t := by
    intro s hs t ht e hne
    have heq := ht e hne
    rw [heq] at hne ⊢
    exact hinf.pending s hs e hne
  refine ⟨fun e => ?_, ?_, ?_⟩
  · rw [hsents, hreports, hmax, ← hinf.complete e, ← hpart.sup_eq e, PrioMap.sup_cons,
      PrioMap.sup_cons]
    ac_rfl
  · rw [hsents]
    intro s hs
    rcases List.mem_cons.mp hs with rfl | hs
    · -- An element of the rest was not in the part that has just been sent.
      intro e hne
      rcases hpart e with ⟨_, hbot⟩ | ⟨hbot, _⟩
      · rw [hbot]
        exact bot_lt_iff_ne_bot.mpr hne
      · exact absurd hbot hne
    · refine hbelow s hs f'.newMaxSignal fun e hne => ?_
      rcases hpart e with ⟨heq, _⟩ | ⟨hbot, _⟩
      · exact heq
      · exact absurd hbot hne
  · rw [hsents]
    refine List.pairwise_cons.mpr ⟨fun s hs => hbelow s hs part fun e hne => ?_, hinf.fresh⟩
    rcases hpart e with ⟨_, hbot⟩ | ⟨_, heq⟩
    · exact absurd hbot hne
    · exact heq

end Informed

/-! ### Polls -/

namespace Server
variable [DecidableEq H]

omit [DecidableEq H] in
/-- **Reported signal is merged into the maximum.** -/
theorem prio_mergeMaxSignal (name : String) (reported : Signal) (serv : Server P H) (e : UInt32) :
    (serv.mergeMaxSignal name reported).maxSignal.prio e =
      serv.maxSignal.prio e ⊔ reported.prio e := by
  rw [mergeMaxSignal]
  split
  · rename_i hempty
    exact (sup_eq_left.mpr (PrioMap.news_isEmpty_iff.mp hempty e)).symm
  · exact (Signal.prio_merge _ _ e).trans (Signal.prio_merge_diff _ _ e)

omit [DecidableEq H] in
/-- What it does to the fuzzers: the others are to be told what was new. -/
theorem lookup_mergeMaxSignal {name other : String} {reported : Signal} {serv : Server P H}
    {f' : Fuzzer P} (h : (serv.mergeMaxSignal name reported).fuzzers.lookup other = some f') :
    ∃ f, serv.fuzzers.lookup other = some f ∧ f'.rotated = f.rotated ∧
      (other = name → f' = f) ∧
      (other ≠ name → f.rotated = false → ∀ e, f'.newMaxSignal.prio e =
        f.newMaxSignal.prio e ⊔ (serv.maxSignal.diff reported).prio e) := by
  rw [mergeMaxSignal] at h
  split at h
  · rename_i hempty
    refine ⟨f', h, rfl, fun _ => rfl, fun _ _ e => ?_⟩
    rw [PrioMap.isEmpty_iff.mp hempty e, sup_bot_eq]
  rw [Table.lookup_mapValues] at h
  obtain ⟨f, hf, rfl⟩ := map_eq_some_iff.mp h
  refine ⟨f, hf, ?_, fun heq => if_pos (.inl heq), fun hne hrot e => ?_⟩
  · split <;> rfl
  · rw [if_neg (by simp [hne, hrot])]
    exact Signal.prio_merge _ _ e

end Server

section Steps
variable [DecidableEq H] {T : Target P H} {cfg : Config} {serv : Server P H} {h : List (Event P H)}

variable {serv' : Server P H}

omit [DecidableEq H] in
/-- A poll of another fuzzer, up to the reply. -/
theorem AllInformed.otherPolls (hall : AllInformed (serv, h)) {order : Signal.RangeOrder}
    {a : PollArgs} {res : PollRes P} {name : String} {f' : Fuzzer P} (hne : name ≠ a.name)
    (hmax : serv'.maxSignal =
      (serv.mergeMaxSignal a.name (Signal.deserialize a.maxSignal)).maxSignal)
    (hf' : (serv.mergeMaxSignal a.name (Signal.deserialize a.maxSignal)).fuzzers.lookup name =
      some f')
    (hrot : f'.rotated = false) : Informed name f' serv' (⟨.poll order a, res⟩ :: h) := by
  obtain ⟨f, hf, hsame, -, hnew⟩ := lookup_mergeMaxSignal hf'
  have hrot' : f.rotated = false := hsame ▸ hrot
  refine (hall name f hf hrot').otherPolls rfl (if_neg (Ne.symm hne)) (if_neg (Ne.symm hne))
    (fun e => ?_) (hnew hne hrot')
  rw [hmax, prio_mergeMaxSignal]

omit [DecidableEq H] in
theorem AllInformed.poll (hall : AllInformed (serv, h)) (order : Signal.RangeOrder)
    (a : PollArgs) :
    AllInformed ((serv.poll cfg order a).1, ⟨.poll order a, (serv.poll cfg order a).2⟩ :: h) := by
  intro name f' hf' hrot
  rw [Server.poll] at hf' ⊢
  cases hf0 : serv.fuzzers.lookup a.name with
  | none =>
    rw [hf0] at hf'
    have hne : a.name ≠ name := fun heq => by
      rw [← heq, hf0] at hf'
      cases hf'
    exact (hall name f' hf' hrot).quiet rfl (if_neg hne) (if_neg hne) rfl rfl
  | some f0 =>
    rw [hf0] at hf'
    dsimp only at hf' ⊢
    by_cases hrot0 : f0.rotated = true
    · -- A rotated fuzzer reports and is told nothing.
      rw [if_pos hrot0] at hf' ⊢
      have hne : name ≠ a.name := fun heq => by
        obtain ⟨f, hf, hsame, -⟩ := lookup_mergeMaxSignal hf'
        rw [heq, hf0] at hf
        cases hf
        rw [hrot, hrot0] at hsame
        cases hsame
      exact hall.otherPolls hne rfl hf' hrot
    · rw [if_neg hrot0] at hf' ⊢
      by_cases heq : name = a.name
      · subst heq
        rw [Table.lookup_modify_self] at hf'
        obtain ⟨f1, hf1, rfl⟩ := map_eq_some_iff.mp hf'
        obtain ⟨f, hf, hsame, hself, -⟩ := lookup_mergeMaxSignal hf1
        obtain rfl := hself rfl
        obtain rfl := some.inj (hf0.symm.trans hf)
        refine (hall _ f0 hf0 hrot).polls rfl ?_ (if_pos rfl)
          (prio_mergeMaxSignal _ _ _) (Signal.parted_split order 2000 f0.newMaxSignal)
        exact (if_pos rfl).trans (congrArg some (Signal.deserialize_serialize order _))
      · rw [Table.lookup_modify_of_ne heq] at hf'
        exact hall.otherPolls heq rfl hf' hrot

theorem AllInformed.connect (hall : AllInformed (serv, h)) {a : ConnectArgs P H}
    (hconn : serv.connect T cfg a = some serv') (res : PollRes P) :
    AllInformed (serv', ⟨.connect a, res⟩ :: h) := by
  obtain ⟨r, hsnap, hreg⟩ := bind_eq_some_iff.mp hconn
  obtain ⟨hfuzzers, hmax, -⟩ := snapshot_frame hsnap
  obtain ⟨g, rfl, -, hg⟩ := register_spec hreg
  intro name f hf hrot
  by_cases heq : name = a.name
  · subst heq
    rw [Table.lookup_insert_self] at hf
    cases hf
    rcases hg with hrot' | ⟨-, -, hnew⟩
    · rw [hrot] at hrot'
      cases hrot'
    · exact .connected (decide_eq_true rfl) hnew
  · rw [Table.lookup_insert_of_ne heq, hfuzzers] at hf
    exact (hall name f hf hrot).quiet (decide_eq_false fun h => heq h.symm) rfl rfl hmax rfl

/-- **One call keeps every fuzzer informed.** -/
theorem allInformed_step {op : Op P H} {s s' : Server P H × List (Event P H)}
    (hall : AllInformed s) (hstep : Server.logged T cfg s op = some s') : AllInformed s' := by
  obtain ⟨serv, h⟩ := s
  obtain ⟨r, hr, rfl⟩ := map_eq_some_iff.mp hstep
  cases op with
  | connect a =>
    obtain ⟨serv', hserv', rfl⟩ := map_eq_some_iff.mp hr
    exact hall.connect hserv' _
  | newInput order a =>
    cases hr
    intro name f' hf' hrot
    obtain ⟨hmax, hfuzzers⟩ := newInput_frame order a serv
    obtain ⟨f, hf, hsame⟩ := hfuzzers name f' hf'
    exact (hall name f hf (hsame.rotated ▸ hrot)).quiet rfl rfl rfl hmax hsame.newMaxSignal
  | poll order a =>
    cases hr
    exact hall.poll order a
  | shutdownInstance name =>
    cases hr
    intro other f hf hrot
    change (serv.fuzzers.erase name).lookup other = some f at hf
    rw [Table.lookup_erase] at hf
    split at hf
    · cases hf
    · exact (hall other f hf hrot).quiet rfl rfl rfl rfl rfl
  | minimizeCorpus order =>
    cases hr
    intro name f hf hrot
    exact (hall name f hf hrot).quiet rfl rfl rfl rfl rfl

omit [DecidableEq H] in
theorem allInformed_start (mgr : Manager P H) : AllInformed (Server.start mgr, []) :=
  fun _ _ hf _ => by cases hf

/-- **Max signal distribution**: in every run, for every connected fuzzer that is not
rotated, what was sent to it, what it reported and what is pending for it add up
to `maxSignal`, and no element is sent again unless with a higher priority. -/
theorem maxSignal_distributed (T : Target P H) (cfg : Config) (mgr : Manager P H)
    (ops : List (Op P H)) {serv : Server P H} {h : List (Event P H)}
    (hrun : StepRuns.run (Server.logged T cfg) (Server.start mgr, []) ops = some (serv, h))
    {name : String} {f : Fuzzer P} (hf : serv.fuzzers.lookup name = some f)
    (hrot : f.rotated = false) :
    (∀ e, PrioMap.sup (sentSignals name h) e ⊔ PrioMap.sup (reportedSignals name h) e ⊔
        f.newMaxSignal.prio e = serv.maxSignal.prio e) ∧
      (sentSignals name h).Pairwise fun later earlier => ∀ e,
        later.prio e ≠ ⊥ → earlier.prio e < later.prio e := by
  have hall : AllInformed (serv, h) :=
    StepRuns.invariant (fun _ _ _ => allInformed_step) (allInformed_start mgr) hrun
  exact ⟨(hall name f hf hrot).complete, (hall name f hf hrot).fresh⟩

end Steps

/-- Two fuzzers: the first one reports two elements, the second one then polls. -/
def twoFuzzers : List (Op Nat Nat) :=
  [connectPlain 0 "vm-0" [], connectPlain 1 "vm-1" [],
    .poll inOrder ⟨"vm-0", false, [(7, 1), (9, 2)], true⟩,
    .poll inOrder ⟨"vm-1", false, [(9, 3)], true⟩]

theorem maxSignal_distributed_two :
    ∃ serv h f, StepRuns.run (Server.logged numbered plainConfig)
        (Server.start emptyManager, []) twoFuzzers = some (serv, h) ∧
      serv.fuzzers.lookup "vm-1" = some f ∧ f.rotated = false ∧
      ∀ e, PrioMap.sup (sentSignals "vm-1" h) e ⊔ PrioMap.sup (reportedSignals "vm-1" h) e ⊔
        f.newMaxSignal.prio e = serv.maxSignal.prio e := by
  have hrun : ((StepRuns.run (Server.logged numbered plainConfig)
      (Server.start emptyManager, []) twoFuzzers).bind fun s =>
        (s.1.fuzzers.lookup "vm-1").map Fuzzer.rotated) = some false := by
    decide +kernel
  obtain ⟨⟨serv, h⟩, hserv, hlookup⟩ := bind_eq_some_iff.mp hrun
  obtain ⟨f, hf, hrot⟩ := map_eq_some_iff.mp hlookup
  exact ⟨serv, h, f, hserv, hf, hrot,
    (maxSignal_distributed numbered _ emptyManager twoFuzzers hserv hf hrot).1⟩

end Sect.Rpc
