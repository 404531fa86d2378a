import SectProof.ManagerServer

/-! # Queues of new inputs

An input that is accepted as genuine is to reach every other fuzzer once: fuzzers
that are connected have it put into their queue, and fuzzers that connect later
find it in the corpus.  `Connect` takes its snapshot of the corpus under `mgr.mu`
and registers the fuzzer under `serv.mu`; `NewInput` holds `serv.mu` throughout
and takes `mgr.mu` to enter the input into the corpus.  The steps of the system
are these sections (`Action`), in any interleaving that the locks allow.

The invariant (`Consistent`) couples the queue of a connection with its history:
**what it was sent and what is pending is its snapshot and what was accepted since
it was registered** (`Delivered`).
-/

open List Option Table

namespace Sect.Rpc
open Sect.Fuzzer (Signal)
open Sect.Cover (KernelModule)
variable {P H : Type}

/-! ## The interleaved system -/

/-- A `Connect` between its two sections. -/
structure Connecting (P : Type) where
  name : String
  modules : List KernelModule
  corpus : List (Input P)

/-- `inFlight` is the input of a `NewInput` that holds `serv.mu` and has returned from
`mgr.newInput`. -/
structure System (P H : Type) where
  serv : Server P H
  inFlight : Option (Accepted P)
  connecting : Table Nat (Connecting P)
  nextConn : Nat

inductive Action (P H : Type)
  | snapshot (name : String) (modules : List KernelModule) (order snapshotOrder : CorpusOrder P H)
  | register (conn : Nat) (order : Signal.RangeOrder) (rotation : Option Rotation)
  | acceptInput (order : Signal.RangeOrder) (a : NewInputArgs P)
  | distribute
  | poll (order : Signal.RangeOrder) (a : PollArgs)
  | shutdownInstance (name : String)

/-- What a step means for the delivery of inputs.  An input is accepted from the
connection that is registered under the name of its sender, if there is one. -/
inductive Happened (P : Type)
  | snapshot (conn : Nat) (corpus : List (Input P))
  | register (conn : Nat)
  | accept (sender : Option Nat) (input : Input P)
  | reply (conn : Nat) (inputs : List (Input P))
  | other

/-- The acceptance of an input counts when it is genuine. -/
def Happened.ofAccepted (sender : Option Nat) (acc : Accepted P) : Happened P :=
  if acc.genuine then .accept sender acc.sent else .other

/-- The reply to a poll reaches the fuzzer that is registered under the name. -/
def Happened.ofPoll (f : Option (Fuzzer P)) (inputs : List (Input P)) : Happened P :=
  match f with
  | none => .other
  | some f => .reply f.conn inputs

namespace System
variable [DecidableEq H] (T : Target P H) (cfg : Config)

/-- One section; `none` when it has to wait for `serv.mu` or the manager dies. -/
def step (sys : System P H) : Action P H → Option (System P H × Happened P)
  | .snapshot name modules order snapshotOrder =>
    (sys.serv.snapshot T cfg order snapshotOrder modules).map fun r =>
      ({ sys with
          serv := r.1
          connecting := sys.connecting.insert sys.nextConn ⟨name, modules, r.2⟩
          nextConn := sys.nextConn + 1 },
        .snapshot sys.nextConn r.2)
  | .register conn order rotation =>
    if sys.inFlight.isSome then none
    else
      (sys.connecting.lookup conn).bind fun p =>
        (sys.serv.register T order rotation conn p.name p.modules p.corpus).map fun serv =>
          ({ sys with serv := serv, connecting := sys.connecting.erase conn }, .register conn)
  | .acceptInput order a =>
    if sys.inFlight.isSome then none
    else
      match sys.serv.acceptInput T order a with
      | none => some (sys, .other)
      | some (serv, acc) =>
        some ({ sys with serv := serv, inFlight := some acc },
          .ofAccepted ((sys.serv.fuzzers.lookup a.name).map Fuzzer.conn) acc)
  | .distribute =>
    sys.inFlight.map fun acc =>
      ({ sys with serv := sys.serv.distribute cfg acc, inFlight := none }, .other)
  | .poll order a =>
    if sys.inFlight.isSome then none
    else
      some ({ sys with serv := (sys.serv.poll cfg order a).1 },
        .ofPoll (sys.serv.fuzzers.lookup a.name) (sys.serv.poll cfg order a).2.newInputs)
  | .shutdownInstance name =>
    if sys.inFlight.isSome then none
    else some ({ sys with serv := sys.serv.shutdownInstance name }, .other)

/-- A section under `serv.mu` waits for a `NewInput` that holds it. -/
theorem free_of_some {A : Type} {inFlight : Option (Accepted P)} {o : Option A} {x : A}
    (h : (if inFlight.isSome then none else o) = some x) : inFlight = none ∧ o = some x := by
  cases inFlight with
  | none => exact ⟨rfl, h⟩
  | some acc => cases h

/-- A section and the record of it; the newest comes first. -/
def logged (s : System P H × List (Happened P)) (act : Action P H) :
    Option (System P H × List (Happened P)) :=
  (s.1.step T cfg act).map fun r => (r.1, r.2 :: s.2)

/-- No fuzzer has connected, so the manager has no coverage filter yet. -/
def start (mgr : Manager P H) : System P H :=
  ⟨Server.start { mgr with coverFilter := false, modulesInitialized := false }, none, .empty, 0⟩

end System

/-! ## The history of a connection -/

namespace Happened

def isSnapshot (c : Nat) : Happened P → Bool
  | .snapshot conn _ => conn = c
  | _ => false

def isRegister (c : Nat) : Happened P → Bool
  | .register conn => conn = c
  | _ => false

/-- The snapshot of the connection. -/
def corpusOf (c : Nat) : Happened P → Option (List (Input P))
  | .snapshot conn corpus => if conn = c then some corpus else none
  | _ => none

/-- An input accepted as genuine from another connection. -/
def acceptedFor (c : Nat) : Happened P → Option (Input P)
  | .accept sender input => if sender = some c then none else some input
  | _ => none

/-- The inputs of a reply to the connection. -/
def repliedTo (c : Nat) : Happened P → List (Input P)
  | .reply conn inputs => if conn = c then inputs else []
  | _ => []

section OfAccepted
variable (c : Nat) (sender : Option Nat) (acc : Accepted P)

theorem isSnapshot_ofAccepted : (ofAccepted sender acc).isSnapshot c = false := by
  rw [ofAccepted]
  split <;> rfl

theorem isRegister_ofAccepted : (ofAccepted sender acc).isRegister c = false := by
  rw [ofAccepted]
  split <;> rfl

theorem corpusOf_ofAccepted : (ofAccepted sender acc).corpusOf c = none := by
  rw [ofAccepted]
  split <;> rfl

theorem repliedTo_ofAccepted : (ofAccepted sender acc).repliedTo c = [] := by
  rw [ofAccepted]
  split <;> rfl

theorem acceptedFor_ofAccepted :
    (ofAccepted sender acc).acceptedFor c =
      if acc.genuine ∧ sender ≠ some c then some acc.sent else none := by
  rw [ofAccepted]
  by_cases hgen : acc.genuine = true
  · by_cases hsender : sender = some c <;> simp [hgen, hsender, acceptedFor]
  · simp [hgen, acceptedFor]

end OfAccepted

end Happened

section History
variable (c : Nat) (h : List (Happened P))

/-- The corpus that the connection found in its snapshot. -/
def snapshotOf : List (Input P) := (h.findSome? (Happened.corpusOf c)).getD []

/-- The inputs accepted as genuine from others since the snapshot. -/
def acceptedSince : List (Input P) :=
  (h.takeWhile fun ev => !ev.isSnapshot c).filterMap (Happened.acceptedFor c)

/-- Those accepted since the connection was registered. -/
def acceptedRegistered : List (Input P) :=
  (h.takeWhile fun ev => !ev.isRegister c).filterMap (Happened.acceptedFor c)

/-- Those accepted between the snapshot and the registration. -/
def acceptedInGap : List (Input P) :=
  ((h.dropWhile fun ev => !ev.isRegister c).takeWhile fun ev => !ev.isSnapshot c).filterMap
    (Happened.acceptedFor c)

/-- All inputs that polls of the connection have returned. -/
def returnedTo : List (Input P) := h.flatMap (Happened.repliedTo c)

end History

section HistoryLemmas
variable {c : Nat} {ev : Happened P} {h : List (Happened P)}

theorem snapshotOf_cons (hev : ev.corpusOf c = none) : snapshotOf c (ev :: h) = snapshotOf c h := by
  rw [snapshotOf, findSome?_cons_of_isNone (by rw [hev]; rfl)]
  rfl

theorem acceptedSince_cons (hev : ev.isSnapshot c = false) :
    acceptedSince c (ev :: h) = (ev.acceptedFor c).toList ++ acceptedSince c h := by
  rw [acceptedSince, takeWhile_cons_of_pos (by simp [hev]), filterMap_cons]
  cases ev.acceptedFor c <;> rfl

theorem acceptedRegistered_cons (hev : ev.isRegister c = false) :
    acceptedRegistered c (ev :: h) = (ev.acceptedFor c).toList ++ acceptedRegistered c h := by
  rw [acceptedRegistered, takeWhile_cons_of_pos (by simp [hev]), filterMap_cons]
  cases ev.acceptedFor c <;> rfl

theorem acceptedInGap_cons (hev : ev.isRegister c = false) :
    acceptedInGap c (ev :: h) = acceptedInGap c h := by
  rw [acceptedInGap, dropWhile_cons_of_pos (by simp [hev])]
  rfl

theorem acceptedRegistered_register : acceptedRegistered c (.register c :: h) = [] := by
  rw [acceptedRegistered, takeWhile_cons_of_neg (by simp [Happened.isRegister]),
    filterMap_nil]

theorem acceptedInGap_register :
    acceptedInGap c (.register c :: h) = acceptedSince c (.register c :: h) := by
  rw [acceptedInGap, dropWhile_cons_of_neg (by simp [Happened.isRegister])]
  rfl

theorem returnedTo_cons : returnedTo c (ev :: h) = ev.repliedTo c ++ returnedTo c h := rfl

end HistoryLemmas

/-! ## The invariant -/

/-- The input in flight, if it will be handed to the fuzzer `name`. -/
def due (inFlight : Option (Accepted P)) (name : String) : List (Input P) :=
  match inFlight with
  | some acc => if acc.genuine ∧ name ≠ acc.name then [acc.sent] else []
  | none => []

/-- **What a connection was sent, what is pending and what is in flight for it is its
snapshot and what was accepted since it was registered.** -/
structure Delivered (name : String) (f : Fuzzer P) (sys : System P H) (h : List (Happened P)) :
    Prop where
  split : acceptedSince f.conn h = acceptedRegistered f.conn h ++ acceptedInGap f.conn h
  perm : (returnedTo f.conn h ++ (f.inputs ++ due sys.inFlight name)).Perm
    (snapshotOf f.conn h ++ acceptedRegistered f.conn h)

/-- The invariant of the interleaved system.  Connections have different numbers, and a
number that is not in use has no history. -/
structure Consistent (cfg : Config) (s : System P H × List (Happened P)) : Prop where
  ready : FilterReady cfg s.1.serv
  genuine : ∀ acc, s.1.inFlight = some acc → acc.genuine = true →
    (s.1.serv.corpusSignal.diff acc.signal).isEmpty = false
  unused : ∀ c, s.1.nextConn ≤ c → returnedTo c s.2 = []
  connecting : ∀ c p, s.1.connecting.lookup c = some p →
    c < s.1.nextConn ∧ snapshotOf c s.2 = p.corpus ∧ returnedTo c s.2 = []
  registered : ∀ name f, s.1.serv.fuzzers.lookup name = some f →
    f.conn < s.1.nextConn ∧ s.1.connecting.lookup f.conn = none
  unique : ∀ name f name' f', s.1.serv.fuzzers.lookup name = some f →
    s.1.serv.fuzzers.lookup name' = some f' → f.conn = f'.conn → name = name'
  delivered : ∀ name f, s.1.serv.fuzzers.lookup name = some f → f.rotated = false →
    Delivered name f s.1 s.2

/-- An event that is not about the connection. -/
theorem Delivered.quiet {name : String} {f f' : Fuzzer P} {sys sys' : System P H}
    {h : List (Happened P)} {ev : Happened P} (hdel : Delivered name f sys h)
    (hconn : f'.conn = f.conn) (hinputs : f'.inputs = f.inputs)
    (hdue : due sys'.inFlight name = due sys.inFlight name)
    (hsnap : ev.isSnapshot f.conn = false) (hreg : ev.isRegister f.conn = false)
    (hcorpus : ev.corpusOf f.conn = none) (hacc : ev.acceptedFor f.conn = none)
    (hreply : ev.repliedTo f.conn = []) : Delivered name f' sys' (ev :: h) := by
  refine ⟨?_, ?_⟩
  · rw [hconn, acceptedSince_cons hsnap, acceptedRegistered_cons hreg, acceptedInGap_cons hreg,
      hacc]
    exact hdel.split
  · rw [hconn, hinputs, hdue, returnedTo_cons, hreply, snapshotOf_cons hcorpus,
      acceptedRegistered_cons hreg, hacc]
    exact hdel.perm

/-! ## Steps -/

/-- Two fuzzers of one connection with the same queue. -/
structure Fuzzer.SameQueue (f f' : Fuzzer P) : Prop where
  conn : f'.conn = f.conn
  rotated : f'.rotated = f.rotated
  inputs : f'.inputs = f.inputs

theorem Fuzzer.SameQueue.refl (f : Fuzzer P) : f.SameQueue f := ⟨rfl, rfl, rfl⟩

theorem Fuzzer.sameQueue_record (acc : Accepted P) (f : Fuzzer P) : f.SameQueue (f.record acc) := by
  rw [Fuzzer.record]
  split <;> exact ⟨rfl, rfl, rfl⟩

/-- What a fuzzer has in its queue after an input has been distributed. -/
theorem Fuzzer.inputs_receive (acc : Accepted P) (name : String) {f : Fuzzer P}
    (hgen : acc.genuine = true) (hrot : f.rotated = false) :
    (f.receive acc name).inputs = f.inputs ++ due (some acc) name := by
  rw [Fuzzer.receive]
  by_cases hname : name = acc.name
  · rw [if_pos (Or.inl hname), due, if_neg (fun h => h.2 hname), append_nil]
  · rw [if_neg (by simp [hname, hrot]), due, if_pos ⟨hgen, hname⟩]

section Steps
variable {cfg : Config} {serv : Server P H}

variable {name : String} {f' : Fuzzer P}

theorem lookup_modify_record_queue (acc : Accepted P)
    (h : (serv.fuzzers.modify acc.name (Fuzzer.record acc)).lookup name = some f') :
    ∃ f, serv.fuzzers.lookup name = some f ∧ f.SameQueue f' := by
  rw [lookup_modify] at h
  split at h
  · obtain ⟨f, hf, rfl⟩ := map_eq_some_iff.mp h
    exact ⟨f, hf, f.sameQueue_record acc⟩
  · exact ⟨f', h, .refl f'⟩

/-- **Distributing an input puts it into the queues of the fuzzers that it is due to.** -/
theorem distribute_queue (hready : FilterReady cfg serv) (acc : Accepted P)
    (h : (serv.distribute cfg acc).fuzzers.lookup name = some f') :
    ∃ f, serv.fuzzers.lookup name = some f ∧ f'.conn = f.conn ∧ f'.rotated = f.rotated ∧
      (f.rotated = false → f'.inputs = f.inputs ++ due (some acc) name) := by
  rw [hready.distribute_eq acc] at h
  by_cases hgen : acc.genuine = true
  · rw [if_pos hgen, lookup_mapValues] at h
    obtain ⟨g, hg, rfl⟩ := map_eq_some_iff.mp h
    obtain ⟨f, hf, hsame⟩ := lookup_modify_record_queue acc hg
    have hreceive := g.sameSignal_receive acc name
    refine ⟨f, hf, hreceive.conn.trans hsame.conn, hreceive.rotated.trans hsame.rotated, ?_⟩
    intro hrot
    rw [Fuzzer.inputs_receive acc name hgen (hsame.rotated.trans hrot), hsame.inputs]
  · rw [if_neg hgen] at h
    obtain ⟨f, hf, hsame⟩ := lookup_modify_record_queue acc h
    refine ⟨f, hf, hsame.conn, hsame.rotated, fun _ => ?_⟩
    rw [hsame.inputs, due, if_neg (fun hdue => hgen hdue.1), append_nil]

theorem lookup_mergeMaxSignal_queue {other : String} {reported : Signal}
    (h : (serv.mergeMaxSignal name reported).fuzzers.lookup other = some f') :
    ∃ f, serv.fuzzers.lookup other = some f ∧ f.SameQueue f' := by
  rw [Server.mergeMaxSignal] at h
  split at h
  · exact ⟨f', h, .refl f'⟩
  · rw [lookup_mapValues] at h
    obtain ⟨f, hf, rfl⟩ := map_eq_some_iff.mp h
    refine ⟨f, hf, ?_⟩
    split <;> exact ⟨rfl, rfl, rfl⟩

/-- **A poll takes inputs from the queue of its own fuzzer only.** -/
theorem poll_queue {order : Signal.RangeOrder} {a : PollArgs}
    (h : (serv.poll cfg order a).1.fuzzers.lookup name = some f') :
    ∃ f, serv.fuzzers.lookup name = some f ∧ f'.conn = f.conn ∧ f'.rotated = f.rotated ∧
      (name ≠ a.name → f'.inputs = f.inputs) ∧
      (name = a.name → f.rotated = false →
        f'.inputs = (Server.pollInputs cfg a serv.mgr f).2) := by
  rw [Server.poll] at h
  split at h
  · rename_i hnone
    refine ⟨f', h, rfl, rfl, fun _ => rfl, fun heq => ?_⟩
    rw [← heq, h] at hnone
    cases hnone
  · rename_i f0 hf0
    by_cases hrot0 : f0.rotated = true
    · rw [if_pos hrot0] at h
      obtain ⟨f, hf, hsame⟩ := lookup_mergeMaxSignal_queue h
      refine ⟨f, hf, hsame.conn, hsame.rotated, fun _ => hsame.inputs, fun heq hrot => ?_⟩
      rw [heq, hf0] at hf
      rw [some.inj hf, hrot] at hrot0
      cases hrot0
    · rw [if_neg hrot0, lookup_modify] at h
      by_cases heq : name = a.name
      · rw [if_pos heq] at h
        obtain ⟨f1, hf1, rfl⟩ := map_eq_some_iff.mp h
        obtain ⟨f, hf, hsame⟩ := lookup_mergeMaxSignal_queue hf1
        refine ⟨f, hf, hsame.conn, hsame.rotated, fun hne => absurd heq hne, fun _ _ => ?_⟩
        rw [heq, hf0] at hf
        rw [some.inj hf, mergeMaxSignal_mgr]
      · rw [if_neg heq] at h
        obtain ⟨f, hf, hsame⟩ := lookup_mergeMaxSignal_queue h
        exact ⟨f, hf, hsame.conn, hsame.rotated, fun _ => hsame.inputs, fun h => absurd h heq⟩

theorem takeLast_perm {A : Type} (n : Nat) (l : List A) :
    ((takeLast n l).1 ++ (takeLast n l).2).Perm l := by
  refine ((reverse_perm _).append_left _).trans ?_
  exact (take_append_drop n l.reverse).symm ▸ reverse_perm l

theorem pollInputs_perm (cfg : Config) (a : PollArgs) (mgr : Manager P H) (f : Fuzzer P) :
    ((Server.pollInputs cfg a mgr f).1 ++ (Server.pollInputs cfg a mgr f).2).Perm f.inputs := by
  rw [Server.pollInputs]
  split
  · exact takeLast_perm _ _
  · exact .refl _

end Steps

/-- The signal with which an input is entered into the corpus is at least its own. -/
theorem genuine_signal [DecidableEq H] {T : Target P H} {order : Signal.RangeOrder}
    {inp : Input P} {shared : List UInt32} {sign : Signal} {hasAny : Bool}
    {r : Manager P H × Signal} {serv : Server P H}
    (hm : serv.mgr.newInput T order inp shared sign hasAny = some r)
    (hgen : serv.genuine sign = true) : (serv.corpusSignal.diff r.2).isEmpty = false := by
  have hle : ∀ e, sign.prio e ≤ r.2.prio e := by
    rw [Manager.newInput] at hm
    split at hm
    · cases hm
    · split at hm <;> obtain rfl := some.inj hm <;> intro e
      · exact le_sup_left.trans_eq (Signal.prio_merge _ _ e).symm
      · exact le_rfl
  rw [Server.genuine, Bool.not_eq_true'] at hgen
  rw [← Bool.not_eq_true] at hgen ⊢
  refine fun hempty => hgen (PrioMap.news_isEmpty_iff.mpr fun e => ?_)
  exact (hle e).trans (PrioMap.news_isEmpty_iff.mp hempty e)

namespace Consistent
variable [DecidableEq H] {T : Target P H} {cfg : Config} {sys : System P H}
  {h : List (Happened P)}

omit [DecidableEq H] in
theorem start (cfg : Config) (mgr : Manager P H) : Consistent cfg (System.start mgr, []) where
  ready := ⟨nofun, nofun⟩
  genuine _ hflight := by cases hflight
  unused _ _ := rfl
  connecting _ _ hconn := by cases hconn
  registered _ _ hf := by cases hf
  unique _ _ _ _ hf := by cases hf
  delivered _ _ hf := by cases hf

/-- A connection takes its snapshot: its number is new. -/
theorem snapshot (hcons : Consistent cfg (sys, h)) {name : String} {modules : List KernelModule}
    {order snapshotOrder : CorpusOrder P H} {r : Server P H × List (Input P)}
    (hsnap : sys.serv.snapshot T cfg order snapshotOrder modules = some r) :
    Consistent cfg
      ({ sys with
          serv := r.1
          connecting := sys.connecting.insert sys.nextConn ⟨name, modules, r.2⟩
          nextConn := sys.nextConn + 1 },
        .snapshot sys.nextConn r.2 :: h) := by
  obtain ⟨hfuzzers, -, hsignal, -⟩ := Server.snapshot_frame hsnap
  refine ⟨hcons.ready.snapshot hsnap, ?_, ?_, ?_, ?_, ?_, ?_⟩
  · intro acc hacc hgen
    rw [hsignal]
    exact hcons.genuine acc hacc hgen
  · exact fun c hc => hcons.unused c (Nat.le_of_succ_le hc)
  · intro c p hp
    by_cases hc : c = sys.nextConn
    · subst hc
      rw [lookup_insert_self] at hp
      cases hp
      refine ⟨Nat.lt_succ_self _, ?_, hcons.unused _ (Nat.le_refl _)⟩
      simp [snapshotOf, Happened.corpusOf]
    · rw [lookup_insert_of_ne hc] at hp
      obtain ⟨hlt, hsnapshot, hreturned⟩ := hcons.connecting c p hp
      refine ⟨Nat.lt_succ_of_lt hlt, ?_, hreturned⟩
      have hnew : (Happened.snapshot sys.nextConn r.2).corpusOf c = none := if_neg (Ne.symm hc)
      exact (snapshotOf_cons hnew).trans hsnapshot
  · intro name' f hf
    rw [hfuzzers] at hf
    obtain ⟨hlt, hnone⟩ := hcons.registered name' f hf
    exact ⟨Nat.lt_succ_of_lt hlt, (lookup_insert_of_ne (Nat.ne_of_lt hlt) _ _).trans hnone⟩
  · intro name1 f1 name2 f2 hf1 hf2
    rw [hfuzzers] at hf1 hf2
    exact hcons.unique name1 f1 name2 f2 hf1 hf2
  · intro name' f hf hrot
    rw [hfuzzers] at hf
    have hne : sys.nextConn ≠ f.conn := Nat.ne_of_gt (hcons.registered name' f hf).1
    exact (hcons.delivered name' f hf hrot).quiet rfl rfl rfl (decide_eq_false hne) rfl
      (if_neg hne) rfl rfl

omit [DecidableEq H] in
/-- The connection is registered: if it is not rotated its queue is the snapshot. -/
theorem register (hcons : Consistent cfg (sys, h)) (hfree : sys.inFlight = none) {c : Nat}
    {p : Connecting P} (hp : sys.connecting.lookup c = some p) {order : Signal.RangeOrder}
    {rotation : Option Rotation} {serv' : Server P H}
    (hreg : sys.serv.register T order rotation c p.name p.modules p.corpus = some serv') :
    Consistent cfg
      ({ sys with serv := serv', connecting := sys.connecting.erase c }, .register c :: h) := by
  obtain ⟨g, rfl, hconn, hg⟩ := Server.register_spec hreg
  obtain ⟨hlt, hsnapshot, hreturned⟩ := hcons.connecting c p hp
  have hother : ∀ name f, sys.serv.fuzzers.lookup name = some f → c ≠ f.conn := by
    rintro name f hf rfl
    rw [(hcons.registered name f hf).2] at hp
    cases hp
  refine ⟨hcons.ready.congr rfl rfl, ?_, hcons.unused, ?_, ?_, ?_, ?_⟩
  · intro acc hacc
    rw [hfree] at hacc
    cases hacc
  · intro c' p' hp'
    rw [lookup_erase] at hp'
    split at hp'
    · cases hp'
    · exact hcons.connecting c' p' hp'
  · intro name f hf
    rw [lookup_insert] at hf
    rw [lookup_erase]
    split at hf
    · cases hf
      exact ⟨hconn ▸ hlt, if_pos hconn⟩
    · obtain ⟨hlt', hnone⟩ := hcons.registered name f hf
      exact ⟨hlt', (if_neg (Ne.symm (hother name f hf))).trans hnone⟩
  · intro name1 f1 name2 f2 hf1 hf2 heq
    rw [lookup_insert] at hf1 hf2
    split at hf1 <;> split at hf2
    · simp_all
    · cases hf1
      exact absurd (hconn.symm.trans heq) (hother name2 f2 hf2)
    · cases hf2
      exact absurd (hconn.symm.trans heq.symm) (hother name1 f1 hf1)
    · exact hcons.unique name1 f1 name2 f2 hf1 hf2 heq
  · intro name f hf hrot
    rw [lookup_insert] at hf
    split at hf
    · cases hf
      subst hconn
      rcases hg with hrot' | ⟨-, hinputs, -⟩
      · rw [hrot] at hrot'
        cases hrot'
      · refine ⟨?_, ?_⟩
        · rw [acceptedRegistered_register, acceptedInGap_register, nil_append]
        · rw [acceptedRegistered_register, returnedTo_cons, hreturned, hinputs, hfree,
            snapshotOf_cons rfl, hsnapshot]
          exact .of_eq (append_nil p.corpus ▸ rfl)
    · have hne := hother name f hf
      exact (hcons.delivered name f hf hrot).quiet rfl rfl rfl rfl (decide_eq_false hne) rfl rfl rfl

/-- An input is accepted: it is due to every other fuzzer. -/
theorem acceptInput (hcons : Consistent cfg (sys, h)) (hfree : sys.inFlight = none)
    {order : Signal.RangeOrder} {a : NewInputArgs P} {r : Server P H × Accepted P}
    (hacc : sys.serv.acceptInput T order a = some r) :
    Consistent cfg
      ({ sys with serv := r.1, inFlight := some r.2 },
        .ofAccepted ((sys.serv.fuzzers.lookup a.name).map Fuzzer.conn) r.2 :: h) := by
  have hready := hcons.ready.acceptInput hacc
  obtain ⟨serv', acc⟩ := r
  obtain ⟨hasAny, m, -, -, hm, hserv', hname, -, hgenuine⟩ := Server.acceptInput_spec hacc
  obtain rfl : serv' = { sys.serv with mgr := m } := hserv'
  refine ⟨hready, ?_, ?_, ?_, hcons.registered, hcons.unique, ?_⟩
  · intro acc' hacc' hgen
    cases hacc'
    exact genuine_signal hm (hgenuine.symm.trans hgen)
  · intro c hc
    rw [returnedTo_cons, Happened.repliedTo_ofAccepted]
    exact hcons.unused c hc
  · intro c p hp
    rw [snapshotOf_cons (Happened.corpusOf_ofAccepted _ _ _), returnedTo_cons,
      Happened.repliedTo_ofAccepted]
    exact hcons.connecting c p hp
  · intro name f hf hrot
    have hdel := hcons.delivered name f hf hrot
    -- The connection is the sender's iff it is registered under the name of the sender.
    have hsender : (Happened.ofAccepted ((sys.serv.fuzzers.lookup a.name).map Fuzzer.conn)
        acc).acceptedFor f.conn = (due (some acc) name).head? := by
      rw [Happened.acceptedFor_ofAccepted, due, show acc.name = a.name from hname]
      have hiff : (sys.serv.fuzzers.lookup a.name).map Fuzzer.conn ≠ some f.conn ↔
          name ≠ a.name := by
        refine not_congr ⟨fun hsome => ?_, fun heq => ?_⟩
        · obtain ⟨g, hg, hconn⟩ := map_eq_some_iff.mp hsome
          exact hcons.unique name f a.name g hf hg hconn.symm
        · rw [← heq, hf, map_some]
      simp only [hiff]
      split <;> rfl
    refine ⟨?_, ?_⟩
    · rw [acceptedSince_cons (Happened.isSnapshot_ofAccepted _ _ _),
        acceptedRegistered_cons (Happened.isRegister_ofAccepted _ _ _),
        acceptedInGap_cons (Happened.isRegister_ofAccepted _ _ _), hdel.split, append_assoc]
    rw [returnedTo_cons, Happened.repliedTo_ofAccepted,
      snapshotOf_cons (Happened.corpusOf_ofAccepted _ _ _),
      acceptedRegistered_cons (Happened.isRegister_ofAccepted _ _ _), hsender]
    have hperm := hdel.perm
    rw [hfree] at hperm
    rw [show due none name = ([] : List (Input P)) from rfl, append_nil] at hperm
    have hhead : (due (some acc) name).head?.toList = due (some acc) name := by
      rw [due]
      split <;> rfl
    rw [hhead, nil_append, ← append_assoc]
    refine (hperm.append_right _).trans ?_
    rw [append_assoc]
    exact perm_append_comm.append_left _

omit [DecidableEq H] in
/-- The input in flight is put into the queues. -/
theorem distribute (hcons : Consistent cfg (sys, h)) {acc : Accepted P}
    (hflight : sys.inFlight = some acc) :
    Consistent cfg
      ({ sys with serv := sys.serv.distribute cfg acc, inFlight := none }, .other :: h) := by
  refine ⟨hcons.ready.distribute acc, nofun, hcons.unused, hcons.connecting, ?_, ?_, ?_⟩
  · intro name f' hf'
    obtain ⟨f, hf, hconn, -⟩ := distribute_queue hcons.ready acc hf'
    exact hconn ▸ hcons.registered name f hf
  · intro name1 f1' name2 f2' hf1' hf2' heq
    obtain ⟨f1, hf1, hconn1, -⟩ := distribute_queue hcons.ready acc hf1'
    obtain ⟨f2, hf2, hconn2, -⟩ := distribute_queue hcons.ready acc hf2'
    exact hcons.unique name1 f1 name2 f2 hf1 hf2 (hconn1.symm.trans (heq.trans hconn2))
  · intro name f' hf' hrot
    obtain ⟨f, hf, hconn, hrotated, hinputs⟩ := distribute_queue hcons.ready acc hf'
    have hrot' : f.rotated = false := hrotated ▸ hrot
    obtain ⟨hsplit, hperm⟩ := hcons.delivered name f hf hrot'
    refine ⟨?_, ?_⟩
    · rw [hconn]
      exact hsplit
    · rw [hconn, hinputs hrot']
      rw [hflight] at hperm
      exact (append_nil (f.inputs ++ due (some acc) name)).symm ▸ hperm

omit [DecidableEq H] in
/-- A poll returns inputs from the queue of its fuzzer. -/
theorem poll (hcons : Consistent cfg (sys, h)) (hfree : sys.inFlight = none)
    (order : Signal.RangeOrder) {a : PollArgs} {f0 : Fuzzer P}
    (hf0 : sys.serv.fuzzers.lookup a.name = some f0) :
    Consistent cfg
      ({ sys with serv := (sys.serv.poll cfg order a).1 },
        .reply f0.conn (sys.serv.poll cfg order a).2.newInputs :: h) := by
  obtain ⟨hlt0, hnone0⟩ := hcons.registered a.name f0 hf0
  have hother : ∀ c, f0.conn ≠ c → ∀ inputs : List (Input P),
      (Happened.reply f0.conn inputs).repliedTo c = [] := fun c hne _ => if_neg hne
  refine ⟨hcons.ready.poll order a, ?_, ?_, ?_, ?_, ?_, ?_⟩
  · intro acc hacc
    rw [hfree] at hacc
    cases hacc
  · intro c hc
    rw [returnedTo_cons, hother c (Nat.ne_of_lt (Nat.lt_of_lt_of_le hlt0 hc))]
    exact hcons.unused c hc
  · intro c p hp
    have hne : f0.conn ≠ c := by
      rintro rfl
      rw [hnone0] at hp
      cases hp
    rw [snapshotOf_cons rfl, returnedTo_cons, hother c hne]
    exact hcons.connecting c p hp
  · intro name f' hf'
    obtain ⟨f, hf, hconn, -⟩ := poll_queue hf'
    exact hconn ▸ hcons.registered name f hf
  · intro name1 f1' name2 f2' hf1' hf2' heq
    obtain ⟨f1, hf1, hconn1, -⟩ := poll_queue hf1'
    obtain ⟨f2, hf2, hconn2, -⟩ := poll_queue hf2'
    exact hcons.unique name1 f1 name2 f2 hf1 hf2 (hconn1.symm.trans (heq.trans hconn2))
  · intro name f' hf' hrot
    obtain ⟨f, hf, hconn, hrotated, hinputsOther, hinputs⟩ := poll_queue hf'
    have hrot' : f.rotated = false := hrotated ▸ hrot
    have hdel := hcons.delivered name f hf hrot'
    by_cases heq : name = a.name
    · subst heq
      obtain rfl := some.inj (hf0.symm.trans hf)
      refine ⟨?_, ?_⟩
      · rw [hconn]
        exact hdel.split
      rw [hconn, hinputs rfl hrot', returnedTo_cons, snapshotOf_cons rfl,
        acceptedRegistered_cons rfl, Happened.repliedTo, if_pos rfl,
        poll_newInputs hf0 hrot']
      refine .trans ?_ hdel.perm
      refine (perm_append_comm.append_right _).trans ?_
      rw [append_assoc, ← append_assoc _ _ (due _ _)]
      exact ((pollInputs_perm cfg a sys.serv.mgr f0).append_right _).append_left _
    · have hne : f0.conn ≠ f.conn := fun hc => heq (hcons.unique _ _ _ _ hf hf0 hc.symm)
      exact hdel.quiet hconn (hinputsOther heq) rfl rfl rfl rfl rfl (if_neg hne)

omit [DecidableEq H] in
theorem other (hcons : Consistent cfg (sys, h)) : Consistent cfg (sys, .other :: h) :=
  ⟨hcons.ready, hcons.genuine, hcons.unused, hcons.connecting, hcons.registered, hcons.unique,
    fun name f hf hrot => (hcons.delivered name f hf hrot).quiet rfl rfl rfl rfl rfl rfl rfl rfl⟩

omit [DecidableEq H] in
theorem shutdownInstance (hcons : Consistent cfg (sys, h)) (name : String) :
    Consistent cfg ({ sys with serv := sys.serv.shutdownInstance name }, .other :: h) := by
  have hlookup : ∀ {name' f}, (sys.serv.shutdownInstance name).fuzzers.lookup name' = some f →
      sys.serv.fuzzers.lookup name' = some f := by
    intro name' f hf
    rw [Server.shutdownInstance, lookup_erase] at hf
    split at hf
    · cases hf
    · exact hf
  exact ⟨hcons.ready.congr rfl rfl, hcons.genuine, hcons.unused, hcons.connecting,
    fun name' f hf => hcons.registered name' f (hlookup hf),
    fun _ _ _ _ hf1 hf2 => hcons.unique _ _ _ _ (hlookup hf1) (hlookup hf2),
    fun name' f hf hrot => (hcons.delivered name' f (hlookup hf) hrot).quiet rfl rfl rfl rfl rfl
      rfl rfl rfl⟩

/-- **Every step preserves the invariant.** -/
theorem step (hcons : Consistent cfg (sys, h)) {act : Action P H}
    {r : System P H × Happened P} (hstep : sys.step T cfg act = some r) :
    Consistent cfg (r.1, r.2 :: h) := by
  cases act with
  | snapshot name modules order snapshotOrder =>
    obtain ⟨r, hsnap, rfl⟩ := map_eq_some_iff.mp hstep
    exact hcons.snapshot hsnap
  | register conn order rotation =>
    obtain ⟨hnone, hstep⟩ := System.free_of_some hstep
    obtain ⟨p, hp, hstep⟩ := bind_eq_some_iff.mp hstep
    obtain ⟨serv, hreg, rfl⟩ := map_eq_some_iff.mp hstep
    exact hcons.register hnone hp hreg
  | acceptInput order a =>
    obtain ⟨hnone, hstep⟩ := System.free_of_some hstep
    split at hstep
    · cases hstep
      exact hcons.other
    · rename_i serv acc hacc
      cases hstep
      exact hcons.acceptInput hnone hacc
  | distribute =>
    obtain ⟨acc, hacc, rfl⟩ := map_eq_some_iff.mp hstep
    exact hcons.distribute hacc
  | poll order a =>
    obtain ⟨hnone, hstep⟩ := System.free_of_some hstep
    cases hstep
    cases hf : sys.serv.fuzzers.lookup a.name with
    | none =>
      have hpoll : sys.serv.poll cfg order a = (sys.serv, .nothing) := by rw [Server.poll, hf]
      rw [hpoll]
      exact hcons.other
    | some f => exact hcons.poll hnone order hf
  | shutdownInstance name =>
    obtain ⟨-, hstep⟩ := System.free_of_some hstep
    cases hstep
    exact hcons.shutdownInstance name

theorem run {acts : List (Action P H)} {s s' : System P H × List (Happened P)}
    (hcons : Consistent cfg s) (hrun : StepRuns.run (System.logged T cfg) s acts = some s') :
    Consistent cfg s' := by
  refine StepRuns.invariant (fun s act s' hs hstep => ?_) hcons hrun
  obtain ⟨r, hr, rfl⟩ := map_eq_some_iff.mp hstep
  exact hs.step hr

end Consistent

end Sect.Rpc
