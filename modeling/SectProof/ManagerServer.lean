import SectProof.Canonicalizer
import SectProof.StepRuns

/-! # The manager's RPC server

`syz-manager/rpc.go` and the parts of `manager.go` behind it: fuzzers connect and
receive the corpus, report new inputs and poll for what the others found.  The
server holds the fuzzers and the signal seen so far, the manager the corpus, its
database and the candidates.

The sections under `serv.mu` and under `mgr.mu` are separate functions: `Connect`
takes the snapshot of the corpus (`Manager.fuzzerConnect`) before it registers
the fuzzer (`Server.register`), and `NewInput` enters the input into the corpus
(`Server.acceptInput`) before it hands it to the other fuzzers
(`Server.distribute`).  Random choices and the orders in which maps are visited
are arguments.
-/

open Option

namespace Sect.Rpc
open Sect.Fuzzer (Signal)
open Sect.Cover (KernelModule Serial Canonicalizer CanonicalizerInstance newCanonicalizer)

/-- What the server knows of programs `P` with hashes `H`: `checkProgram` rejects a
program or says whether it has squashed arguments. -/
structure Target (P H : Type) where
  hash : P → H
  callSet : P → Option (List String)
  checkProgram : P → Option Bool

/-- The parts of the configuration that are read here.  `rgInit` says whether the
report generator can be initialised. -/
structure Config where
  cover : Bool
  hubClient : Bool
  covFilter : Bool
  rgInit : Bool
  procs : Nat

/-- The batch size of `startRPCServer`. -/
def Config.batchSize (cfg : Config) : Nat :=
  if 5 < cfg.procs then cfg.procs else 5

theorem Config.batchSize_pos (cfg : Config) : 0 < cfg.batchSize := by
  rw [batchSize]
  split <;> omega

/-- `rpctype.Input`. -/
structure Input (P : Type) where
  call : String
  prog : P
  signal : Serial
  cover : List UInt32
  callID : Int
  rawCover : List UInt32
  deriving DecidableEq, Repr

/-- `rpctype.Candidate`. -/
structure Candidate (P : Type) where
  prog : P
  minimized : Bool
  smashed : Bool
  deriving DecidableEq, Repr

structure CorpusItemUpdate where
  callID : Int
  rawCover : List UInt32
  deriving DecidableEq, Repr

structure CorpusItem (P : Type) where
  call : String
  prog : P
  hasAny : Bool
  signal : Serial
  cover : List UInt32
  updates : List CorpusItemUpdate
  deriving DecidableEq, Repr

def CorpusItem.rpcInput {P : Type} (item : CorpusItem P) : Input P where
  call := item.call
  prog := item.prog
  signal := item.signal
  cover := item.cover
  callID := 0
  rawCover := []

inductive Phase
  | init
  | loadedCorpus
  | triagedCorpus
  | queriedHub
  | triagedHub
  deriving DecidableEq, Repr

def Phase.rank : Phase → Nat
  | .init => 0
  | .loadedCorpus => 1
  | .triagedCorpus => 2
  | .queriedHub => 3
  | .triagedHub => 4

/-- The manager; `enabledCalls` are the names of the calls of the machine check,
`coverFilter` says whether it has a coverage filter. -/
structure Manager (P H : Type) where
  phase : Phase
  corpus : Table H (CorpusItem P)
  corpusDB : Table H P
  disabledHashes : Finset H
  lastMinCorpus : Nat
  saturatedCalls : Finset String
  candidates : List (Candidate P)
  enabledCalls : Option (List String)
  modulesInitialized : Bool
  coverFilter : Bool

/-- A connected fuzzer.  `conn` is the number of the connection: it stands for the
identity of the source's pointer. -/
structure Fuzzer (P : Type) where
  conn : Nat
  rotated : Bool
  inputs : List (Input P)
  newMaxSignal : Signal
  rotatedSignal : Signal
  instModules : CanonicalizerInstance

structure Server (P H : Type) where
  mgr : Manager P H
  canonicalModules : Option Canonicalizer
  coverFilter : Bool
  fuzzers : Table String (Fuzzer P)
  maxSignal : Signal
  corpusSignal : Signal
  corpusCover : Finset UInt32

/-- An order in which a loop over the corpus visits it. -/
structure CorpusOrder (P H : Type) where
  list : Table H (CorpusItem P) → List (H × CorpusItem P)
  perm : ∀ t, (list t).Perm t.entries

/-- The last `n` elements of a slice, last first, and what is left of the slice. -/
def takeLast {A : Type} (n : Nat) (l : List A) : List A × List A :=
  (l.reverse.take n, (l.reverse.drop n).reverse)

/-! ## Minimizing the corpus -/

section Minimize
variable {C : Type}

/-- The best priority of an element so far and the index of the input it is from. -/
abbrev Covered := Std.ExtTreeMap UInt32 (Int8 × Nat)

/-- One element of input `i`. -/
def coverElem (i : Nat) (covered : Covered) (e : UInt32 × Int8) : Covered :=
  match covered[e.1]? with
  | none => covered.insert e.1 (e.2, i)
  | some prev => if e.2 > prev.1 then covered.insert e.1 (e.2, i) else covered

/-- The loop over the inputs, from index `i` on. -/
def coverInputs : Nat → List (Signal × C) → Covered → Covered
  | _, [], covered => covered
  | i, inp :: rest, covered =>
    coverInputs (i + 1) rest (inp.1.toList.foldl (coverElem i) covered)

/-- `signal.Minimize`: the contexts of the inputs that are best for some element. -/
def minimize (corpus : List (Signal × C)) : List C :=
  (((coverInputs 0 corpus ∅).toList.map fun cp => cp.2.2).dedup).filterMap fun idx =>
    corpus[idx]?.map Prod.snd

end Minimize

namespace Manager
variable {P H : Type} [DecidableEq H]

/-- The inputs of a call in the corpus. -/
def callInputs (mgr : Manager P H) (call : String) : List (CorpusItem P) :=
  (mgr.corpus.entries.map Prod.snd).filter fun inp => inp.call = call

/-- Whether the per-call sanity check stops accepting inputs for the call. -/
def saturated (cfg : Config) (mgr : Manager P H) (call : String) : Bool :=
  let count := (mgr.callInputs call).length
  let cov := ((mgr.callInputs call).flatMap CorpusItem.cover).dedup.length
  if cfg.cover then ¬ count < 1000 ∧ ¬ (count < 3000 ∧ cov / count ≥ 10) else ¬ count < 300

/-- The calls of `collectSyscallInfoUnlocked`: nothing before the machine check. -/
def infoCalls (mgr : Manager P H) : List String :=
  match mgr.enabledCalls with
  | none => []
  | some enabled => enabled ++ mgr.corpus.entries.map fun e => e.2.call

/-- The inputs of the corpus; a stable sort moves those with squashed arguments to
the end. -/
def sortedInputs (order : CorpusOrder P H) (mgr : Manager P H) : List (CorpusItem P) :=
  ((order.list mgr.corpus).map Prod.snd).mergeSort fun a b => !a.hasAny || b.hasAny

/-- The inputs that `signal.Minimize` keeps. -/
def keptInputs (order : CorpusOrder P H) (mgr : Manager P H) : List (CorpusItem P) :=
  minimize ((mgr.sortedInputs order).map fun inp => (Signal.deserialize inp.signal, inp))

/-- They become the corpus. -/
def keepMinimized (T : Target P H) (order : CorpusOrder P H) (mgr : Manager P H) :
    Manager P H :=
  { mgr with
    corpus := (mgr.keptInputs order).foldl (fun t inp => t.insert (T.hash inp.prog) inp) .empty }

def markSaturated (cfg : Config) (mgr : Manager P H) : Manager P H :=
  { mgr with
    lastMinCorpus := mgr.corpus.size
    saturatedCalls := mgr.saturatedCalls ∪ (mgr.infoCalls.filter (mgr.saturated cfg)).toFinset }

/-- The records of programs that are neither in the corpus nor disabled are deleted. -/
def purgeDB (mgr : Manager P H) : Manager P H :=
  { mgr with
    corpusDB := (mgr.corpusDB.entries.filter fun e =>
      (mgr.corpus.lookup e.1).isNone ∧ e.1 ∉ mgr.disabledHashes).foldl
        (fun db e => db.erase e.1) mgr.corpusDB }

def minimizeCorpus (T : Target P H) (cfg : Config) (order : CorpusOrder P H)
    (mgr : Manager P H) : Manager P H :=
  if mgr.phase.rank < Phase.loadedCorpus.rank ∨
      mgr.corpus.size ≤ mgr.lastMinCorpus * 103 / 100 then mgr
  -- The persistent corpus is not minimized before the fuzzers have triaged it.
  else if mgr.phase.rank < Phase.triagedCorpus.rank then
    (mgr.keepMinimized T order).markSaturated cfg
  else ((mgr.keepMinimized T order).markSaturated cfg).purgeDB

/-- Whether the coverage filter is on; `none` when the manager exits because the
report generator cannot be initialised. -/
def createCoverageFilter (cfg : Config) : Option Bool :=
  if cfg.covFilter then (if cfg.rgInit then some true else none) else some false

/-- The snapshot of the corpus for a new fuzzer, under `mgr.mu`. -/
def fuzzerConnect (T : Target P H) (cfg : Config) (order snapshotOrder : CorpusOrder P H)
    (mgr : Manager P H) : Option (Manager P H × List (Input P)) :=
  let mgr := mgr.minimizeCorpus T cfg order
  let corpus := (snapshotOrder.list mgr.corpus).map fun e => e.2.rpcInput
  if mgr.modulesInitialized then some (mgr, corpus)
  else
    (createCoverageFilter cfg).map fun filter =>
      ({ mgr with coverFilter := filter, modulesInitialized := true }, corpus)

/-- Enters an input into the corpus; `none` when its call is saturated.  The signal
is merged in place with the one of an item that is already there, so the caller
sees it.  A new item keeps the slice of the input's coverage, whose contents the
caller overwrites afterwards: `shared` is what is left in it. -/
def newInput (T : Target P H) (order : Signal.RangeOrder) (mgr : Manager P H) (inp : Input P)
    (shared : List UInt32) (sign : Signal) (hasAny : Bool) : Option (Manager P H × Signal) :=
  if inp.call ∈ mgr.saturatedCalls then none
  else
    let update : CorpusItemUpdate := ⟨inp.callID, inp.rawCover⟩
    match mgr.corpus.lookup (T.hash inp.prog) with
    | some old =>
      let sign := sign.merge (Signal.deserialize old.signal)
      let item := { old with
        signal := sign.serialize order
        cover := (old.cover ++ inp.cover).dedup
        updates := (old.updates ++ [update]).take 32 }
      some ({ mgr with corpus := mgr.corpus.insert (T.hash inp.prog) item }, sign)
    | none =>
      let item : CorpusItem P :=
        { call := inp.call, prog := inp.prog, hasAny := hasAny, signal := inp.signal,
          cover := shared, updates := [update] }
      some ({ mgr with
        corpus := mgr.corpus.insert (T.hash inp.prog) item
        corpusDB := mgr.corpusDB.insert (T.hash inp.prog) inp.prog }, sign)

def candidateBatch (cfg : Config) (size : Nat) (mgr : Manager P H) :
    List (Candidate P) × Manager P H :=
  let batch := takeLast size mgr.candidates
  let phase :=
    if batch.2 = [] then
      match mgr.phase with
      | .loadedCorpus => if cfg.hubClient then .triagedCorpus else .triagedHub
      | .queriedHub => .triagedHub
      | phase => phase
    else mgr.phase
  (batch.1, { mgr with candidates := batch.2, phase := phase })

end Manager

/-! ## The calls of the fuzzers -/

/-- `MergeDiff`: the new coverage, the PCs that were new, and what is left in the
slice, whose beginning is overwritten with them. -/
def mergeDiff (cov : Finset UInt32) (raw : List UInt32) :
    Finset UInt32 × List UInt32 × List UInt32 :=
  let diff := (raw.filter fun pc => pc ∉ cov).dedup
  (cov ∪ raw.toFinset, diff, diff ++ raw.drop diff.length)

/-- The draws of a rotation: the selected calls and, for each input whose calls are
all selected, whether it is dropped. -/
structure Rotation where
  selected : List String
  drops : List Bool

/-- An input that `NewInput` has entered into the corpus, and the signal that was
found with it. -/
structure Accepted (P : Type) where
  name : String
  input : Input P
  signal : Signal
  genuine : Bool

/-- The input that is sent to the other fuzzers: it has no coverage. -/
def Accepted.sent {P : Type} (acc : Accepted P) : Input P :=
  { acc.input with cover := [], rawCover := [] }

/-- A rotated fuzzer is not asked for the signal of its own input again. -/
def Fuzzer.record {P : Type} (acc : Accepted P) (f : Fuzzer P) : Fuzzer P :=
  if f.rotated then { f with rotatedSignal := f.rotatedSignal.merge acc.signal } else f

/-- A genuine input is handed to every other fuzzer that is not rotated. -/
def Fuzzer.receive {P : Type} (acc : Accepted P) (name : String) (other : Fuzzer P) : Fuzzer P :=
  if name = acc.name ∨ other.rotated then other
  else { other with inputs := other.inputs ++ [acc.sent] }

structure NewInputArgs (P : Type) where
  name : String
  input : Input P

structure PollArgs where
  name : String
  needCandidates : Bool
  maxSignal : Serial
  noStats : Bool

structure PollRes (P : Type) where
  candidates : List (Candidate P)
  newInputs : List (Input P)
  maxSignal : Serial

/-- An empty reply. -/
def PollRes.nothing {P : Type} : PollRes P := ⟨[], [], []⟩

namespace Server
variable {P H : Type} [DecidableEq H]

/-- The canonical modules are those of the first instance that connects. -/
def setCanonical (cfg : Config) (modules : List KernelModule) (serv : Server P H) : Server P H :=
  match serv.canonicalModules with
  | none => { serv with canonicalModules := some (newCanonicalizer modules cfg.cover) }
  | some _ => serv

/-- The first part of `Connect`, up to the snapshot. -/
def snapshot (T : Target P H) (cfg : Config) (order snapshotOrder : CorpusOrder P H)
    (modules : List KernelModule) (serv : Server P H) : Option (Server P H × List (Input P)) :=
  let serv := serv.setCanonical cfg modules
  (serv.mgr.fuzzerConnect T cfg order snapshotOrder).map fun r =>
    ({ serv with mgr := r.1, coverFilter := r.1.coverFilter }, r.2)

/-- `selectInputs`: a dropped input takes its signal with it; `none` models the
panic on a program that cannot be parsed. -/
def selectInputs (T : Target P H) (selected : List String) :
    List Bool → List (Input P) → Signal → Option (List (Input P) × Signal)
  | _, [], signal => some ([], signal)
  | drops, inp :: rest, signal =>
    (T.callSet inp.prog).bind fun calls =>
      let dropped (drops : List Bool) :=
        selectInputs T selected drops rest (inp.signal.foldl (fun s e => s.erase e.1) signal)
      if calls.all (· ∈ selected) then
        if drops.headD false then dropped drops.tail
        else (selectInputs T selected drops.tail rest signal).map fun r => (inp :: r.1, r.2)
      else dropped drops

/-- `rotateCorpus`. -/
def rotateCorpus (T : Target P H) (order : Signal.RangeOrder) (rotation : Rotation)
    (corpus : List (Input P)) (serv : Server P H) (f : Fuzzer P) : Option (Fuzzer P) :=
  (selectInputs T rotation.selected rotation.drops corpus serv.maxSignal).map fun r =>
    let signal := (r.2.split order (r.2.size / 10)).1
    { f with inputs := r.1, newMaxSignal := signal
             rotatedSignal := serv.corpusSignal.intersection signal, rotated := true }

/-- The second part of `Connect`, under `serv.mu`.  The corpus is rotated when the
hub has been triaged and the draw says so (`rotation` is there). -/
def register (T : Target P H) (order : Signal.RangeOrder) (rotation : Option Rotation)
    (conn : Nat) (name : String) (modules : List KernelModule) (corpus : List (Input P))
    (serv : Server P H) : Option (Server P H) :=
  serv.canonicalModules.bind fun canonical =>
    let f : Fuzzer P :=
      { conn := conn, rotated := false, inputs := [], newMaxSignal := ∅, rotatedSignal := ∅,
        instModules := canonical.newInstance modules }
    let f? : Option (Fuzzer P) :=
      match serv.mgr.phase, rotation with
      | .triagedHub, some rotation => serv.rotateCorpus T order rotation corpus f
      | _, _ => some { f with inputs := corpus, newMaxSignal := serv.maxSignal }
    f?.map fun f => { serv with fuzzers := serv.fuzzers.insert name f }

/-- The input as the server sees it: in canonical addresses when the fuzzer is
connected. -/
def canonicalInput (serv : Server P H) (a : NewInputArgs P) : Input P :=
  match serv.fuzzers.lookup a.name with
  | none => a.input
  | some f =>
    let r := f.instModules.canonicalizePCs a.input.cover a.input.signal
    { a.input with cover := r.1, signal := r.2 }

/-- Whether an input with the given signal adds to the corpus. -/
def genuine (serv : Server P H) (signal : Signal) : Bool :=
  !(serv.corpusSignal.diff signal).isEmpty

/-- Whether it adds to what a rotated fuzzer was given. -/
def rotatedInput (serv : Server P H) (name : String) (signal : Signal) : Bool :=
  match serv.fuzzers.lookup name with
  | some f => f.rotated && !(f.rotatedSignal.diff signal).isEmpty
  | none => false

/-- The part of `NewInput` that looks at the signal and enters the input into the
corpus. -/
def enterInput (T : Target P H) (order : Signal.RangeOrder) (name : String) (input : Input P)
    (serv : Server P H) (hasAny : Bool) : Option (Server P H × Accepted P) :=
  if serv.genuine (Signal.deserialize input.signal) ∨
      serv.rotatedInput name (Signal.deserialize input.signal) then
    (serv.mgr.newInput T order input (mergeDiff serv.corpusCover input.cover).2.2
      (Signal.deserialize input.signal) hasAny).map fun r =>
        ({ serv with mgr := r.1 },
          ⟨name, input, r.2, serv.genuine (Signal.deserialize input.signal)⟩)
  else none

/-- The first part of `NewInput`, up to the return of `mgr.newInput`: the input is
entered into the corpus, or nothing happens. -/
def acceptInput (T : Target P H) (order : Signal.RangeOrder) (a : NewInputArgs P)
    (serv : Server P H) : Option (Server P H × Accepted P) :=
  (T.checkProgram a.input.prog).bind (serv.enterInput T order a.name (serv.canonicalInput a))

/-- The rest of `NewInput`: the signal is recorded, and a genuine input is handed to
the other fuzzers. -/
def distribute (cfg : Config) (acc : Accepted P) (serv : Server P H) : Server P H :=
  let cov := mergeDiff serv.corpusCover acc.input.cover
  let serv := { serv with
    fuzzers := serv.fuzzers.modify acc.name (Fuzzer.record acc)
    corpusCover := cov.1 }
  -- The call fails when the report generator is needed and not there.
  if cov.2.1 ≠ [] ∧ serv.coverFilter = true ∧ cfg.rgInit = false then serv
  else if acc.genuine then
    { serv with
      corpusSignal := serv.corpusSignal.merge acc.signal
      fuzzers := serv.fuzzers.mapValues (Fuzzer.receive acc) }
  else serv

def newInput (T : Target P H) (cfg : Config) (order : Signal.RangeOrder) (a : NewInputArgs P)
    (serv : Server P H) : Server P H :=
  match serv.acceptInput T order a with
  | none => serv
  | some (serv, acc) => serv.distribute cfg acc

/-- The number of inputs that a poll may return. -/
def inputBatch (cfg : Config) (a : PollArgs) : Nat :=
  if a.noStats ∧ cfg.batchSize < 50 then 50 else cfg.batchSize

/-- What a fuzzer reports is merged into the maximum, and what is new of it into
what the others have still to be told. -/
def mergeMaxSignal (name : String) (reported : Signal) (serv : Server P H) : Server P H :=
  let newMaxSignal := serv.maxSignal.diff reported
  if newMaxSignal.isEmpty then serv
  else
    { serv with
      maxSignal := serv.maxSignal.merge newMaxSignal
      fuzzers := serv.fuzzers.mapValues fun other f1 =>
        if other = name ∨ f1.rotated then f1
        else { f1 with newMaxSignal := f1.newMaxSignal.merge newMaxSignal } }

/-- The candidates that a poll returns. -/
def pollCandidates (cfg : Config) (a : PollArgs) (mgr : Manager P H) :
    List (Candidate P) × Manager P H :=
  if a.needCandidates then mgr.candidateBatch cfg cfg.batchSize else ([], mgr)

/-- The inputs that a poll takes from the queue of the fuzzer: none when it returns
candidates. -/
def pollInputs (cfg : Config) (a : PollArgs) (mgr : Manager P H) (f : Fuzzer P) :
    List (Input P) × List (Input P) :=
  if (pollCandidates cfg a mgr).1 = [] then takeLast (inputBatch cfg a) f.inputs
  else ([], f.inputs)

/-- `Poll`.  The last loop of the source, which decanonicalizes the inputs, assigns
to its own copy of each of them, so the reply is not changed by it. -/
def poll (cfg : Config) (order : Signal.RangeOrder) (a : PollArgs) (serv : Server P H) :
    Server P H × PollRes P :=
  match serv.fuzzers.lookup a.name with
  | none => (serv, .nothing)
  | some f =>
    let serv := serv.mergeMaxSignal a.name (Signal.deserialize a.maxSignal)
    if f.rotated then (serv, .nothing)
    else
      let signal := f.newMaxSignal.split order 2000
      let candidates := pollCandidates cfg a serv.mgr
      let inputs := pollInputs cfg a serv.mgr f
      ({ serv with
          mgr := candidates.2
          fuzzers := serv.fuzzers.modify a.name fun f =>
            { f with newMaxSignal := signal.1, inputs := inputs.2 } },
        ⟨candidates.1, inputs.1, signal.2.serialize order⟩)

def shutdownInstance (name : String) (serv : Server P H) : Server P H :=
  { serv with fuzzers := serv.fuzzers.erase name }

/-- The server before the first fuzzer connects. -/
def start (mgr : Manager P H) : Server P H :=
  ⟨mgr, none, false, .empty, ∅, ∅, ∅⟩

end Server

/-! ## Runs -/

/-- The arguments of `Connect`, with what it draws. -/
structure ConnectArgs (P H : Type) where
  conn : Nat
  name : String
  modules : List KernelModule
  order : CorpusOrder P H
  snapshotOrder : CorpusOrder P H
  signalOrder : Signal.RangeOrder
  rotation : Option Rotation

/-- What happens to the server, one call after the other. -/
inductive Op (P H : Type)
  | connect (a : ConnectArgs P H)
  | newInput (order : Signal.RangeOrder) (a : NewInputArgs P)
  | poll (order : Signal.RangeOrder) (a : PollArgs)
  | shutdownInstance (name : String)
  | minimizeCorpus (order : CorpusOrder P H)

/-- A call that has returned, with the reply of a poll. -/
structure Event (P H : Type) where
  op : Op P H
  res : PollRes P

namespace Server
variable {P H : Type} [DecidableEq H] (T : Target P H) (cfg : Config)

def connect (a : ConnectArgs P H) (serv : Server P H) : Option (Server P H) :=
  (serv.snapshot T cfg a.order a.snapshotOrder a.modules).bind fun r =>
    r.1.register T a.signalOrder a.rotation a.conn a.name a.modules r.2

/-- One call; `none` when the manager dies. -/
def step (serv : Server P H) : Op P H → Option (Server P H × PollRes P)
  | .connect a => (serv.connect T cfg a).map (·, .nothing)
  | .newInput order a => some (serv.newInput T cfg order a, .nothing)
  | .poll order a => some (serv.poll cfg order a)
  | .shutdownInstance name => some (serv.shutdownInstance name, .nothing)
  | .minimizeCorpus order =>
    some ({ serv with mgr := serv.mgr.minimizeCorpus T cfg order }, .nothing)

/-- A call and the record of it; the newest event comes first. -/
def logged (s : Server P H × List (Event P H)) (op : Op P H) :
    Option (Server P H × List (Event P H)) :=
  (s.1.step T cfg op).map fun r => (r.1, ⟨op, r.2⟩ :: s.2)

variable {T cfg}

/-! ### What the calls leave alone -/

variable {order : Signal.RangeOrder} {modules : List KernelModule} {serv : Server P H}

/-- Up to the snapshot `Connect` changes the manager and the canonical modules only. -/
theorem snapshot_frame {order snapshotOrder : CorpusOrder P H} {r : Server P H × List (Input P)}
    (h : serv.snapshot T cfg order snapshotOrder modules = some r) :
    r.1.fuzzers = serv.fuzzers ∧ r.1.maxSignal = serv.maxSignal ∧
      r.1.corpusSignal = serv.corpusSignal ∧ r.1.corpusCover = serv.corpusCover := by
  obtain ⟨m, _, rfl⟩ := map_eq_some_iff.mp h
  unfold setCanonical
  cases serv.canonicalModules <;> exact ⟨rfl, rfl, rfl, rfl⟩

omit [DecidableEq H] in
/-- **Registering adds one fuzzer**: it is rotated, or it gets the snapshot and all
the signal there is. -/
theorem register_spec {rotation : Option Rotation} {conn : Nat} {name : String}
    {corpus : List (Input P)} {serv' : Server P H}
    (h : serv.register T order rotation conn name modules corpus = some serv') :
    ∃ f : Fuzzer P, serv' = { serv with fuzzers := serv.fuzzers.insert name f } ∧
      f.conn = conn ∧
      (f.rotated = true ∨
        f.rotated = false ∧ f.inputs = corpus ∧ f.newMaxSignal = serv.maxSignal) := by
  obtain ⟨canonical, _, h⟩ := bind_eq_some_iff.mp h
  obtain ⟨f, hf, rfl⟩ := map_eq_some_iff.mp h
  refine ⟨f, rfl, ?_⟩
  split at hf
  · obtain ⟨r, _, rfl⟩ := map_eq_some_iff.mp hf
    exact ⟨rfl, Or.inl rfl⟩
  · cases hf
    exact ⟨rfl, Or.inr ⟨rfl, rfl, rfl⟩⟩

/-- What it means that an input is accepted. -/
theorem acceptInput_spec {a : NewInputArgs P} {r : Server P H × Accepted P}
    (h : serv.acceptInput T order a = some r) :
    ∃ hasAny m, T.checkProgram a.input.prog = some hasAny ∧
      (serv.genuine (Signal.deserialize (serv.canonicalInput a).signal) = true ∨
        serv.rotatedInput a.name (Signal.deserialize (serv.canonicalInput a).signal) = true) ∧
      serv.mgr.newInput T order (serv.canonicalInput a)
        (mergeDiff serv.corpusCover (serv.canonicalInput a).cover).2.2
        (Signal.deserialize (serv.canonicalInput a).signal) hasAny = some (m, r.2.signal) ∧
      r.1 = { serv with mgr := m } ∧ r.2.name = a.name ∧ r.2.input = serv.canonicalInput a ∧
      r.2.genuine = serv.genuine (Signal.deserialize (serv.canonicalInput a).signal) := by
  obtain ⟨hasAny, hcheck, h⟩ := bind_eq_some_iff.mp h
  rw [enterInput] at h
  split at h
  · rename_i hnew
    obtain ⟨m, hm, rfl⟩ := map_eq_some_iff.mp h
    exact ⟨hasAny, m.1, hcheck, hnew, hm, rfl, rfl, rfl, rfl⟩
  · cases h

omit [DecidableEq H] in
/-- What distributing an input does to a fuzzer. -/
theorem distribute_fuzzers (cfg : Config) (acc : Accepted P) (serv : Server P H) (name : String) :
    (serv.distribute cfg acc).fuzzers.lookup name =
        (serv.fuzzers.modify acc.name (Fuzzer.record acc)).lookup name ∨
      (serv.distribute cfg acc).fuzzers.lookup name =
        ((serv.fuzzers.modify acc.name (Fuzzer.record acc)).lookup name).map
          (Fuzzer.receive acc name) := by
  rw [distribute]
  split
  · exact Or.inl rfl
  · split
    · exact Or.inr (Table.lookup_mapValues _ _ _)
    · exact Or.inl rfl

end Server

/-- Two fuzzers of one connection that differ in their inputs and in the signal of
a rotation only. -/
structure Fuzzer.SameSignal {P : Type} (f f' : Fuzzer P) : Prop where
  conn : f'.conn = f.conn
  rotated : f'.rotated = f.rotated
  newMaxSignal : f'.newMaxSignal = f.newMaxSignal

theorem Fuzzer.sameSignal_record {P : Type} (acc : Accepted P) (f : Fuzzer P) :
    f.SameSignal (f.record acc) := by
  unfold Fuzzer.record
  split <;> exact ⟨rfl, rfl, rfl⟩

theorem Fuzzer.sameSignal_receive {P : Type} (acc : Accepted P) (name : String) (f : Fuzzer P) :
    f.SameSignal (f.receive acc name) := by
  unfold Fuzzer.receive
  split <;> exact ⟨rfl, rfl, rfl⟩

theorem Fuzzer.SameSignal.trans {P : Type} {f g k : Fuzzer P} (h : f.SameSignal g)
    (h' : g.SameSignal k) : f.SameSignal k :=
  ⟨h'.conn.trans h.conn, h'.rotated.trans h.rotated, h'.newMaxSignal.trans h.newMaxSignal⟩

namespace Server
variable {P H : Type} [DecidableEq H] {T : Target P H} {cfg : Config}

omit [DecidableEq H] in
theorem lookup_modify_record (acc : Accepted P) (serv : Server P H) {name : String}
    {f' : Fuzzer P}
    (h : (serv.fuzzers.modify acc.name (Fuzzer.record acc)).lookup name = some f') :
    ∃ f, serv.fuzzers.lookup name = some f ∧ f.SameSignal f' := by
  rw [Table.lookup_modify] at h
  split at h
  · obtain ⟨f, hf, rfl⟩ := map_eq_some_iff.mp h
    exact ⟨f, hf, f.sameSignal_record acc⟩
  · exact ⟨f', h, ⟨rfl, rfl, rfl⟩⟩

omit [DecidableEq H] in
theorem distribute_frame (cfg : Config) (acc : Accepted P) (serv : Server P H) :
    (serv.distribute cfg acc).maxSignal = serv.maxSignal ∧
      ∀ name f', (serv.distribute cfg acc).fuzzers.lookup name = some f' →
        ∃ f, serv.fuzzers.lookup name = some f ∧ f.SameSignal f' := by
  constructor
  · rw [distribute]
    split
    · rfl
    · split <;> rfl
  · intro name f' hf'
    rcases distribute_fuzzers cfg acc serv name with hsame | hpushed
    · exact lookup_modify_record acc serv (hsame.symm.trans hf')
    · obtain ⟨g, hg, rfl⟩ := map_eq_some_iff.mp (hpushed.symm.trans hf')
      obtain ⟨f, hf, hsame⟩ := lookup_modify_record acc serv hg
      exact ⟨f, hf, hsame.trans (g.sameSignal_receive acc name)⟩

/-- `NewInput` leaves the pending signal of every fuzzer alone. -/
theorem newInput_frame (order : Signal.RangeOrder) (a : NewInputArgs P) (serv : Server P H) :
    (serv.newInput T cfg order a).maxSignal = serv.maxSignal ∧
      ∀ name f', (serv.newInput T cfg order a).fuzzers.lookup name = some f' →
        ∃ f, serv.fuzzers.lookup name = some f ∧ f.SameSignal f' := by
  rw [newInput]
  split
  · exact ⟨rfl, fun name f' hf' => ⟨f', hf', ⟨rfl, rfl, rfl⟩⟩⟩
  · rename_i r acc hacc
    obtain ⟨_, m, _, _, _, hr, _⟩ := acceptInput_spec hacc
    have hframe := distribute_frame cfg acc r
    rw [show r = { serv with mgr := m } from hr] at hframe ⊢
    exact hframe

end Server

/-- **The coverage filter is only on when the report generator is there**, so that
`NewInput` does not fail for want of it. -/
structure FilterReady {P H : Type} (cfg : Config) (serv : Server P H) : Prop where
  mgr : serv.mgr.coverFilter = true → cfg.rgInit = true
  serv : serv.coverFilter = true → cfg.rgInit = true

namespace FilterReady
variable {P H : Type} [DecidableEq H] {T : Target P H} {cfg : Config} {serv : Server P H}

omit [DecidableEq H] in
/-- A server with the same filters. -/
theorem congr {serv' : Server P H} (h : FilterReady cfg serv)
    (hmgr : serv'.mgr.coverFilter = serv.mgr.coverFilter)
    (hserv : serv'.coverFilter = serv.coverFilter) : FilterReady cfg serv' :=
  ⟨fun hon => h.mgr (hmgr ▸ hon), fun hon => h.serv (hserv ▸ hon)⟩

theorem createCoverageFilter_true (h : Manager.createCoverageFilter cfg = some true) :
    cfg.rgInit = true := by
  rw [Manager.createCoverageFilter] at h
  split at h
  · split at h
    · assumption
    · cases h
  · cases h

theorem minimizeCorpus_coverFilter (order : CorpusOrder P H) (mgr : Manager P H) :
    (mgr.minimizeCorpus T cfg order).coverFilter = mgr.coverFilter := by
  rw [Manager.minimizeCorpus]
  split
  · rfl
  · split <;> rfl

theorem snapshot (h : FilterReady cfg serv) {order snapshotOrder : CorpusOrder P H}
    {modules : List KernelModule} {r : Server P H × List (Input P)}
    (hsnap : serv.snapshot T cfg order snapshotOrder modules = some r) :
    FilterReady cfg r.1 := by
  obtain ⟨m, hm, rfl⟩ := map_eq_some_iff.mp hsnap
  have hcanonical : (serv.setCanonical cfg modules).mgr = serv.mgr := by
    rw [Server.setCanonical]
    split <;> rfl
  have hfilter : m.1.coverFilter = true → cfg.rgInit = true := by
    rw [Manager.fuzzerConnect] at hm
    split at hm
    · cases hm
      intro hon
      rw [minimizeCorpus_coverFilter, hcanonical] at hon
      exact h.mgr hon
    · obtain ⟨filter, hfilter, rfl⟩ := map_eq_some_iff.mp hm
      exact fun hon => createCoverageFilter_true (hfilter.trans (congrArg some hon))
  exact ⟨hfilter, hfilter⟩

theorem mgrNewInput_coverFilter {order : Signal.RangeOrder} {mgr : Manager P H} {inp : Input P}
    {shared : List UInt32} {sign : Signal} {hasAny : Bool} {r : Manager P H × Signal}
    (h : mgr.newInput T order inp shared sign hasAny = some r) :
    r.1.coverFilter = mgr.coverFilter := by
  rw [Manager.newInput] at h
  split at h
  · cases h
  · split at h <;> obtain rfl := some.inj h <;> rfl

theorem acceptInput (h : FilterReady cfg serv) {order : Signal.RangeOrder} {a : NewInputArgs P}
    {r : Server P H × Accepted P} (hacc : serv.acceptInput T order a = some r) :
    FilterReady cfg r.1 := by
  obtain ⟨_, m, _, _, hm, hr, _⟩ := Server.acceptInput_spec hacc
  rw [hr]
  exact h.congr (mgrNewInput_coverFilter hm) rfl

omit [DecidableEq H] in
theorem distribute (h : FilterReady cfg serv) (acc : Accepted P) :
    FilterReady cfg (serv.distribute cfg acc) := by
  rw [Server.distribute]
  split
  · exact h.congr rfl rfl
  · split <;> exact h.congr rfl rfl

theorem newInput (h : FilterReady cfg serv) (order : Signal.RangeOrder) (a : NewInputArgs P) :
    FilterReady cfg (serv.newInput T cfg order a) := by
  rw [Server.newInput]
  split
  · exact h
  · rename_i r acc hacc
    exact (h.acceptInput hacc).distribute acc

omit [DecidableEq H] in
theorem mergeMaxSignal (h : FilterReady cfg serv) (name : String) (reported : Signal) :
    FilterReady cfg (serv.mergeMaxSignal name reported) := by
  rw [Server.mergeMaxSignal]
  split <;> exact h.congr rfl rfl

omit [DecidableEq H] in
theorem poll (h : FilterReady cfg serv) (order : Signal.RangeOrder) (a : PollArgs) :
    FilterReady cfg (serv.poll cfg order a).1 := by
  rw [Server.poll]
  split
  · exact h
  have hmerged := h.mergeMaxSignal a.name (Signal.deserialize a.maxSignal)
  dsimp only
  split
  · exact hmerged
  · rw [Server.pollCandidates]
    split <;> exact hmerged.congr rfl rfl

omit [DecidableEq H] in
/-- With the report generator there, an input is distributed. -/
theorem distribute_eq (h : FilterReady cfg serv) (acc : Accepted P) :
    serv.distribute cfg acc =
      if acc.genuine then
        { serv with
          corpusCover := (mergeDiff serv.corpusCover acc.input.cover).1
          corpusSignal := serv.corpusSignal.merge acc.signal
          fuzzers := (serv.fuzzers.modify acc.name (Fuzzer.record acc)).mapValues
            (Fuzzer.receive acc) }
      else
        { serv with
          corpusCover := (mergeDiff serv.corpusCover acc.input.cover).1
          fuzzers := serv.fuzzers.modify acc.name (Fuzzer.record acc) } := by
  rw [Server.distribute]
  rw [if_neg]
  rintro ⟨-, hon, hoff⟩
  rw [h.serv hon] at hoff
  cases hoff

end FilterReady

/-! ### Polls -/

section Polls
variable {P H : Type} {cfg : Config} {order : Signal.RangeOrder} {a : PollArgs}
  {serv : Server P H} {f f' : Fuzzer P}

theorem mergeMaxSignal_mgr (name : String) (reported : Signal) (serv : Server P H) :
    (serv.mergeMaxSignal name reported).mgr = serv.mgr := by
  rw [Server.mergeMaxSignal]
  split <;> rfl

/-- The reply has the inputs as they were queued. -/
theorem poll_newInputs (hf : serv.fuzzers.lookup a.name = some f) (hrot : f.rotated = false) :
    (serv.poll cfg order a).2.newInputs = (Server.pollInputs cfg a serv.mgr f).1 := by
  rw [Server.poll, hf]
  dsimp only
  rw [if_neg (by simp [hrot]), mergeMaxSignal_mgr]

end Polls

/-! ### A small server -/

/-- Programs are numbers that are their own hash. -/
def numbered : Target Nat Nat := ⟨id, fun _ => some [], fun _ => some false⟩

/-- A manager with an empty corpus. -/
def emptyManager : Manager Nat Nat :=
  ⟨.loadedCorpus, .empty, .empty, ∅, 0, ∅, [], none, false, false⟩

/-- Real coverage, no hub, no filter. -/
def plainConfig : Config := ⟨true, false, false, true, 5⟩

/-- Maps are visited in the order of their entries. -/
def inOrder : Signal.RangeOrder := ⟨fun s => s.toList, fun _ => .refl _⟩

def corpusInOrder : CorpusOrder Nat Nat := ⟨fun t => t.entries, fun _ => .refl _⟩

/-- A fuzzer connects without rotation. -/
def connectPlain (conn : Nat) (name : String) (modules : List KernelModule) : Op Nat Nat :=
  .connect ⟨conn, name, modules, corpusInOrder, corpusInOrder, inOrder, none⟩

end Sect.Rpc
