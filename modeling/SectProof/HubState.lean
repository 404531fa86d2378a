import SectProof.StepRuns

/-! # The state of the hub

`syz-hub/state/state.go`: managers submit programs and reproducers to the hub and get
those of the others.  What a manager has still to get is not stored: the hub numbers
what it accepts, and keeps for every manager the number up to which it has been
served.

`State.step` is one call of a manager, or a restart of the hub; `none` models a panic.
The files are written through, so that the state stands for them too; only the file
with the reproducer cursor may be behind (`reproSeqFile`).
-/

namespace Sect.Hub

/-! ## Programs -/

abbrev Program := List UInt8
abbrev CallName := List UInt8

/-- The name of the call on a line: what stands before the bracket and after an
assignment. -/
def callName (ln : List UInt8) : Option CallName :=
  -- '(' is 40, '=' is 61 and ' ' is 32.
  if 40 ∈ ln then
    let call := ln.takeWhile (· ≠ 40)
    let call :=
      if 61 ∈ call then (((call.dropWhile (· ≠ 61)).drop 1).dropWhile (· = 32)) else call
    if call = [] then none else some call
  else none

/-- The lines with a call: empty lines and comments are skipped. -/
def callLines (data : Program) : List (List UInt8) :=
  (data.splitOn 10).filter fun ln => ln ≠ [] ∧ ln.head? ≠ some 35

/-- `prog.CallSet`: the calls of a program, in order, so that their number is the
length of the list. -/
def callSet (data : Program) : Option (List CallName) :=
  ((callLines data).mapM callName).bind fun calls => if calls = [] then none else some calls

def managerSupportsAllCalls (mgr prog : List CallName) : Bool := prog.all (· ∈ mgr)

/-- `prog.MaxCalls`. -/
def maxCalls : Nat := 40

/-! ## Data -/

/-- A record of a database. -/
structure Rec where
  val : Program
  seq : Nat

/-- A manager; `K` is the type of the hashes of programs.  Of its own corpus the hub
keeps the hashes. -/
structure Manager (K : Type) where
  domain : String
  corpusSeq : Nat
  reproSeq : Nat
  reproSeqFile : Nat
  ownRepros : Finset K
  connected : Bool
  calls : List CallName
  corpus : Finset K

structure State (K : Type) where
  corpusSeq : Nat
  reproSeq : Nat
  corpus : Table K Rec
  repros : Table K Rec
  managers : Table String (Manager K)

/-- The largest number: the database reserves it for deleted records. -/
def seqDeleted : Nat := 2 ^ 64 - 1

/-- Numbers have 64 bits. -/
def nextSeq (seq : Nat) : Nat := (seq + 1) % 2 ^ 64

inductive Error
  | unconnectedManager (name : String)
  | badCallSet (program : Program)
  deriving DecidableEq

structure HubInput where
  domain : String
  prog : Program
  deriving DecidableEq

/-- `sort.Slice` by sequence numbers; it need not be stable. -/
structure SliceSort (K : Type) where
  sort : List (K × Rec) → List (K × Rec)
  perm : ∀ l, (sort l).Perm l
  sorted : ∀ l, (sort l).Pairwise fun a b => a.2.seq ≤ b.2.seq

/-- What a call of `Sync` draws. -/
structure Draws (K : Type) where
  managers : Table.RangeOrder String (Manager K)
  records : Table.RangeOrder K Rec
  sort : SliceSort K

/-- The records that pass a check which may fail. -/
def collect {K : Type} (wants : K × Rec → Except Error Bool) :
    List (K × Rec) → Except Error (List (K × Rec))
  | [] => .ok []
  | e :: rest =>
    match wants e with
    | .error err => .error err
    | .ok false => collect wants rest
    | .ok true => (collect wants rest).map (e :: ·)

/-! ## Pending programs -/

namespace Manager
variable {K : Type} [DecidableEq K]

/-- Whether a record is pending for the manager: it is behind the cursor, not one of its
own, and the manager has all its calls. -/
def wants (cursor : Nat) (own : Finset K) (calls : List CallName) (e : K × Rec) :
    Except Error Bool :=
  if cursor ≥ e.2.seq then .ok false
  else if e.1 ∈ own then .ok false
  else
    match callSet e.2.val with
    | none => .error (.badCallSet e.2.val)
    | some needed => .ok (managerSupportsAllCalls calls needed)

/-- The records pending in a `Sync`. -/
def wantsInput (mgr : Manager K) : K × Rec → Except Error Bool :=
  wants mgr.corpusSeq mgr.corpus mgr.calls

/-- The reproducers pending for the manager. -/
def wantsRepro (mgr : Manager K) : K × Rec → Except Error Bool :=
  wants mgr.reproSeq mgr.ownRepros mgr.calls

end Manager

/-- Send at most that many records (rounded up to next seq number). -/
def maxRecords : Nat := 100

/-- If there are more records to send, only the newest are sent at all. -/
def capRecords : Nat := 100000

section Batch
variable {K : Type}

/-- The newest `capRecords` records of a sorted list. -/
def capped (records : List (K × Rec)) : List (K × Rec) :=
  if records.length > capRecords then records.drop (records.length - capRecords) else records

/-- The position after the batch: all records with the number of the last one are in
it. -/
def batchEnd (maxSeq : Nat) (records : List (K × Rec)) : Nat :=
  maxRecords + 1 + ((records.drop (maxRecords + 1)).takeWhile fun e => e.2.seq = maxSeq).length

/-- The records of one `Sync`, the number up to which they serve the manager, and how
many are left. -/
def batch (sort : SliceSort K) (corpusSeq : Nat) (records : List (K × Rec)) :
    List (K × Rec) × Nat × Nat :=
  if records.length > maxRecords then
    let records := capped (sort.sort records)
    match records[maxRecords]? with
    | none => (records, corpusSeq, 0)
    | some last =>
      let pos := batchEnd last.2.seq records
      (records.take pos, last.2.seq, records.length - pos)
  else (records, corpusSeq, 0)

end Batch

/-- The loop of `inputDomain`. -/
def inputDomainLoop {K : Type} [DecidableEq K] (key : K) (self : String) :
    List (Manager K) → String → String
  | [], domain => domain
  | mgr :: rest, domain =>
    if mgr.domain ≠ self ∧ domain ≠ "" then inputDomainLoop key self rest domain
    else if key ∉ mgr.corpus then inputDomainLoop key self rest domain
    else if mgr.domain = self then mgr.domain
    else inputDomainLoop key self rest mgr.domain

/-! ## The calls of the managers -/

namespace State
variable {K : Type} [DecidableEq K]

def inputDomain (order : Table.RangeOrder String (Manager K)) (key : K) (self : String)
    (st : State K) : String :=
  inputDomainLoop key self ((order.list st.managers).map Prod.snd) ""

/-- Programs that are in the corpus of no manager are deleted. -/
def purgeCorpus (st : State K) : State K :=
  { st with corpus := st.corpus.filter fun key _ =>
      st.managers.entries.any fun e => key ∈ e.2.corpus }

/-- A new program is saved with the current number; `none` models the panic of the
database on the reserved one. -/
def saveInput (sig : K) (input : Program) (st : State K) : Option (State K) :=
  if (st.corpus.lookup sig).isSome then some st
  else if st.corpusSeq = seqDeleted then none
  else some { st with corpus := st.corpus.insert sig ⟨input, st.corpusSeq⟩ }

/-- The program becomes one of the manager. -/
def ownInput (name : String) (sig : K) (st : State K) : State K :=
  { st with managers := st.managers.modify name fun mgr =>
      { mgr with corpus := insert sig mgr.corpus } }

def addInput (hash : Program → K) (name : String) (st : State K) (input : Program) :
    Option (State K) :=
  match callSet input with
  | none => some st
  | some calls =>
    if calls.length > maxCalls then some st
    else (st.ownInput name (hash input)).saveInput (hash input) input

def addInputs (hash : Program → K) (name : String) (inputs : List Program) (st : State K) :
    Option (State K) :=
  if inputs = [] then some st
  else inputs.foldlM (addInput hash name) { st with corpusSeq := nextSeq st.corpusSeq }

/-- The records pending for the manager. -/
def pendingInputs (draws : Draws K) (name : String) (mgr : Manager K) (st : State K) :
    State K × Except Error (List HubInput × Nat) :=
  if mgr.corpusSeq = st.corpusSeq then (st, .ok ([], 0))
  else
    match collect mgr.wantsInput (draws.records.list st.corpus) with
    | .error err => (st, .error err)
    | .ok records =>
      let r := batch draws.sort st.corpusSeq records
      ({ st with managers := st.managers.modify name fun mgr => { mgr with corpusSeq := r.2.1 } },
        .ok (r.1.map fun e => ⟨st.inputDomain draws.managers e.1 mgr.domain, e.2.val⟩, r.2.2))

/-- The contents of the files of a manager; missing files count as empty. -/
structure Files (K : Type) where
  corpusSeq : Nat
  reproSeq : Nat
  domain : String
  corpus : Finset K

def Files.none {K : Type} : Files K := ⟨0, 0, "", ∅⟩

/-- The cursor for reproducers; without a file the manager gets new ones only. -/
def loadReproSeq (files : Files K) (st : State K) : Nat :=
  if files.reproSeq = 0 then st.reproSeq else files.reproSeq

def createManager (st : State K) (name : String) (files : Files K) : State K :=
  { st with
    corpusSeq := max st.corpusSeq files.corpusSeq
    reproSeq := max st.reproSeq (st.loadReproSeq files)
    managers := st.managers.insert name
      { domain := files.domain, corpusSeq := files.corpusSeq, reproSeq := st.loadReproSeq files,
        reproSeqFile := files.reproSeq, ownRepros := ∅, connected := false, calls := [],
        corpus := files.corpus } }

/-- The manager of the name, created if need be. -/
def ensureManager (name : String) (st : State K) : State K :=
  if (st.managers.lookup name).isSome then st else st.createManager name .none

/-- What `Connect` does to the manager itself. -/
def connected (reproSeq : Nat) (domain : String) (fresh : Bool) (calls : List CallName)
    (mgr : Manager K) : Manager K :=
  { mgr with
    connected := true
    domain := domain
    corpusSeq := if fresh then 0 else mgr.corpusSeq
    reproSeq := if fresh then reproSeq else mgr.reproSeq
    reproSeqFile := if fresh then reproSeq else mgr.reproSeq
    calls := calls
    corpus := ∅ }

/-- The first part of `Connect`. -/
def connectManager (name domain : String) (fresh : Bool) (calls : List CallName)
    (st : State K) : State K :=
  let st := st.ensureManager name
  { st with managers := st.managers.modify name (connected st.reproSeq domain fresh calls) }

def connect (hash : Program → K) (name domain : String) (fresh : Bool) (calls : List CallName)
    (corpus : List Program) (st : State K) : Option (State K) :=
  ((st.connectManager name domain fresh calls).addInputs hash name corpus).map purgeCorpus

/-- The manager, if it is connected. -/
def connectedManager (name : String) (st : State K) : Option (Manager K) :=
  (st.managers.lookup name).filter Manager.connected

/-- The part of `Sync` that deletes programs of the manager. -/
def deleteInputs (name : String) (del : List K) (st : State K) : State K :=
  if del = [] then st
  else
    purgeCorpus { st with managers := st.managers.modify name fun mgr =>
      { mgr with corpus := mgr.corpus \ del.toFinset } }

/-- The reply to `Sync`: the domain, the programs and how many are left. -/
abbrev SyncReply := Except Error (String × List HubInput × Nat)

def sync (hash : Program → K) (draws : Draws K) (name : String) (add : List Program)
    (del : List K) (st : State K) : Option (State K × SyncReply) :=
  match st.connectedManager name with
  | none => some (st, .error (.unconnectedManager name))
  | some _ =>
    ((st.deleteInputs name del).addInputs hash name add).bind fun st =>
      (st.managers.lookup name).map fun mgr =>
        let r := st.pendingInputs draws name mgr
        (r.1, r.2.map fun p => (mgr.domain, p))

/-- The cursor of the manager moves, in memory and in its file. -/
def moveReproSeq (name : String) (seq : Nat) (st : State K) : State K :=
  { st with managers := st.managers.modify name fun mgr =>
      { mgr with reproSeq := seq, reproSeqFile := seq } }

/-- A new reproducer is recorded as one of the manager; a manager that is up to date
skips it. -/
def ownRepro (name : String) (mgr : Manager K) (sig : K) (st : State K) : State K :=
  let st := { st with managers := st.managers.modify name fun mgr =>
    { mgr with ownRepros := insert sig mgr.ownRepros } }
  if mgr.reproSeq = st.reproSeq then st.moveReproSeq name (nextSeq mgr.reproSeq) else st

def addRepro (hash : Program → K) (name : String) (repro : Program) (st : State K) :
    Option (State K × Except Error Unit) :=
  match st.connectedManager name with
  | none => some (st, .error (.unconnectedManager name))
  | some mgr =>
    match callSet repro with
    | none => some (st, .ok ())
    | some _ =>
      if (st.repros.lookup (hash repro)).isSome then some (st, .ok ())
      else if nextSeq st.reproSeq = seqDeleted then none
      else
        some ({ st.ownRepro name mgr (hash repro) with
          reproSeq := nextSeq st.reproSeq
          repros := st.repros.insert (hash repro) ⟨repro, nextSeq st.reproSeq⟩ }, .ok ())

/-- The loop for the smallest number. -/
def firstRepro (records : List (K × Rec)) : Nat × Option Program :=
  records.foldl (fun best e => if best.1 > e.2.seq then (e.2.seq, some e.2.val) else best)
    (seqDeleted, none)

def pendingRepro (order : Table.RangeOrder K Rec) (name : String) (st : State K) :
    State K × Except Error (Option Program) :=
  match st.connectedManager name with
  | none => (st, .error (.unconnectedManager name))
  | some mgr =>
    if mgr.reproSeq = st.reproSeq then (st, .ok none)
    else
      match collect mgr.wantsRepro (order.list st.repros) with
      | .error err => (st, .error err)
      | .ok records =>
        match firstRepro records with
        | (_, none) => (st.moveReproSeq name st.reproSeq, .ok none)
        | (minSeq, some repro) => (st.moveReproSeq name minSeq, .ok (some repro))

/-! ## Restarts -/

/-- The files of the hub; the managers in the order in which their directories are read. -/
structure Disk (K : Type) where
  corpus : Table K Rec
  repros : Table K Rec
  managers : List (String × Files K)

/-- The records of a database that are kept when it is loaded.  One with the reserved
number is read as a deletion. -/
def goodRecord (hash : Program → K) (key : K) (rec : Rec) : Bool :=
  match callSet rec.val with
  | none => false
  | some calls => calls.length ≤ maxCalls ∧ hash rec.val = key ∧ rec.seq < seqDeleted

/-- `loadDB` for a database of programs, with the largest number in it. -/
def loadDB (hash : Program → K) (db : Table K Rec) : Table K Rec × Nat :=
  let db := db.filter (goodRecord hash)
  (db, (db.entries.map fun e => e.2.seq).foldr max 0)

/-- The hub before the managers are loaded. -/
def loadDBs (hash : Program → K) (disk : Disk K) : State K :=
  let corpus := loadDB hash disk.corpus
  let repros := loadDB hash disk.repros
  ⟨corpus.2, repros.2, corpus.1, repros.1, .empty⟩

/-- `Make`. -/
def make (hash : Program → K) (disk : Disk K) : State K :=
  (disk.managers.foldl (fun st m => st.createManager m.1 m.2) (loadDBs hash disk)).purgeCorpus

/-- What is in the files of a running hub. -/
def disk (st : State K) : Disk K :=
  ⟨st.corpus, st.repros,
    (st.managers.entries.insertionSort fun a b => a.1 ≤ b.1).map fun e =>
      (e.1, ⟨e.2.corpusSeq, e.2.reproSeqFile, e.2.domain, e.2.corpus⟩)⟩

def restart (hash : Program → K) (st : State K) : State K := make hash st.disk

end State

/-! ## Steps -/

/-- A call of a manager, with what it draws. -/
inductive Call (K : Type)
  | connect (name domain : String) (fresh : Bool) (calls : List CallName) (corpus : List Program)
  | sync (draws : Draws K) (name : String) (add : List Program) (del : List K)
  | addRepro (name : String) (repro : Program)
  | pendingRepro (order : Table.RangeOrder K Rec) (name : String)

inductive Reply
  | connected
  | synced (reply : State.SyncReply)
  | added (reply : Except Error Unit)
  | pending (reply : Except Error (Option Program))

/-- One call; `none` when the hub panics. -/
def State.call {K : Type} [DecidableEq K] (hash : Program → K) (st : State K) :
    Call K → Option (State K × Reply)
  | .connect name domain fresh calls corpus =>
    (st.connect hash name domain fresh calls corpus).map (·, .connected)
  | .sync draws name add del => (st.sync hash draws name add del).map fun r => (r.1, .synced r.2)
  | .addRepro name repro => (st.addRepro hash name repro).map fun r => (r.1, .added r.2)
  | .pendingRepro order name =>
    some ((st.pendingRepro order name).1, .pending (st.pendingRepro order name).2)

/-! ## Pending records -/

section Pending
variable {K : Type} [DecidableEq K]

/-- Whether all calls of a program are in the call set. -/
def supports (calls : List CallName) (program : Program) : Bool :=
  match callSet program with
  | none => false
  | some needed => managerSupportsAllCalls calls needed

omit [DecidableEq K] in
theorem collect_eq_filter {wants : K × Rec → Except Error Bool} {p : K × Rec → Bool}
    {l : List (K × Rec)} (h : ∀ e ∈ l, wants e = .ok (p e)) :
    collect wants l = .ok (l.filter p) := by
  induction l with
  | nil => rfl
  | cons e rest ih =>
    rw [collect, h e List.mem_cons_self, ih fun e' he' => h e' (List.mem_cons_of_mem _ he')]
    cases hp : p e
    · rw [List.filter_cons_of_neg (by simp [hp])]
    · rw [List.filter_cons_of_pos hp]
      rfl

/-- Whether a record that can be parsed is pending. -/
def pending (cursor : Nat) (own : Finset K) (calls : List CallName) (e : K × Rec) : Bool :=
  cursor < e.2.seq ∧ e.1 ∉ own ∧ supports calls e.2.val

theorem wants_eq_pending (cursor : Nat) (own : Finset K) (calls : List CallName) {e : K × Rec}
    (h : (callSet e.2.val).isSome) :
    Manager.wants cursor own calls e = .ok (pending cursor own calls e) := by
  obtain ⟨needed, hneeded⟩ := Option.isSome_iff_exists.mp h
  rw [Manager.wants, pending, supports, hneeded]
  by_cases hseq : e.2.seq ≤ cursor
  · simp [Nat.not_lt.mpr hseq]
  · by_cases hown : e.1 ∈ own
    · simp [hown]
    · simp [hown, Nat.not_le.mp hseq]

variable {key : K} {rec : Rec}

theorem pending_iff {cursor : Nat} {own : Finset K} {calls : List CallName} :
    pending cursor own calls (key, rec) = true ↔
      cursor < rec.seq ∧ key ∉ own ∧ supports calls rec.val = true := by
  rw [pending, decide_eq_true_iff]

omit [DecidableEq K] in
theorem lookup_of_connectedManager {st : State K} {name : String} {mgr : Manager K}
    (hmgr : st.connectedManager name = some mgr) : st.managers.lookup name = some mgr :=
  (Option.filter_eq_some_iff.mp hmgr).1

/-- A record that is kept can be parsed and has its hash as key. -/
theorem of_goodRecord {hash : Program → K} (h : State.goodRecord hash key rec = true) :
    rec.seq < seqDeleted ∧ hash rec.val = key ∧ (callSet rec.val).isSome := by
  rw [State.goodRecord] at h
  split at h
  · cases h
  · rename_i calls hcalls
    obtain ⟨-, hhash, hseq⟩ := of_decide_eq_true h
    exact ⟨hseq, hhash, by rw [hcalls]; rfl⟩

theorem loadDB_records {hash : Program → K} {db : Table K Rec}
    (hrec : (State.loadDB hash db).1.lookup key = some rec) :
    rec.seq ≤ (State.loadDB hash db).2 ∧ rec.seq < seqDeleted ∧ hash rec.val = key ∧
      (callSet rec.val).isSome := by
  have hmax : ∀ (l : List Nat) (n : Nat), n ∈ l → n ≤ l.foldr max 0 := by
    intro l n hn
    induction l with
    | nil => cases hn
    | cons a l ih =>
      rcases List.mem_cons.mp hn with rfl | htail
      · exact Nat.le_max_left _ _
      · exact (ih htail).trans (Nat.le_max_right _ _)
  refine ⟨?_, ?_⟩
  · refine hmax _ _ (List.mem_map.mpr ⟨(key, rec), ?_, rfl⟩)
    exact Table.mem_entries_iff.mpr hrec
  · rw [State.loadDB, Table.lookup_filter, Option.filter_eq_some_iff] at hrec
    exact of_goodRecord hrec.2

end Pending

end Sect.Hub
