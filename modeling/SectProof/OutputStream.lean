import SectProof.ByteReaders

/-! # The executor's output stream

`executor.cc` reports the calls of a program in a shared memory region: a word
with the number of replies, then one reply per finished or unfinished call and
one per batch of extra coverage.  A reply is eight words, three of them counts
that are written as `0` and patched after the payload they count.

The functions below follow the source write by write, on the bytes between
`output_data` and `output_pos`; `none` is the process exit of `failmsg`.
-/

namespace Sect.Executor

/-- The magic word in front of every reply. -/
def kOutMagic : UInt32 := 0xbadf00d

/-- The largest output region (`kMaxOutputComparisons`). -/
def kMaxOutput : Nat := 14 <<< 20

def callFlagExecuted : UInt32 := 1
def callFlagFinished : UInt32 := 2
def callFlagBlocked : UInt32 := 4
def callFlagFaultInjected : UInt32 := 8

def kcovCmpConst : UInt64 := 1
def kcovCmpSize1 : UInt64 := 0
def kcovCmpSize2 : UInt64 := 2
def kcovCmpSize4 : UInt64 := 4
def kcovCmpSize8 : UInt64 := 6
def kcovCmpSizeMask : UInt64 := 6

/-- A comparison recorded by the kernel (`kcov_comparison_t`). -/
structure KcovComparison where
  type : UInt64
  arg1 : UInt64
  arg2 : UInt64
  pc : UInt64
  deriving DecidableEq, Repr

/-- What a coverage buffer holds (`cover_t`): program counters, or comparisons
when those are collected instead. -/
structure Cover where
  pcs : List UInt64
  comps : List KcovComparison
  pcOffset : UInt64
  deriving DecidableEq, Repr

/-- The fields of a `thread_t` that a reply is made of.  `call_index` and
`call_num` are non-negative `int`s. -/
structure CallResult where
  callIndex : Nat
  callNum : Nat
  res : Int64
  reserrno : UInt32
  faultInjected : Bool
  cov : Cover
  callIndex_lt : callIndex < 2 ^ 31
  callNum_lt : callNum < 2 ^ 31

/-- The flags of an execution request and the parts of the platform the writer
depends on.  `sortComps` is `std::sort` on the comparisons, which leaves the
order of equal ones open. -/
structure Config where
  order : ByteOrder
  isKernel64Bit : Bool
  flagCoverage : Bool
  flagCollectSignal : Bool
  flagCollectCover : Bool
  flagDedupCover : Bool
  flagComparisons : Bool
  flagExtraCoverage : Bool
  useCoverEdges : UInt64 → Bool
  coverageFilter : UInt64 → Bool
  sortComps : List KcovComparison → List KcovComparison
  outputData : UInt64
  outputSize : Nat
  outputSize_le : outputSize ≤ kMaxOutput

/-- Slots of the best-effort deduplication table; `0` marks a free slot. -/
abbrev DedupTable := Nat → UInt32

def dedupTableSize : Nat := 8 <<< 10

/-- The writer's state: the bytes written so far, the deduplication table and
the number of replies. -/
structure Output where
  data : List UInt8
  dedupTable : DedupTable
  completed : UInt32

/-- A piece of the writer; `none` when the process exits with `failmsg`. -/
abbrev Writer (α : Type) := StateT Output Option α

variable (cfg : Config)

/-- `write_output`: one word, at the returned position. -/
def writeOutput (v : UInt32) : Writer Nat := fun s =>
  if cfg.outputSize ≤ s.data.length then none
  else some (s.data.length, { s with data := s.data ++ cfg.order.store 4 v.toNat })

/-- `write_output_64`. -/
def writeOutput64 (v : UInt64) : Writer Unit := fun s =>
  if cfg.outputSize ≤ s.data.length + 4 then none
  else some ((), { s with data := s.data ++ cfg.order.store 8 v.toNat })

/-- The bytes with the word at `pos` overwritten. -/
def patch (o : ByteOrder) (pos : Nat) (v : UInt32) (data : List UInt8) : List UInt8 :=
  data.take pos ++ (o.store 4 v.toNat ++ data.drop (pos + 4))

/-- `*pos = v`, for a position that `write_output` returned. -/
def setWord (pos : Nat) (v : UInt32) : Writer Unit := fun s =>
  some ((), { s with data := patch cfg.order pos v s.data })

/-- `write_completed`: the number of replies, at the start of the region. -/
def writeCompleted (completed : UInt32) : Writer Unit := setWord cfg 0 completed

/-- `completed++; write_completed(completed)`. -/
def countReply : Writer Unit := fun s =>
  writeCompleted cfg (s.completed + 1) { s with completed := s.completed + 1 }

namespace KcovComparison

/-- The cast of an operand in `kcov_comparison_t::write`: by way of the signed
type of the comparison's size. -/
def castOperand (type arg : UInt64) : UInt64 :=
  if type &&& kcovCmpSizeMask = kcovCmpSize1 then arg.toUInt8.toInt8.toInt64.toUInt64
  else if type &&& kcovCmpSizeMask = kcovCmpSize2 then arg.toUInt16.toInt16.toInt64.toUInt64
  else if type &&& kcovCmpSizeMask = kcovCmpSize4 then arg.toUInt32.toInt32.toInt64.toUInt64
  else arg

/-- `kcov_comparison_t::write`. -/
def write (c : KcovComparison) : Writer Unit :=
  if c.type > kcovCmpConst ||| kcovCmpSizeMask then failure
  else do
    let _ ← writeOutput cfg c.type.toUInt32
    let arg1 := castOperand c.type c.arg1
    let arg2 := castOperand c.type c.arg2
    if c.type &&& kcovCmpSizeMask = kcovCmpSize8 then
      writeOutput64 cfg arg1
      writeOutput64 cfg arg2
    else
      let _ ← writeOutput cfg arg1.toUInt32
      let _ ← writeOutput cfg arg2.toUInt32

/-- Addresses of the kernel's physical mapping. -/
def isKmem (arg : UInt64) : Bool := 0xffff880000000000 ≤ arg && arg ≤ 0xffff890000000000

/-- Addresses of the output region. -/
def isOutput (arg : UInt64) : Bool :=
  cfg.outputData ≤ arg && arg ≤ cfg.outputData + UInt64.ofNat cfg.outputSize

/-- `kcov_comparison_t::ignore`. -/
def ignore (c : KcovComparison) : Bool :=
  if c.arg1 = 0 ∧ (c.arg2 = 0 ∨ c.type &&& kcovCmpConst ≠ 0) then true
  else if c.type &&& kcovCmpSizeMask = kcovCmpSize8 ∧
      (isOutput cfg c.arg1 ∨ isOutput cfg c.arg2 ∨
        (isKmem c.arg1 ∧ isKmem c.arg2) ∨ (isKmem c.arg1 ∧ c.arg2 = 0) ∨
        (isKmem c.arg2 ∧ c.arg1 = 0)) then true
  else !cfg.coverageFilter c.pc

/-- `kcov_comparison_t::operator==`, which does not look at the PC. -/
def same (c d : KcovComparison) : Bool :=
  c.type = d.type && c.arg1 = d.arg1 && c.arg2 = d.arg2

/-- `std::unique`: of a stretch of equal comparisons the first one stays. -/
def unique : List KcovComparison → List KcovComparison
  | [] => []
  | [c] => [c]
  | c :: d :: rest => if c.same d then unique (c :: rest) else c :: unique (d :: rest)

end KcovComparison

/-- `hash` of the executor. -/
def hash (a : UInt32) : UInt32 :=
  let a : UInt32 := (a ^^^ (61 : UInt32)) ^^^ (a >>> 16)
  let a : UInt32 := a + (a <<< 3)
  let a : UInt32 := a ^^^ (a >>> 4)
  let a : UInt32 := a * 0x27d4eb2d
  a ^^^ (a >>> 15)

/-- The probes of `dedup`, from the `i`-th on. -/
def dedupFrom (sig : UInt32) (t : DedupTable) : List UInt32 → Bool × DedupTable
  | [] => (false, Function.update t (sig.toNat % dedupTableSize) sig)
  | i :: probes =>
    let pos := (sig + i).toNat % dedupTableSize
    if t pos = sig then (true, t)
    else if t pos = 0 then (false, Function.update t pos sig)
    else dedupFrom sig t probes

/-- `dedup`: has the signal been seen?  If not it is entered. -/
def dedup (sig : UInt32) (t : DedupTable) : Bool × DedupTable := dedupFrom sig t [0, 1, 2, 3]

/-- A recorded PC, in the kernel's word size. -/
def pcOf (pcOffset raw : UInt64) : UInt64 :=
  if cfg.isKernel64Bit then raw + pcOffset else (raw + pcOffset).toUInt32.toUInt64

/-- The signal of an edge: the page of the PC, and the rest of the PC hashed with
the previous one. -/
def signalOf (prevPc pc : UInt64) : UInt32 :=
  let sig := (pc &&& 0xFFFFF000).toUInt32
  if cfg.useCoverEdges pc then
    sig ||| ((pc &&& 0xFFF).toUInt32 ^^^ (hash (prevPc &&& 0xFFF).toUInt32 &&& 0xFFF))
  else sig

/-- The signal loop of `write_coverage_signal`; returns `nsig`. -/
def writeSignals (pcOffset : UInt64) : List UInt64 → UInt64 → Bool → UInt32 → Writer UInt32
  | [], _, _, nsig => pure nsig
  | raw :: rest, prevPc, prevFilter, nsig => fun s =>
    let pc := pcOf cfg pcOffset raw
    let sig := signalOf cfg prevPc pc
    let filter := cfg.coverageFilter pc
    if !filter && !prevFilter then writeSignals pcOffset rest pc filter nsig s
    else
      let seen := dedup sig s.dedupTable
      let s := { s with dedupTable := seen.2 }
      if seen.1 then writeSignals pcOffset rest pc filter nsig s
      else (writeOutput cfg sig >>= fun _ => writeSignals pcOffset rest pc filter (nsig + 1)) s

/-- The PCs that are reported as coverage: with `flag_dedup_cover` sorted and
without repetitions. -/
def coverPcs (cov : Cover) : List UInt64 :=
  if cfg.flagDedupCover then (cov.pcs.insertionSort (· ≤ ·)).destutter (· ≠ ·) else cov.pcs

/-- Consecutive words. -/
def writeWords : List UInt32 → Writer Unit
  | [] => pure ()
  | v :: rest => do
      let _ ← writeOutput cfg v
      writeWords rest

/-- The first half of `write_coverage_signal`: feedback signals. -/
def writeSignalPart (cov : Cover) (signalCountPos : Nat) : Writer Unit :=
  if cfg.flagCollectSignal then do
    let nsig ← writeSignals cfg cov.pcOffset cov.pcs 0 true 0
    setWord cfg signalCountPos nsig
  else pure ()

/-- The second half of `write_coverage_signal`: PCs, truncated to 32 bits. -/
def writeCoverPart (cov : Cover) (coverCountPos : Nat) : Writer Unit :=
  if cfg.flagCollectCover then do
    writeWords cfg ((coverPcs cfg cov).map fun pc => (pc + cov.pcOffset).toUInt32)
    setWord cfg coverCountPos (UInt32.ofNat (coverPcs cfg cov).length)
  else pure ()

/-- `write_coverage_signal`. -/
def writeCoverageSignal (cov : Cover) (signalCountPos coverCountPos : Nat) : Writer Unit := do
  writeSignalPart cfg cov signalCountPos
  writeCoverPart cfg cov coverCountPos

/-- The comparison loop of `write_call_output`; returns `comps_size`. -/
def writeComps : List KcovComparison → UInt32 → Writer UInt32
  | [], compsSize => pure compsSize
  | c :: rest, compsSize =>
    if c.ignore cfg then writeComps rest compsSize
    else do
      c.write cfg
      writeComps rest (compsSize + 1)

/-- The error number of a reply. -/
def replyErrno (th : CallResult) (finished : Bool) : UInt32 :=
  if finished then (if th.res ≠ -1 then 0 else th.reserrno) else 999

/-- The flags of a reply; `blocked` when the thread is not the last scheduled. -/
def callFlags (th : CallResult) (finished lastScheduled : Bool) : UInt32 :=
  let blocked := finished && !lastScheduled
  let flags := callFlagExecuted ||| (if blocked then callFlagBlocked else 0)
  if finished then
    flags ||| (callFlagFinished ||| (if th.faultInjected then callFlagFaultInjected else 0))
  else flags

/-- The payload of `write_call_output`: comparisons, or signals and coverage. -/
def writePayload (cov : Cover) (signalCountPos coverCountPos compsCountPos : Nat) :
    Writer Unit :=
  if cfg.flagComparisons then do
    let compsSize ← writeComps cfg (KcovComparison.unique (cfg.sortComps cov.comps)) 0
    setWord cfg compsCountPos compsSize
  else if cfg.flagCollectSignal || cfg.flagCollectCover then
    writeCoverageSignal cfg cov signalCountPos coverCountPos
  else pure ()

/-- `write_call_output`. -/
def writeCallOutput (th : CallResult) (finished lastScheduled : Bool) : Writer Unit := do
  let _ ← writeOutput cfg kOutMagic
  let _ ← writeOutput cfg (UInt32.ofNat th.callIndex)
  let _ ← writeOutput cfg (UInt32.ofNat th.callNum)
  let _ ← writeOutput cfg (replyErrno th finished)
  let _ ← writeOutput cfg (callFlags th finished lastScheduled)
  let signalCountPos ← writeOutput cfg 0
  let coverCountPos ← writeOutput cfg 0
  let compsCountPos ← writeOutput cfg 0
  writePayload cfg th.cov signalCountPos coverCountPos compsCountPos
  countReply cfg

/-- `cover_collection_required`. -/
def coverCollectionRequired : Bool :=
  cfg.flagCoverage && (cfg.flagCollectSignal || cfg.flagCollectCover || cfg.flagComparisons)

/-- `write_extra_output`, on the extra coverage collected. -/
def writeExtraOutput (extraCov : Cover) : Writer Unit :=
  if !coverCollectionRequired cfg || !cfg.flagExtraCoverage || cfg.flagComparisons then pure ()
  else if extraCov.pcs.length = 0 then pure ()
  else do
    let _ ← writeOutput cfg kOutMagic
    let _ ← writeOutput cfg 0xffffffff
    let _ ← writeOutput cfg 0xffffffff
    let _ ← writeOutput cfg 999
    let _ ← writeOutput cfg 0
    let signalCountPos ← writeOutput cfg 0
    let coverCountPos ← writeOutput cfg 0
    let _ ← writeOutput cfg 0
    writeCoverageSignal cfg extraCov signalCountPos coverCountPos
    countReply cfg

/-- What the executor reports, in the order it reports it. -/
inductive OutputEvent
  | call (th : CallResult) (finished lastScheduled : Bool)
  | extra (extraCov : Cover)

/-- The write of one event. -/
def OutputEvent.write : OutputEvent → Writer Unit
  | .call th finished lastScheduled => writeCallOutput cfg th finished lastScheduled
  | .extra extraCov => writeExtraOutput cfg extraCov

/-- The writes of a sequence of events. -/
def writeEvents : List OutputEvent → Writer Unit
  | [] => pure ()
  | e :: rest => do
      e.write cfg
      writeEvents rest

/-- The output of one program: the word with the number of replies, then the
replies. -/
def writeProgram (events : List OutputEvent) : Option Output :=
  let start : Output := { data := [], dedupTable := fun _ => 0, completed := 0 }
  ((writeOutput cfg 0 >>= fun _ => writeEvents cfg events) start).map Prod.snd

end Sect.Executor
