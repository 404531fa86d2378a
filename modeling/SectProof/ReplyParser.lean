import SectProof.ByteReaders

/-! # Parsing the executor's output

`parseOutput` of `pkg/ipc/ipc.go` turns the shared memory that the executor
filled into a `ProgInfo`: one `CallInfo` per call of the program and one for
the extra coverage.  Every read checks the bytes that are left and reports an
error when there are too few.
-/

namespace Sect.Ipc

def outMagic : UInt32 := 0xbadf00d
def extraReplyIndex : UInt32 := 0xffffffff
def compSizeMask : UInt32 := 6
def compSize8 : UInt32 := 6
def compConstMask : UInt32 := 1

/-- `CallExecuted` of `CallFlags`. -/
def callExecuted : UInt32 := 1

/-- `prog.CompMap`: which values each operand was compared with, as the set of
(operand, value) pairs. -/
abbrev CompMap := Finset (UInt64 × UInt64)

/-- `AddComp`. -/
def CompMap.addComp (m : CompMap) (arg1 arg2 : UInt64) : CompMap := insert (arg1, arg2) m

/-- What is known of one call after the execution. -/
structure CallInfo where
  flags : UInt32
  signal : List UInt32
  cover : List UInt32
  comps : CompMap
  errno : Nat
  deriving DecidableEq

/-- The zero value: nothing was reported. -/
def CallInfo.zero : CallInfo := ⟨0, [], [], ∅, 0⟩

structure ProgInfo where
  calls : List CallInfo
  extra : CallInfo
  deriving DecidableEq

/-- The errors of `parseOutput` and `readComps`, with the values they print. -/
inductive ParseError
  | numberOfCalls
  | shortReply (i : Nat)
  | badMagic (magic : UInt32)
  | badIndex (i : Nat) (index : UInt32) (calls : Nat)
  | wrongNum (i : Nat) (num : UInt32) (id : Nat)
  | duplicateReply (i : Nat) (index num : UInt32)
  | signalOverflow (i : Nat) (index num size : UInt32) (left : Nat)
  | coverOverflow (i : Nat) (index num size : UInt32) (left : Nat)
  | shortComp (i : Nat)
  | badCompType (i : Nat) (typ : UInt32)
  | shortCompOp (i : Nat)
  deriving DecidableEq

/-- The text of an error. -/
def ParseError.message : ParseError → String
  | .numberOfCalls => "failed to read number of calls"
  | .shortReply i => s!"failed to read call {i} reply"
  | .badMagic magic => "bad reply magic 0x" ++ String.ofList (Nat.toDigits 16 magic.toNat)
  | .badIndex i index calls => s!"bad call {i} index {index}/{calls}"
  | .wrongNum i num id => s!"wrong call {i} num {num}/{id}"
  | .duplicateReply i index num => s!"duplicate reply for call {i}/{index}/{num}"
  | .signalOverflow i index num size left =>
    s!"call {i}/{index}/{num}: signal overflow: {size}/{left}"
  | .coverOverflow i index num size left =>
    s!"call {i}/{index}/{num}: cover overflow: {size}/{left}"
  | .shortComp i => s!"failed to read comp {i}"
  | .badCompType i typ => s!"bad comp {i} type {typ}"
  | .shortCompOp i => s!"failed to read comp {i} op"

/-- `callReply`. -/
structure CallReply where
  magic : UInt32
  index : UInt32
  num : UInt32
  errno : UInt32
  flags : UInt32
  signalSize : UInt32
  coverSize : UInt32
  compsSize : UInt32
  deriving DecidableEq

/-- The size of a `callReply` in memory. -/
def callReplySize : Nat := 32

variable (o : ByteOrder)

/-- The words stored at the start of the bytes. -/
def wordsAt : Nat → List UInt8 → List UInt32
  | 0, _ => []
  | n + 1, bs => UInt32.ofNat (o.load (bs.take 4)) :: wordsAt n (bs.drop 4)

/-- `readUint32`; the caller reports `err` when it fails. -/
def readUint32 (err : ParseError) : Reader ParseError UInt32 := do
  let bs ← Reader.bytes 4 fun _ => err
  return UInt32.ofNat (o.load bs)

/-- `readUint64`. -/
def readUint64 (err : ParseError) : Reader ParseError UInt64 := do
  let bs ← Reader.bytes 8 fun _ => err
  return UInt64.ofNat (o.load bs)

/-- `readUint32Array`; the error may print the number of bytes left. -/
def readUint32Array (size : UInt32) (err : Nat → ParseError) : Reader ParseError (List UInt32) :=
  if size = 0 then return []
  else do
    let bs ← Reader.bytes (size.toNat * 4) fun out => err out.length
    return wordsAt o size.toNat bs

/-- What one comparison adds to the map. -/
def addOperands (typ : UInt32) (op1 op2 : UInt64) (compMap : CompMap) : CompMap :=
  if op1 = op2 then compMap
  else
    let compMap := compMap.addComp op2 op1
    if typ &&& compConstMask ≠ 0 then compMap else compMap.addComp op1 op2

/-- The body of the loop of `readComps`. -/
def readComp (i : Nat) (compMap : CompMap) : Reader ParseError CompMap := do
  let typ ← readUint32 o (.shortComp i)
  if typ > compConstMask ||| compSizeMask then throw (.badCompType i typ)
  if typ &&& compSizeMask = compSize8 then
    let op1 ← readUint64 o (.shortCompOp i)
    let op2 ← readUint64 o (.shortCompOp i)
    return addOperands typ op1 op2 compMap
  else
    let tmp1 ← readUint32 o (.shortCompOp i)
    let tmp2 ← readUint32 o (.shortCompOp i)
    return addOperands typ tmp1.toUInt64 tmp2.toUInt64 compMap

/-- The loop of `readComps` with `n` comparisons to go, the next one the `i`-th. -/
def readCompsFrom (i : Nat) : Nat → CompMap → Reader ParseError CompMap
  | 0, compMap => return compMap
  | n + 1, compMap => do
      let compMap ← readComp o i compMap
      readCompsFrom (i + 1) n compMap

/-- `readComps`. -/
def readComps (compsSize : UInt32) : Reader ParseError CompMap :=
  readCompsFrom o 0 compsSize.toNat ∅

/-- The `callReply` at the start of the bytes. -/
def readReply (i : Nat) : Reader ParseError CallReply := do
  let bs ← Reader.bytes callReplySize fun _ => .shortReply i
  let word (k : Nat) : UInt32 := UInt32.ofNat (o.load ((bs.drop (4 * k)).take 4))
  return ⟨word 0, word 1, word 2, word 3, word 4, word 5, word 6, word 7⟩

/-- The two results of the loop of `parseOutput`. -/
structure Parsed where
  calls : List CallInfo
  extraParts : List CallInfo

/-- The checks on the header of a reply, and the `CallInfo` it fills. -/
def replyTarget (ids : List Nat) (calls : List CallInfo) (i : Nat) (reply : CallReply) :
    Reader ParseError CallInfo := do
  if reply.magic ≠ outMagic then throw (.badMagic reply.magic)
  if reply.index ≠ extraReplyIndex then
    match ids[reply.index.toNat]?, calls[reply.index.toNat]? with
    | some id, some inf =>
      if reply.num.toNat ≠ id then throw (.wrongNum i reply.num id)
      if inf.flags ≠ 0 ∨ inf.signal ≠ [] then
        throw (.duplicateReply i reply.index reply.num)
      return { inf with errno := reply.errno.toNat, flags := reply.flags }
    | _, _ => throw (.badIndex i reply.index calls.length)
  else return .zero

/-- The signal, coverage and comparisons that follow a header. -/
def readPayload (i : Nat) (reply : CallReply) (inf : CallInfo) : Reader ParseError CallInfo := do
  let signal ← readUint32Array o reply.signalSize
    (.signalOverflow i reply.index reply.num reply.signalSize)
  let cover ← readUint32Array o reply.coverSize
    (.coverOverflow i reply.index reply.num reply.coverSize)
  let comps ← readComps o reply.compsSize
  return { inf with signal := signal, cover := cover, comps := comps }

/-- The body of the loop of `parseOutput`. -/
def parseReply (ids : List Nat) (i : Nat) (acc : Parsed) : Reader ParseError Parsed := do
  let reply ← readReply o i
  let inf ← replyTarget ids acc.calls i reply
  let inf ← readPayload o i reply inf
  if reply.index ≠ extraReplyIndex then
    return { acc with calls := acc.calls.set reply.index.toNat inf }
  else return { acc with extraParts := acc.extraParts ++ [inf] }

/-- The loop of `parseOutput` with `n` replies to go, the next one the `i`-th. -/
def parseReplies (ids : List Nat) (i : Nat) : Nat → Parsed → Reader ParseError Parsed
  | 0, acc => return acc
  | n + 1, acc => do
      let acc ← parseReply o ids i acc
      parseReplies ids (i + 1) n acc

/-- The order in which a range over a Go map visits a set of keys: each key once,
otherwise unspecified. -/
structure RangeOrder where
  visit : Finset UInt32 → List UInt32
  nodup : ∀ s, (visit s).Nodup
  mem_visit : ∀ s v, v ∈ visit s ↔ v ∈ s

/-- `convertExtra`. -/
def convertExtra (coverOrder signalOrder : RangeOrder) (extraParts : List CallInfo)
    (dedupCover : Bool) : CallInfo :=
  let cover :=
    if dedupCover then
      coverOrder.visit (extraParts.foldl (fun c part => c ∪ part.cover.toFinset) ∅)
    else extraParts.foldl (fun c part => c ++ part.cover) []
  let signal := signalOrder.visit (extraParts.foldl (fun s part => s ∪ part.signal.toFinset) ∅)
  { CallInfo.zero with cover := cover, signal := signal }

/-- The reads of `parseOutput`, up to the conversion of the extra replies. -/
def readOutput (ids : List Nat) : Reader ParseError Parsed := do
  let ncmd ← readUint32 o .numberOfCalls
  parseReplies o ids 0 ncmd.toNat ⟨List.replicate ids.length .zero, []⟩

/-- `parseOutput`, for a program whose calls have the given ids. -/
def parseOutput (coverOrder signalOrder : RangeOrder) (dedupCover : Bool) (ids : List Nat)
    (out : List UInt8) : Except ParseError ProgInfo := do
  let (acc, _) ← readOutput o ids out
  if acc.extraParts.length = 0 then return ⟨acc.calls, .zero⟩
  else return ⟨acc.calls, convertExtra coverOrder signalOrder acc.extraParts dedupCover⟩

end Sect.Ipc
