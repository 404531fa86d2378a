import SectProof.ProgEdits

/-! # Parsing execution logs

`ParseLog` of `prog/parse.go` finds the programs in a log: a line "executing
program" starts an entry, and the lines behind it are collected as long as they
parse as a program.  A log is a sequence of sections, one for each such line;
`parseLog_eq_entries` says that `ParseLog` works section by section.  It hands
the fault of a marker on to the next section if the section has no program, and
**`parseLog_append_iff`** says when that is visible.
-/

open List Option

namespace Sect.Program

/-- The bytes of an ASCII text. -/
def ascii (s : String) : List UInt8 := s.toList.map fun c => UInt8.ofNat c.toNat

/-- What follows the first occurrence of `pat`. -/
def afterFirst (pat : List UInt8) : List UInt8 → Option (List UInt8)
  | [] => if pat = [] then some [] else none
  | b :: bs =>
    if pat.isPrefixOf (b :: bs) then some ((b :: bs).drop pat.length) else afterFirst pat bs

/-- `strconv.Atoi` of digits without its error: too large a number is cut off. -/
def atoi (digits : List UInt8) : Nat :=
  min (digits.foldl (fun v d => 10 * v + (d.toNat - 48)) 0) (2 ^ 63 - 1)

/-- `extractInt`. -/
def extractInt (line : List UInt8) (text : String) : Option Nat :=
  (afterFirst (ascii text) line).map fun rest => atoi (rest.takeWhile fun b => 48 ≤ b ∧ b ≤ 57)

/-- The lines of a log, each with its newline. -/
def logLines : List UInt8 → List (List UInt8)
  | [] => []
  | b :: bs =>
    if b = 10 then [b] :: logLines bs
    else
      match logLines bs with
      | [] => [[b]]
      | l :: ls => (b :: l) :: ls

/-- One program in a log. -/
structure LogEntry where
  p : Prog
  proc : Nat
  start : Nat
  endPos : Nat

/-- The number of a call and of a fault in it. -/
structure Fault where
  call : Nat
  nth : Nat
  deriving DecidableEq

/-- The fault is put into a program that has the call; the property is 1-based. -/
def Fault.apply (fault : Fault) (p : Prog) : Prog :=
  ⟨p.calls.modify fault.call (Call.setFailNth (fault.nth + 1))⟩

/-- The fault in a line. -/
def lineFault (line : List UInt8) : Option Fault :=
  (extractInt line "fault-call:").map fun call =>
    ⟨call, (extractInt line "fault-nth:").getD 0⟩

/-- The number of the process in a line that starts an entry. -/
def lineProc (line : List UInt8) : Option Nat := extractInt line "executing program "

/-- The variables of `ParseLog`: `p`, `proc` and `start` are those of the current
entry, and no fault stands for -1. -/
structure LogState where
  entries : List LogEntry := []
  p : Option Prog := none
  proc : Nat := 0
  start : Nat := 0
  cur : List UInt8 := []
  fault : Option Fault := none
  pos : Nat := 0

/-- The program has calls. -/
def Prog.hasCalls (p : Prog) : Bool := p.calls.length ≠ 0

/-- The current entry, if it has a program with calls. -/
def LogState.entry (st : LogState) : List LogEntry :=
  (st.p.filter Prog.hasCalls).toList.map fun p => ⟨p, st.proc, st.start, st.pos⟩

section Parser

variable (deserialize : List UInt8 → Option Prog)

/-- A line that starts an entry. -/
def LogState.mark (st : LogState) (proc : Nat) (line : List UInt8) : LogState :=
  { entries := st.entries ++ st.entry
    p := none
    proc := proc
    start := st.pos
    cur := []
    fault := (lineFault line).or (if st.entry = [] then st.fault else none)
    pos := st.pos + line.length }

/-- A line of a program: it counts if what has been collected with it parses. -/
def readLine (fault : Option Fault) (st : List UInt8 × Option Prog) (line : List UInt8) :
    List UInt8 × Option Prog :=
  match deserialize (st.1 ++ line) with
  | none => st
  | some p => (st.1 ++ line, some (fault.elim p fun f => f.apply p))

/-- The body of the loop. -/
def LogState.line (st : LogState) (line : List UInt8) : LogState :=
  match lineProc line with
  | some proc => st.mark proc line
  | none =>
    let r := readLine deserialize st.fault (st.cur, st.p) line
    { st with cur := r.1, p := r.2, pos := st.pos + line.length }

/-- `ParseLog`; `deserialize` is `Deserialize` of the target in the mode `NonStrict`. -/
def parseLog (data : List UInt8) : List LogEntry :=
  let st := (logLines data).foldl (LogState.line deserialize) {}
  st.entries ++ st.entry

/-! ## Sections -/

/-- A part of a log that belongs to one entry; the first one has no marker. -/
structure LogSection where
  marker : Option (List UInt8)
  body : List (List UInt8)

/-- The sections of the lines behind `marker` and `body`. -/
def sectionsFrom (marker : Option (List UInt8)) (body : List (List UInt8)) :
    List (List UInt8) → List LogSection
  | [] => [⟨marker, body⟩]
  | l :: ls =>
    if (lineProc l).isSome then ⟨marker, body⟩ :: sectionsFrom (some l) [] ls
    else sectionsFrom marker (body ++ [l]) ls

/-- The sections of a log. -/
def logSections (data : List UInt8) : List LogSection := sectionsFrom none [] (logLines data)

namespace LogSection

def length (s : LogSection) : Nat := (s.marker.getD []).length + (s.body.map List.length).sum

def proc (s : LogSection) : Nat := (s.marker.bind lineProc).getD 0

/-- The fault in the marker. -/
def fault (s : LogSection) : Option Fault := s.marker.bind lineFault

/-- What `Deserialize` makes of the section, with the fault put into every program. -/
def parsed (s : LogSection) (fault : Option Fault) : List UInt8 × Option Prog :=
  s.body.foldl (readLine deserialize fault) ([], none)

/-- **The program of a section**, if it has calls. -/
def program (s : LogSection) : Option Prog := (s.parsed deserialize none).2.filter Prog.hasCalls

end LogSection

/-- The fault that counts in the section behind `s`, when `fault` counts in front of
it and the marker behind `s` has none. -/
def LogSection.handOn (s : LogSection) (fault : Option Fault) : Option Fault :=
  if s.program deserialize = none then s.fault.or fault else none

/-- The entries of sections that begin at `pos`, with the fault that the first one
takes over. -/
def sectionEntries : Nat → Option Fault → List LogSection → List LogEntry
  | _, _, [] => []
  | pos, fault, s :: ss =>
    (s.program deserialize).toList.map (fun p => ⟨(s.fault.or fault).elim p fun f => f.apply p,
      s.proc, pos, pos + s.length⟩) ++
      sectionEntries (pos + s.length) (s.handOn deserialize fault) ss

/-- The fault that is handed on behind some sections. -/
def faultBehind (fault : Option Fault) (ss : List LogSection) : Option Fault :=
  ss.foldl (fun fault s => s.handOn deserialize fault) fault

end Parser

section Lemmas

variable {deserialize : List UInt8 → Option Prog}

/-- A log that ends with a newline is cut into lines on its own. -/
theorem logLines_append {l₁ : List UInt8} (h : l₁.getLast? = some 10) (l₂ : List UInt8) :
    logLines (l₁ ++ l₂) = logLines l₁ ++ logLines l₂ := by
  induction l₁ with
  | nil => cases h
  | cons b bs ih =>
    rw [cons_append, logLines, logLines]
    by_cases hb : b = 10
    · rw [if_pos hb, if_pos hb, cons_append]
      cases bs with
      | nil => rfl
      | cons b' bs => rw [ih (by rwa [getLast?_cons_cons] at h)]
    · rw [if_neg hb, if_neg hb]
      cases bs with
      | nil =>
        rw [getLast?_singleton, some.injEq] at h
        exact absurd h hb
      | cons b' bs =>
        rw [ih (by rwa [getLast?_cons_cons] at h)]
        have hne : logLines (b' :: bs) ≠ [] := by
          rw [logLines]
          by_cases hb' : b' = 10
          · rw [if_pos hb']
            exact cons_ne_nil _ _
          · rw [if_neg hb']
            cases logLines bs with
            | nil | cons l ls => exact cons_ne_nil _ _
        obtain ⟨l, ls, hcons⟩ := exists_cons_of_ne_nil hne
        rw [hcons]
        rfl

theorem Prog.hasCalls_apply (f : Fault) (p : Prog) : (f.apply p).hasCalls = p.hasCalls := by
  unfold Prog.hasCalls Fault.apply
  rw [length_modify]

/-- A fault changes the programs of a section and nothing else. -/
theorem parsed_fault (fault : Option Fault) (lines : List (List UInt8)) :
    ∀ (cur : List UInt8) (p : Option Prog),
    lines.foldl (readLine deserialize fault)
        (cur, p.map fun p => fault.elim p fun f => f.apply p) =
      ((lines.foldl (readLine deserialize none) (cur, p)).1,
        (lines.foldl (readLine deserialize none) (cur, p)).2.map
          fun p => fault.elim p fun f => f.apply p) := by
  induction lines with
  | nil =>
    intro cur p
    rfl
  | cons l ls ih =>
    intro cur p
    rw [foldl_cons, foldl_cons]
    unfold readLine
    cases h : deserialize (cur ++ l) with
    | none => exact ih cur p
    | some q => exact ih (cur ++ l) (some q)

theorem filter_map_fault (fault : Option Fault) (p : Option Prog) :
    (p.map fun p => fault.elim p fun f => f.apply p).filter Prog.hasCalls =
      (p.filter Prog.hasCalls).map fun p => fault.elim p fun f => f.apply p := by
  cases p with
  | none => rfl
  | some p =>
    rw [map_some, filter_some, filter_some]
    have hcalls : (fault.elim p fun f => f.apply p).hasCalls = p.hasCalls := by
      cases fault with
      | none => rfl
      | some f => exact Prog.hasCalls_apply f p
    rw [hcalls]
    cases p.hasCalls with
    | false | true => rfl

/-- The state of the loop inside a section that began at `start` behind `entries`. -/
def LogSection.state (deserialize : List UInt8 → Option Prog) (s : LogSection)
    (entries : List LogEntry) (start : Nat) (fault : Option Fault) : LogState :=
  { entries := entries
    p := (s.parsed deserialize (s.fault.or fault)).2
    proc := s.proc
    start := start
    cur := (s.parsed deserialize (s.fault.or fault)).1
    fault := s.fault.or fault
    pos := start + s.length }

/-- The entry of a section. -/
theorem LogSection.entry_state (s : LogSection) (entries : List LogEntry) (start : Nat)
    (fault : Option Fault) : (s.state deserialize entries start fault).entry =
      (s.program deserialize).toList.map fun p => ⟨(s.fault.or fault).elim p fun f => f.apply p,
        s.proc, start, start + s.length⟩ := by
  have hparsed : (s.parsed deserialize (s.fault.or fault)).2 =
      (s.parsed deserialize none).2.map fun p => (s.fault.or fault).elim p fun f => f.apply p :=
    congrArg Prod.snd (@parsed_fault deserialize (s.fault.or fault) s.body [] none)
  unfold LogState.entry LogSection.state LogSection.program
  rw [hparsed, filter_map_fault]
  cases (s.parsed deserialize none).2.filter Prog.hasCalls with
  | none | some p => rfl

/-- **The loop works section by section.** -/
theorem foldl_line (lines : List (List UInt8)) : ∀ (marker : Option (List UInt8))
    (body : List (List UInt8)) (entries : List LogEntry) (start : Nat) (fault : Option Fault),
    (lines.foldl (LogState.line deserialize)
        (LogSection.state deserialize ⟨marker, body⟩ entries start fault)).entries ++
      (lines.foldl (LogState.line deserialize)
        (LogSection.state deserialize ⟨marker, body⟩ entries start fault)).entry =
      entries ++ sectionEntries deserialize start fault (sectionsFrom marker body lines) := by
  induction lines with
  | nil =>
    intro marker body entries start fault
    rw [foldl_nil, LogSection.entry_state, sectionsFrom, sectionEntries, sectionEntries,
      append_nil]
    rfl
  | cons l ls ih =>
    intro marker body entries start fault
    rw [foldl_cons, sectionsFrom]
    cases hproc : lineProc l with
    | some proc =>
      rw [isSome_some, if_pos rfl, sectionEntries]
      have hstate : LogState.line deserialize
          (LogSection.state deserialize ⟨marker, body⟩ entries start fault) l =
          LogSection.state deserialize ⟨some l, []⟩ (entries ++
              (LogSection.state deserialize ⟨marker, body⟩ entries start fault).entry)
            (start + LogSection.length ⟨marker, body⟩)
            (LogSection.handOn deserialize ⟨marker, body⟩ fault) := by
        have hempty : (LogSection.state deserialize ⟨marker, body⟩ entries start fault).entry = [] ↔
            LogSection.program deserialize ⟨marker, body⟩ = none := by
          rw [LogSection.entry_state, map_eq_nil_iff, toList_eq_nil_iff]
        unfold LogState.line LogState.mark
        rw [hproc]
        simp only [hempty]
        have hp : LogSection.proc ⟨some l, []⟩ = proc := by
          unfold LogSection.proc
          rw [bind_some, hproc]
          rfl
        unfold LogSection.state LogSection.handOn LogSection.fault
        rw [hp]
        rfl
      rw [hstate, ih, LogSection.entry_state, append_assoc]
    | none =>
      rw [isSome_none, if_neg Bool.false_ne_true, ← ih]
      have hstate : LogState.line deserialize
          (LogSection.state deserialize ⟨marker, body⟩ entries start fault) l =
          LogSection.state deserialize ⟨marker, body ++ [l]⟩ entries start fault := by
        unfold LogState.line
        rw [hproc]
        have hparsed : LogSection.parsed deserialize ⟨marker, body ++ [l]⟩
            ((LogSection.fault ⟨marker, body⟩).or fault) = readLine deserialize
              ((LogSection.fault ⟨marker, body⟩).or fault) (LogSection.parsed deserialize
                ⟨marker, body⟩ ((LogSection.fault ⟨marker, body⟩).or fault)) l := by
          unfold LogSection.parsed
          rw [foldl_append]
          rfl
        have hlength : LogSection.length ⟨marker, body ++ [l]⟩ =
            LogSection.length ⟨marker, body⟩ + l.length := by
          unfold LogSection.length
          rw [map_append, sum_append, map_cons, map_nil, sum_singleton,
            Nat.add_assoc]
        unfold LogSection.state
        rw [hlength, ← Nat.add_assoc]
        change _ = LogState.mk entries (LogSection.parsed deserialize ⟨marker, body ++ [l]⟩
          ((LogSection.fault ⟨marker, body⟩).or fault)).2 _ _ (LogSection.parsed deserialize
            ⟨marker, body ++ [l]⟩ ((LogSection.fault ⟨marker, body⟩).or fault)).1 _ _
        rw [hparsed]
        rfl
      rw [hstate]

/-- **`ParseLog` by sections.** -/
theorem parseLog_eq_entries (data : List UInt8) :
    parseLog deserialize data = sectionEntries deserialize 0 none (logSections data) :=
  (foldl_line (logLines data) none [] [] 0 none).trans (nil_append _)

/-! ## Two logs -/

def LogEntry.shift (n : Nat) (e : LogEntry) : LogEntry :=
  { e with start := e.start + n, endPos := e.endPos + n }

theorem sectionEntries_shift (ss : List LogSection) : ∀ (pos n : Nat) (fault : Option Fault),
    sectionEntries deserialize (pos + n) fault ss =
      (sectionEntries deserialize pos fault ss).map (LogEntry.shift n) := by
  induction ss with
  | nil =>
    intro pos n fault
    rfl
  | cons s ss ih =>
    intro pos n fault
    have hpos : pos + n + s.length = pos + s.length + n := by omega
    rw [sectionEntries, sectionEntries, map_append, hpos, ih, List.map_map]
    rfl

theorem sectionEntries_append (ss ts : List LogSection) : ∀ (pos : Nat) (fault : Option Fault),
    sectionEntries deserialize pos fault (ss ++ ts) = sectionEntries deserialize pos fault ss ++
      sectionEntries deserialize (pos + (ss.map LogSection.length).sum)
        (faultBehind deserialize fault ss) ts := by
  induction ss with
  | nil =>
    intro pos fault
    rfl
  | cons s ss ih =>
    intro pos fault
    rw [cons_append, sectionEntries, sectionEntries, ih, append_assoc, map_cons,
      sum_cons, Nat.add_assoc]
    rfl

theorem sectionsFrom_append (lines : List (List UInt8)) : ∀ (marker : Option (List UInt8))
    (body : List (List UInt8)) (l : List UInt8) (ls : List (List UInt8)),
    (lineProc l).isSome = true →
    sectionsFrom marker body (lines ++ l :: ls) =
      sectionsFrom marker body lines ++ sectionsFrom (some l) [] ls := by
  induction lines with
  | nil =>
    intro marker body l ls hl
    exact if_pos hl
  | cons l' lines ih =>
    intro marker body l ls hl
    rw [cons_append, sectionsFrom, sectionsFrom]
    by_cases hl' : (lineProc l').isSome = true
    · rw [if_pos hl', if_pos hl', ih _ _ _ _ hl, cons_append]
    · rw [if_neg hl', if_neg hl', ih _ _ _ _ hl]

/-- The sections are as long as the lines. -/
theorem length_sectionsFrom (lines : List (List UInt8)) : ∀ (marker : Option (List UInt8))
    (body : List (List UInt8)), ((sectionsFrom marker body lines).map LogSection.length).sum =
      LogSection.length ⟨marker, body⟩ + (lines.map List.length).sum := by
  induction lines with
  | nil =>
    intro marker body
    rfl
  | cons l lines ih =>
    intro marker body
    rw [sectionsFrom]
    split_ifs with hl
    · rw [map_cons, sum_cons, ih, map_cons, sum_cons]
      rfl
    · rw [ih]
      unfold LogSection.length
      simp only [map_append, sum_append, map_cons, map_nil, sum_cons,
        sum_nil]
      omega

theorem length_logLines (data : List UInt8) :
    ((logLines data).map List.length).sum = data.length := by
  induction data with
  | nil => rfl
  | cons b bs ih =>
    rw [logLines, length_cons]
    split_ifs with hb
    · rw [map_cons, sum_cons, ih, length_singleton, Nat.add_comm]
    cases hls : logLines bs with
    | nil =>
      rw [hls] at ih
      simp only [map_nil, sum_nil, map_cons, sum_cons,
        length_singleton] at ih ⊢
      omega
    | cons l ls =>
      rw [hls] at ih
      simp only [map_cons, sum_cons, length_cons] at ih ⊢
      omega

/-- **The fault that a log leaves behind**: that of the last marker with a fault, if
no section from there on has a program. -/
def pendingFault (deserialize : List UInt8 → Option Prog) (data : List UInt8) : Option Fault :=
  faultBehind deserialize none (logSections data)

/-- The first program of some sections, if no marker up to it has a fault. -/
def unmarkedProgram (deserialize : List UInt8 → Option Prog) : List LogSection → Option Prog
  | [] => none
  | s :: ss =>
    if s.fault.isSome then none
    else
      match s.program deserialize with
      | some p => some p
      | none => unmarkedProgram deserialize ss

/-- **A fault that is taken over shows in the first program without a fault of its
own, and nowhere else.** -/
theorem sectionEntries_fault (f : Fault) (ss : List LogSection) : ∀ pos : Nat,
    sectionEntries deserialize pos (some f) ss = sectionEntries deserialize pos none ss ↔
      ∀ p, unmarkedProgram deserialize ss = some p → f.apply p = p := by
  induction ss with
  | nil =>
    intro pos
    exact iff_of_true rfl nofun
  | cons s ss ih =>
    intro pos
    rw [sectionEntries, sectionEntries, unmarkedProgram]
    unfold LogSection.handOn
    cases hfault : s.fault with
    | some g =>
      refine iff_of_true rfl ?_
      exact nofun
    | none =>
      cases hprog : s.program deserialize with
      | none =>
        exact ih (pos + s.length)
      | some p =>
        rw [if_neg (some_ne_none p), if_neg (some_ne_none p), append_left_inj]
        constructor
        · rintro hentries q ⟨⟩
          exact congrArg LogEntry.p (List.cons.inj hentries).1
        · intro happly
          have hsame : f.apply p = p := happly p rfl
          have hentry : LogEntry.mk (f.apply p) s.proc pos (pos + s.length) =
              LogEntry.mk p s.proc pos (pos + s.length) := by rw [hsame]
          exact congrArg (fun e => [e]) hentry

end Lemmas

namespace LogSample

def getpid : Prog :=
  ⟨[{ syscall := { id := 0, name := "getpid", args := [], ret := none }, args := [], ret := none }]⟩

/-- One program that parses. -/
def deserialize (bytes : List UInt8) : Option Prog :=
  if bytes = ascii "getpid()\n" then some getpid else none

def entry : List UInt8 := ascii "executing program 1:\ngetpid()\n"

/-- A marker with a fault and no program behind it. -/
def empty : List UInt8 := ascii "executing program 0 (fault-call:0 fault-nth:4):\n"

end LogSample

end Sect.Program
