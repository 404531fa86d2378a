import SectProof.OutputStream

/-! # What the output region holds

The writer patches three counts of a reply after its payload, and the number of
replies after every one of them.  This module reads the patches off: when the
writes of a program succeed, the region holds the number of replies followed by
the replies, each with its final counts (`writeProgram_holds`).  The list of
replies is a function of the reported events alone.
-/

open List

namespace Sect.Executor

/-- A finished reply. -/
structure Reply where
  index : UInt32
  num : UInt32
  errno : UInt32
  flags : UInt32
  signal : List UInt32
  cover : List UInt32
  comps : List KcovComparison
  deriving DecidableEq

/-- Consecutive words in memory. -/
def wordBytes (o : ByteOrder) (ws : List UInt32) : List UInt8 :=
  ws.flatMap fun w => o.store 4 w.toNat

/-- The bytes of one comparison. -/
def KcovComparison.bytes (o : ByteOrder) (c : KcovComparison) : List UInt8 :=
  let arg1 := castOperand c.type c.arg1
  let arg2 := castOperand c.type c.arg2
  o.store 4 c.type.toUInt32.toNat ++
    if c.type &&& kcovCmpSizeMask = kcovCmpSize8 then
      o.store 8 arg1.toNat ++ o.store 8 arg2.toNat
    else o.store 4 arg1.toUInt32.toNat ++ o.store 4 arg2.toUInt32.toNat

/-- The words in front of the payload. -/
def Reply.header (r : Reply) : List UInt32 :=
  [kOutMagic, r.index, r.num, r.errno, r.flags, UInt32.ofNat r.signal.length,
    UInt32.ofNat r.cover.length, UInt32.ofNat r.comps.length]

/-- The bytes of a reply. -/
def Reply.bytes (o : ByteOrder) (r : Reply) : List UInt8 :=
  wordBytes o r.header ++ (wordBytes o r.signal ++ (wordBytes o r.cover ++
    r.comps.flatMap (KcovComparison.bytes o)))

section Bytes
variable (o : ByteOrder)

@[simp] theorem wordBytes_nil : wordBytes o [] = [] := rfl

@[simp] theorem wordBytes_cons (w : UInt32) (ws : List UInt32) :
    wordBytes o (w :: ws) = o.store 4 w.toNat ++ wordBytes o ws := rfl

theorem wordBytes_append (vs ws : List UInt32) :
    wordBytes o (vs ++ ws) = wordBytes o vs ++ wordBytes o ws :=
  flatMap_append

@[simp] theorem length_wordBytes (ws : List UInt32) :
    (wordBytes o ws).length = 4 * ws.length := by
  induction ws with
  | nil => rfl
  | cons w ws ih => simp [ih]; omega

theorem KcovComparison.four_le_length_bytes (c : KcovComparison) : 4 ≤ (c.bytes o).length := by
  simp [KcovComparison.bytes]

theorem four_mul_le_length_comps (cs : List KcovComparison) :
    4 * cs.length ≤ (cs.flatMap (KcovComparison.bytes o)).length := by
  induction cs with
  | nil => simp
  | cons c cs ih =>
    have hc := c.four_le_length_bytes o
    simp only [flatMap_cons, length_append, length_cons]
    omega

/-- The counts of a reply are bounded by its bytes. -/
theorem Reply.counts_le_length (r : Reply) :
    32 + 4 * r.signal.length + 4 * r.cover.length + 4 * r.comps.length ≤ (r.bytes o).length := by
  have hcomps := four_mul_le_length_comps o r.comps
  simp only [Reply.bytes, Reply.header, length_append, length_wordBytes, length_cons,
    length_nil]
  omega

/-- Overwriting the word that stands at the position. -/
theorem patch_word (A B : List UInt8) (w v : UInt32) :
    patch o A.length v (A ++ (o.store 4 w.toNat ++ B)) = A ++ (o.store 4 v.toNat ++ B) := by
  have hdrop : (A ++ (o.store 4 w.toNat ++ B)).drop (A.length + 4) = B := by
    rw [← drop_drop, drop_left]
    exact drop_left' (o.length_store 4 _)
  unfold patch
  rw [take_left, hdrop]

/-- The same, for a word in a list of words. -/
theorem patch_words (A B : List UInt8) (vs ws : List UInt32) (w v : UInt32) :
    patch o (A.length + 4 * vs.length) v (A ++ (wordBytes o (vs ++ w :: ws) ++ B)) =
      A ++ (wordBytes o (vs ++ v :: ws) ++ B) := by
  have hlen : A.length + 4 * vs.length = (A ++ wordBytes o vs).length := by simp
  have hsplit : ∀ u : UInt32, A ++ (wordBytes o (vs ++ u :: ws) ++ B) =
      (A ++ wordBytes o vs) ++ (o.store 4 u.toNat ++ (wordBytes o ws ++ B)) := by
    intro u
    rw [wordBytes_append, wordBytes_cons]
    simp
  rw [hsplit, hsplit, hlen, patch_word]

end Bytes

section Writers
variable {cfg : Config} {s s' : Output}

/-- The state after appending bytes and replacing the deduplication table. -/
def Output.append (s : Output) (bs : List UInt8) (t : DedupTable) : Output :=
  { s with data := s.data ++ bs, dedupTable := t }

theorem Output.append_append (bs cs : List UInt8) (t u : DedupTable) :
    (s.append bs t).append cs u = s.append (bs ++ cs) u := by
  simp [Output.append]

variable {α : Type} {pos : Nat} {v n : UInt32}

theorem bind_some {β : Type} {w : Writer α} {f : α → Writer β} {r : β × Output}
    (h : (w >>= f) s = some r) : ∃ a u, w s = some (a, u) ∧ f a u = some r := by
  obtain ⟨⟨a, u⟩, hw, hf⟩ := Option.bind_eq_some_iff.mp h
  exact ⟨a, u, hw, hf⟩

theorem pure_some {a b : α} (h : (pure a : Writer α) s = some (b, s')) : b = a ∧ s' = s := by
  obtain ⟨rfl, rfl⟩ : a = b ∧ s = s' := by simpa [pure, StateT.pure] using h
  exact ⟨rfl, rfl⟩

variable {u : Unit}

theorem setWord_some (h : setWord cfg pos v s = some (u, s')) :
    s' = { s with data := patch cfg.order pos v s.data } := by
  have hs : (u, { s with data := patch cfg.order pos v s.data }) = (u, s') :=
    Option.some.inj h
  exact (Prod.mk.inj hs).2.symm

/-- The region is never left by more than a part of a word. -/
def Output.Fits (cfg : Config) (s : Output) : Prop := s.data.length < cfg.outputSize + 4

theorem writeOutput_some (h : writeOutput cfg v s = some (pos, s')) :
    pos = s.data.length ∧ s' = s.append (wordBytes cfg.order [v]) s.dedupTable ∧
      s'.Fits cfg := by
  unfold writeOutput at h
  split at h
  · cases h
  · obtain ⟨rfl, rfl⟩ := h
    refine ⟨rfl, by simp [Output.append], ?_⟩
    simp only [Output.Fits, length_append, ByteOrder.length_store]
    omega

theorem writeOutput64_some {v : UInt64} (h : writeOutput64 cfg v s = some (u, s')) :
    s' = s.append (cfg.order.store 8 v.toNat) s.dedupTable ∧ s'.Fits cfg := by
  unfold writeOutput64 at h
  split at h
  · cases h
  · obtain ⟨-, rfl⟩ := h
    refine ⟨rfl, ?_⟩
    simp only [Output.Fits, length_append, ByteOrder.length_store]
    omega

theorem writeWords_some {ws : List UInt32} (hfits : s.Fits cfg)
    (h : writeWords cfg ws s = some (u, s')) :
    s' = s.append (wordBytes cfg.order ws) s.dedupTable ∧ s'.Fits cfg := by
  induction ws generalizing s with
  | nil =>
    obtain ⟨-, rfl⟩ := pure_some h
    exact ⟨by simp [Output.append], hfits⟩
  | cons w ws ih =>
    obtain ⟨pos, s1, h1, h2⟩ := bind_some h
    obtain ⟨-, rfl, hfits1⟩ := writeOutput_some h1
    obtain ⟨rfl, hfits2⟩ := ih hfits1 h2
    exact ⟨by simp [Output.append], hfits2⟩

/-- The signals that the loop of `write_coverage_signal` writes, and the
deduplication table it leaves. -/
def signals (cfg : Config) (pcOffset : UInt64) :
    List UInt64 → UInt64 → Bool → DedupTable → List UInt32 × DedupTable
  | [], _, _, t => ([], t)
  | raw :: rest, prevPc, prevFilter, t =>
    let pc := pcOf cfg pcOffset raw
    let sig := signalOf cfg prevPc pc
    let filter := cfg.coverageFilter pc
    if !filter && !prevFilter then signals cfg pcOffset rest pc filter t
    else if (dedup sig t).1 then signals cfg pcOffset rest pc filter (dedup sig t).2
    else
      let tail := signals cfg pcOffset rest pc filter (dedup sig t).2
      (sig :: tail.1, tail.2)

theorem writeSignals_some {off prevPc : UInt64} {pcs : List UInt64} {prevFilter : Bool}
    {nsig : UInt32} (hfits : s.Fits cfg)
    (h : writeSignals cfg off pcs prevPc prevFilter nsig s = some (n, s')) :
    let sigs := signals cfg off pcs prevPc prevFilter s.dedupTable
    n = nsig + UInt32.ofNat sigs.1.length ∧ s' = s.append (wordBytes cfg.order sigs.1) sigs.2 ∧
      s'.Fits cfg := by
  induction pcs generalizing prevPc prevFilter nsig s with
  | nil =>
    obtain ⟨rfl, rfl⟩ := pure_some h
    exact ⟨by simp [signals], by simp [signals, Output.append], hfits⟩
  | cons raw rest ih =>
    -- the loop body: an ignored edge, a signal already in the table, or a write
    unfold writeSignals at h
    dsimp only at h
    simp only [signals]
    split at h
    · rename_i hignored
      rw [if_pos hignored]
      exact ih hfits h
    rename_i hkept
    rw [if_neg hkept]
    split at h
    · rename_i hseen
      rw [if_pos hseen]
      exact ih (s := { s with dedupTable := _ }) hfits h
    rename_i hnew
    rw [if_neg hnew]
    obtain ⟨pos, s1, h1, h2⟩ := bind_some h
    obtain ⟨-, rfl, hfits1⟩ := writeOutput_some h1
    obtain ⟨hn, hs', hfits2⟩ := ih hfits1 h2
    refine ⟨?_, ?_, hfits2⟩
    · rw [hn]
      simp only [Output.append, length_cons, UInt32.ofNat_add]
      ac_rfl
    · rw [hs', Output.append_append]
      simp [Output.append]

theorem KcovComparison.write_some {c : KcovComparison} (h : c.write cfg s = some (u, s')) :
    c.type ≤ 7 ∧ s' = s.append (c.bytes cfg.order) s.dedupTable ∧ s'.Fits cfg := by
  unfold KcovComparison.write at h
  split at h
  · cases h
  rename_i hle
  refine ⟨UInt64.not_lt.mp hle, ?_⟩
  obtain ⟨pos, s1, h1, h⟩ := bind_some h
  obtain ⟨-, rfl, -⟩ := writeOutput_some h1
  split at h
  · rename_i hsize
    obtain ⟨_, s2, h2, h3⟩ := bind_some h
    obtain ⟨rfl, -⟩ := writeOutput64_some h2
    obtain ⟨rfl, hfits⟩ := writeOutput64_some h3
    exact ⟨by simp [KcovComparison.bytes, Output.append, hsize], hfits⟩
  · rename_i hsize
    obtain ⟨_, s2, h2, h⟩ := bind_some h
    obtain ⟨-, rfl, -⟩ := writeOutput_some h2
    obtain ⟨_, s3, h3, h⟩ := bind_some h
    obtain ⟨-, rfl, hfits⟩ := writeOutput_some h3
    obtain ⟨-, rfl⟩ := pure_some h
    exact ⟨by simp [KcovComparison.bytes, Output.append, hsize], hfits⟩

theorem writeComps_some {cs : List KcovComparison} {size : UInt32} (hfits : s.Fits cfg)
    (h : writeComps cfg cs size s = some (n, s')) : let kept := cs.filter fun c => !c.ignore cfg
    n = size + UInt32.ofNat kept.length ∧ (∀ c ∈ kept, c.type ≤ 7) ∧
      s' = s.append (kept.flatMap (KcovComparison.bytes cfg.order)) s.dedupTable ∧
      s'.Fits cfg := by
  induction cs generalizing size s with
  | nil =>
    obtain ⟨rfl, rfl⟩ := pure_some h
    exact ⟨by simp, by simp, by simp [Output.append], hfits⟩
  | cons c cs ih =>
    unfold writeComps at h
    by_cases hignore : c.ignore cfg = true
    · rw [if_pos hignore] at h
      simpa [hignore] using ih hfits h
    rw [if_neg hignore] at h
    obtain ⟨_, s1, h1, h2⟩ := bind_some h
    obtain ⟨htype, rfl, hfits1⟩ := KcovComparison.write_some h1
    obtain ⟨hn, htypes, rfl, hfits2⟩ := ih hfits1 h2
    simp only [hignore, Bool.not_false, filter_cons_of_pos, length_cons,
      mem_cons, forall_eq_or_imp, flatMap_cons]
    refine ⟨?_, ⟨htype, htypes⟩, Output.append_append .., hfits2⟩
    rw [hn, UInt32.ofNat_add]
    ac_rfl

end Writers

section Payload
variable (cfg : Config)

/-- The signals that are written for a coverage buffer, and the table left. -/
def signalsOf (t : DedupTable) (cov : Cover) : List UInt32 × DedupTable :=
  if cfg.flagCollectSignal then signals cfg cov.pcOffset cov.pcs 0 true t else ([], t)

/-- The coverage that is written for a coverage buffer. -/
def coverOf (cov : Cover) : List UInt32 :=
  if cfg.flagCollectCover then
    (coverPcs cfg cov).map fun pc => (pc + cov.pcOffset).toUInt32
  else []

/-- The comparisons that are written for a coverage buffer. -/
def compsOf (cov : Cover) : List KcovComparison :=
  (KcovComparison.unique (cfg.sortComps cov.comps)).filter fun c => !c.ignore cfg

/-- The reply of `write_call_output`, and the table it leaves. -/
def callReply (t : DedupTable) (th : CallResult) (finished lastScheduled : Bool) :
    Reply × DedupTable :=
  let r : Reply :=
    { index := UInt32.ofNat th.callIndex, num := UInt32.ofNat th.callNum
      errno := replyErrno th finished, flags := callFlags th finished lastScheduled
      signal := [], cover := [], comps := [] }
  if cfg.flagComparisons then ({ r with comps := compsOf cfg th.cov }, t)
  else
    ({ r with signal := (signalsOf cfg t th.cov).1, cover := coverOf cfg th.cov },
      (signalsOf cfg t th.cov).2)

/-- The reply of `write_extra_output` when there is something to report. -/
def extraReply (t : DedupTable) (extraCov : Cover) : Reply × DedupTable :=
  ({ index := 0xffffffff, num := 0xffffffff, errno := 999, flags := 0
     signal := (signalsOf cfg t extraCov).1, cover := coverOf cfg extraCov, comps := [] },
    (signalsOf cfg t extraCov).2)

/-- The replies of one event: one for a call, at most one for extra coverage. -/
def OutputEvent.replies (t : DedupTable) : OutputEvent → List Reply × DedupTable
  | .call th finished lastScheduled =>
    let r := callReply cfg t th finished lastScheduled
    ([r.1], r.2)
  | .extra extraCov =>
    if !coverCollectionRequired cfg || !cfg.flagExtraCoverage || cfg.flagComparisons then ([], t)
    else if extraCov.pcs.length = 0 then ([], t)
    else
      let r := extraReply cfg t extraCov
      ([r.1], r.2)

/-- The replies of a sequence of events. -/
def eventReplies : DedupTable → List OutputEvent → List Reply
  | _, [] => []
  | t, e :: rest => (e.replies cfg t).1 ++ eventReplies (e.replies cfg t).2 rest

variable {cfg : Config} {s s' : Output} {pre : List UInt8} (hd rest : List UInt32)
variable (body : List UInt8)

variable {u : Unit} {cov : Cover} {replies : List Reply}

/-- A count is filled in after the payload that it counts has been appended. -/
theorem setWord_count {bs : List UInt8} {t : DedupTable} {n : UInt32}
    (hdata : s.data = pre ++ (wordBytes cfg.order (hd ++ 0 :: rest) ++ body))
    (hfits : (s.append bs t).Fits cfg)
    (h : setWord cfg (pre.length + 4 * hd.length) n (s.append bs t) = some (u, s')) :
    s'.data = pre ++ (wordBytes cfg.order (hd ++ n :: rest) ++ (body ++ bs)) ∧
      s'.dedupTable = t ∧ s'.completed = s.completed ∧ s'.Fits cfg := by
  obtain rfl := setWord_some h
  have hpatch := patch_words cfg.order pre (body ++ bs) hd rest 0 n
  simp only [Output.append, hdata, append_assoc, Output.Fits] at hpatch hfits ⊢
  rw [hpatch]
  exact ⟨rfl, trivial, trivial, by simpa using hfits⟩

theorem writeSignalPart_some (hfits : s.Fits cfg)
    (hdata : s.data = pre ++ (wordBytes cfg.order (hd ++ 0 :: rest) ++ body))
    (h : writeSignalPart cfg cov (pre.length + 4 * hd.length) s = some (u, s')) :
    let sigs := signalsOf cfg s.dedupTable cov
    s'.data = pre ++ (wordBytes cfg.order (hd ++ UInt32.ofNat sigs.1.length :: rest) ++
        (body ++ wordBytes cfg.order sigs.1)) ∧
      s'.dedupTable = sigs.2 ∧ s'.completed = s.completed ∧ s'.Fits cfg := by
  unfold writeSignalPart at h
  simp only [signalsOf]
  split at h
  · rename_i hcollect
    rw [if_pos hcollect]
    obtain ⟨nsig, s1, h1, h2⟩ := bind_some h
    obtain ⟨rfl, rfl, hfits1⟩ := writeSignals_some hfits h1
    rw [UInt32.zero_add] at h2
    exact setWord_count hd rest body hdata hfits1 h2
  · rename_i hcollect
    rw [if_neg hcollect]
    obtain ⟨-, rfl⟩ := pure_some h
    exact ⟨by simpa using hdata, rfl, rfl, hfits⟩

theorem writeCoverPart_some (hfits : s.Fits cfg)
    (hdata : s.data = pre ++ (wordBytes cfg.order (hd ++ 0 :: rest) ++ body))
    (h : writeCoverPart cfg cov (pre.length + 4 * hd.length) s = some (u, s')) :
    s'.data = pre ++ (wordBytes cfg.order (hd ++ UInt32.ofNat (coverOf cfg cov).length :: rest) ++
        (body ++ wordBytes cfg.order (coverOf cfg cov))) ∧
      s'.dedupTable = s.dedupTable ∧ s'.completed = s.completed ∧ s'.Fits cfg := by
  unfold writeCoverPart at h
  simp only [coverOf]
  split at h
  · rename_i hcollect
    rw [if_pos hcollect, length_map]
    obtain ⟨_, s1, h1, h2⟩ := bind_some h
    obtain ⟨rfl, hfits1⟩ := writeWords_some hfits h1
    exact setWord_count hd rest body hdata hfits1 h2
  · rename_i hcollect
    rw [if_neg hcollect]
    obtain ⟨-, rfl⟩ := pure_some h
    exact ⟨by simpa using hdata, rfl, rfl, hfits⟩

/-- The two halves together, behind a header of five words and three counts. -/
theorem writeCoverageSignal_some (hfits : s.Fits cfg) (hhd : hd.length = 5)
    (hdata : s.data = pre ++ wordBytes cfg.order (hd ++ [0, 0, 0]))
    (h : writeCoverageSignal cfg cov (pre.length + 20) (pre.length + 24) s = some (u, s')) :
    let sigs := signalsOf cfg s.dedupTable cov
    s'.data = pre ++ (wordBytes cfg.order (hd ++ [UInt32.ofNat sigs.1.length,
        UInt32.ofNat (coverOf cfg cov).length, 0]) ++
        (wordBytes cfg.order sigs.1 ++ wordBytes cfg.order (coverOf cfg cov))) ∧
      s'.dedupTable = sigs.2 ∧ s'.completed = s.completed ∧ s'.Fits cfg := by
  obtain ⟨_, s1, h1, h2⟩ := bind_some h
  have hpos1 : pre.length + 20 = pre.length + 4 * hd.length := by omega
  rw [hpos1] at h1
  obtain ⟨hdata1, htable1, hcompleted1, hfits1⟩ := writeSignalPart_some hd [0, 0] [] hfits
    (by rw [hdata, append_nil]) h1
  set sigs := signalsOf cfg s.dedupTable cov
  have hpos2 : pre.length + 24 =
      pre.length + 4 * (hd ++ [UInt32.ofNat sigs.1.length]).length := by
    simp [hhd]
  rw [hpos2] at h2
  obtain ⟨hdata2, htable2, hcompleted2, hfits2⟩ := writeCoverPart_some
    (hd ++ [UInt32.ofNat sigs.1.length]) [0] (wordBytes cfg.order sigs.1) hfits1
    (by rw [hdata1]; simp) h2
  refine ⟨?_, htable2.trans htable1, hcompleted2.trans hcompleted1, hfits2⟩
  rw [hdata2]
  simp

variable {th : CallResult} {finished lastScheduled : Bool} {α : Type} {r : α × Output}

theorem writePayload_some (hfits : s.Fits cfg)
    (hdata : s.data = pre ++ wordBytes cfg.order
      [kOutMagic, UInt32.ofNat th.callIndex, UInt32.ofNat th.callNum, replyErrno th finished,
        callFlags th finished lastScheduled, 0, 0, 0])
    (h : writePayload cfg th.cov (pre.length + 20) (pre.length + 24) (pre.length + 28) s =
      some (u, s')) :
    let r := callReply cfg s.dedupTable th finished lastScheduled
    s'.data = pre ++ r.1.bytes cfg.order ∧ s'.dedupTable = r.2 ∧ s'.completed = s.completed ∧
      s'.Fits cfg ∧ ∀ c ∈ r.1.comps, c.type ≤ 7 := by
  set hd := [kOutMagic, UInt32.ofNat th.callIndex, UInt32.ofNat th.callNum,
    replyErrno th finished, callFlags th finished lastScheduled] with hhd
  unfold writePayload at h
  simp only [callReply]
  by_cases hcomps : cfg.flagComparisons = true
  · rw [if_pos hcomps] at h ⊢
    obtain ⟨n, s1, h1, h2⟩ := bind_some h
    obtain ⟨rfl, htypes, rfl, hfits1⟩ := writeComps_some hfits h1
    obtain ⟨hdata2, htable2, hcompleted2, hfits2⟩ := setWord_count (hd ++ [0, 0])
      [] [] (by rw [hdata, hhd]; simp) hfits1 h2
    refine ⟨?_, htable2, hcompleted2, hfits2, htypes⟩
    rw [hdata2, hhd]
    simp [Reply.bytes, Reply.header, compsOf]
  · rw [if_neg hcomps] at h ⊢
    split at h
    · obtain ⟨hdata1, htable1, hcompleted1, hfits1⟩ :=
        writeCoverageSignal_some hd hfits rfl (by rw [hdata, hhd]; rfl) h
      refine ⟨?_, htable1, hcompleted1, hfits1, by simp⟩
      rw [hdata1, hhd]
      simp [Reply.bytes, Reply.header]
    · rename_i hcollect
      obtain ⟨-, rfl⟩ := pure_some h
      rw [Bool.or_eq_true, not_or] at hcollect
      refine ⟨?_, by simp [signalsOf, hcollect.1], rfl, hfits, by simp⟩
      rw [hdata]
      simp [Reply.bytes, Reply.header, signalsOf, coverOf, hcollect.1, hcollect.2]

/-- The region holds the given replies. -/
structure Output.Holds (cfg : Config) (s : Output) (replies : List Reply) : Prop where
  data : s.data = cfg.order.store 4 s.completed.toNat ++
    replies.flatMap (Reply.bytes cfg.order)
  completed : s.completed = UInt32.ofNat replies.length
  fits : s.Fits cfg
  types : ∀ r ∈ replies, ∀ c ∈ r.comps, c.type ≤ 7

/-- One more reply: its bytes have been appended, then it is counted. -/
theorem Output.Holds.countReply {r : Reply} {s0 : Output} (hs : s0.Holds cfg replies)
    (hdata : s.data = s0.data ++ r.bytes cfg.order) (hcompleted : s.completed = s0.completed)
    (hfits : s.Fits cfg) (htypes : ∀ c ∈ r.comps, c.type ≤ 7)
    (h : countReply cfg s = some (u, s')) :
    s'.Holds cfg (replies ++ [r]) ∧ s'.dedupTable = s.dedupTable := by
  obtain rfl := setWord_some h
  have hpatch := patch_word cfg.order [] (replies.flatMap (Reply.bytes cfg.order) ++
    r.bytes cfg.order) s0.completed (s.completed + 1)
  rw [length_nil, nil_append, nil_append, ← append_assoc, ← hs.data,
    ← hdata] at hpatch
  refine ⟨⟨?_, ?_, ?_, ?_⟩, rfl⟩
  · simp only [hpatch, flatMap_append, flatMap_cons, flatMap_nil, append_nil]
  · simp only [hcompleted, hs.completed, length_append, UInt32.ofNat_add,
      length_singleton]
    rfl
  · have hlen : s.data.length = (patch cfg.order 0 (s.completed + 1) s.data).length := by
      rw [hpatch, hdata, hs.data]
      simp
    simpa only [Output.Fits, ← hlen] using hfits
  · intro r' hr'
    rcases mem_append.mp hr' with hr' | hr'
    · exact hs.types r' hr'
    · rw [mem_singleton.mp hr']
      exact htypes

/-- `s1` is `s` with some words appended. -/
structure Output.Appended (cfg : Config) (s s1 : Output) (ws : List UInt32) : Prop where
  data : s1.data = s.data ++ wordBytes cfg.order ws
  table : s1.dedupTable = s.dedupTable
  completed : s1.completed = s.completed

theorem Output.Appended.write {s1 : Output} {ws : List UInt32} {v : UInt32} {k : Nat → Writer α}
    (hs : s.Appended cfg s1 ws) (h : (writeOutput cfg v >>= k) s1 = some r) :
    ∃ s2, s.Appended cfg s2 (ws ++ [v]) ∧ s2.Fits cfg ∧
      k (s.data.length + 4 * ws.length) s2 = some r := by
  obtain ⟨pos, s2, h1, h2⟩ := bind_some h
  obtain ⟨hpos, rfl, hfits⟩ := writeOutput_some h1
  refine ⟨s1.append (wordBytes cfg.order [v]) s1.dedupTable, ⟨?_, hs.table, hs.completed⟩,
    hfits, ?_⟩
  · simp only [Output.append, hs.data, wordBytes_append, append_assoc]
  · rwa [hpos, hs.data, length_append, length_wordBytes] at h2

/-- The eight words in front of a payload, with the positions of the counts. -/
theorem header_some {a b c d e : UInt32} {k : Nat → Nat → Nat → Writer α}
    (h : (do
      let _ ← writeOutput cfg a
      let _ ← writeOutput cfg b
      let _ ← writeOutput cfg c
      let _ ← writeOutput cfg d
      let _ ← writeOutput cfg e
      let signalCountPos ← writeOutput cfg 0
      let coverCountPos ← writeOutput cfg 0
      let compsCountPos ← writeOutput cfg 0
      k signalCountPos coverCountPos compsCountPos) s = some r) :
    ∃ s1, s.Appended cfg s1 [a, b, c, d, e, 0, 0, 0] ∧ s1.Fits cfg ∧
      k (s.data.length + 20) (s.data.length + 24) (s.data.length + 28) s1 = some r := by
  have h0 : s.Appended cfg s [] := ⟨(append_nil _).symm, rfl, rfl⟩
  obtain ⟨_, h1, -, h⟩ := h0.write h
  obtain ⟨_, h2, -, h⟩ := h1.write h
  obtain ⟨_, h3, -, h⟩ := h2.write h
  obtain ⟨_, h4, -, h⟩ := h3.write h
  obtain ⟨_, h5, -, h⟩ := h4.write h
  obtain ⟨_, h6, -, h⟩ := h5.write h
  obtain ⟨_, h7, -, h⟩ := h6.write h
  obtain ⟨s8, h8, hfits, h⟩ := h7.write h
  exact ⟨s8, h8, hfits, h⟩

theorem writeCallOutput_some (hs : s.Holds cfg replies)
    (h : writeCallOutput cfg th finished lastScheduled s = some (u, s')) :
    let r := callReply cfg s.dedupTable th finished lastScheduled
    s'.Holds cfg (replies ++ [r.1]) ∧ s'.dedupTable = r.2 := by
  obtain ⟨s1, ⟨hdata1, htable1, hcompleted1⟩, hfits1, h⟩ := header_some h
  obtain ⟨_, s2, h2, h3⟩ := bind_some h
  obtain ⟨hdata2, htable2, hcompleted2, hfits2, htypes⟩ := writePayload_some hfits1 hdata1 h2
  rw [htable1] at hdata2 htable2 htypes
  obtain ⟨hs', htable'⟩ :=
    hs.countReply hdata2 (hcompleted2.trans hcompleted1) hfits2 htypes h3
  exact ⟨hs', htable'.trans htable2⟩

theorem writeExtraOutput_some {extraCov : Cover} (hs : s.Holds cfg replies)
    (h : writeExtraOutput cfg extraCov s = some (u, s')) :
    let r := (OutputEvent.extra extraCov).replies cfg s.dedupTable
    s'.Holds cfg (replies ++ r.1) ∧ s'.dedupTable = r.2 := by
  unfold writeExtraOutput at h
  simp only [OutputEvent.replies]
  split at h
  · rename_i hoff
    obtain ⟨-, rfl⟩ := pure_some h
    rw [if_pos hoff, append_nil]
    exact ⟨hs, rfl⟩
  rename_i hoff
  rw [if_neg hoff]
  split at h
  · rename_i hempty
    obtain ⟨-, rfl⟩ := pure_some h
    rw [if_pos hempty, append_nil]
    exact ⟨hs, rfl⟩
  rename_i hempty
  rw [if_neg hempty]
  obtain ⟨s1, ⟨hdata1, htable1, hcompleted1⟩, hfits1, h⟩ := header_some h
  obtain ⟨_, s2, h2, h3⟩ := bind_some h
  obtain ⟨hdata2, htable2, hcompleted2, hfits2⟩ := writeCoverageSignal_some
    [kOutMagic, 0xffffffff, 0xffffffff, 999, 0] hfits1 rfl hdata1 h2
  rw [htable1] at hdata2 htable2
  obtain ⟨hs', htable'⟩ := hs.countReply (r := (extraReply cfg s.dedupTable extraCov).1)
    (by rw [hdata2]; simp [Reply.bytes, Reply.header, extraReply])
    (hcompleted2.trans hcompleted1) hfits2 (by simp [extraReply]) h3
  exact ⟨hs', htable'.trans htable2⟩

theorem OutputEvent.write_some {e : OutputEvent} (hs : s.Holds cfg replies)
    (h : e.write cfg s = some (u, s')) :
    s'.Holds cfg (replies ++ (e.replies cfg s.dedupTable).1) ∧
      s'.dedupTable = (e.replies cfg s.dedupTable).2 := by
  cases e with
  | call th finished lastScheduled => exact writeCallOutput_some hs h
  | extra extraCov => exact writeExtraOutput_some hs h

theorem writeEvents_some {events : List OutputEvent} (hs : s.Holds cfg replies)
    (h : writeEvents cfg events s = some (u, s')) :
    s'.Holds cfg (replies ++ eventReplies cfg s.dedupTable events) := by
  induction events generalizing s replies with
  | nil =>
    obtain ⟨-, rfl⟩ := pure_some h
    rw [eventReplies, append_nil]
    exact hs
  | cons e rest ih =>
    obtain ⟨_, s1, h1, h2⟩ := bind_some h
    obtain ⟨hs1, htable⟩ := e.write_some hs h1
    have hs' := ih hs1 h2
    rwa [htable, append_assoc] at hs'

end Payload

/-- The replies a program writes. -/
def programReplies (cfg : Config) (events : List OutputEvent) : List Reply :=
  eventReplies cfg (fun _ => 0) events

/-- **What the executor leaves in memory.**  Whenever the writes of a program
stay inside the region, it holds the replies of the events, in order. -/
theorem writeProgram_holds {cfg : Config} {events : List OutputEvent} {out : Output}
    (h : writeProgram cfg events = some out) : out.Holds cfg (programReplies cfg events) := by
  obtain ⟨⟨u, out'⟩, hwrites, rfl⟩ := Option.map_eq_some_iff.mp h
  obtain ⟨_, s1, h1, h2⟩ := bind_some hwrites
  obtain ⟨-, rfl, hfits⟩ := writeOutput_some h1
  have hstart : Output.Holds cfg _ [] :=
    ⟨by simp [Output.append], by simp [Output.append], hfits, by simp⟩
  exact writeEvents_some hstart h2

end Sect.Executor
