import SectProof.ComparisonOperands

/-! # Reply round trip between the executor and the fuzzer

The writer (`OutputStream`) and the parser (`ReplyParser`) are independent
implementations of one word stream.  They meet at the list of replies: the
region holds exactly those bytes (`writeProgram_holds`), and on exactly those
bytes the parser succeeds, whatever follows them, and on no proper prefix of
them (`reads_readOutput`).
-/

open List

namespace Sect.Executor
open Sect.Ipc Reader

/-- What the parser records for a call's reply. -/
def Reply.callInfo (r : Reply) : CallInfo where
  flags := r.flags
  signal := r.signal
  cover := r.cover
  comps := r.comps.foldl (fun m c => c.addTo m) ∅
  errno := r.errno.toNat

/-- What the parser records for an extra reply. -/
def Reply.extraInfo (r : Reply) : CallInfo := { r.callInfo with flags := 0, errno := 0 }

/-- The counts of a reply fit their words, and its comparison types are valid. -/
structure Reply.Sized (r : Reply) : Prop where
  signal : r.signal.length < 2 ^ 32
  cover : r.cover.length < 2 ^ 32
  comps : r.comps.length < 2 ^ 32
  types : ∀ c ∈ r.comps, c.type ≤ 7

/-- The reply fits the program, and no reply for its call has been seen. -/
def Reply.Expected (ids : List Nat) (calls : List CallInfo) (r : Reply) : Prop :=
  r.index ≠ extraReplyIndex →
    ids[r.index.toNat]? = some r.num.toNat ∧ calls[r.index.toNat]? = some .zero

/-- The parser's state after a reply. -/
def addReply (acc : Parsed) (r : Reply) : Parsed :=
  if r.index ≠ extraReplyIndex then
    { acc with calls := acc.calls.set r.index.toNat r.callInfo }
  else { acc with extraParts := acc.extraParts ++ [r.extraInfo] }

section Parser
variable (o : ByteOrder)

theorem toNat_ofNat_of_lt {n : Nat} (h : n < 2 ^ 32) : (UInt32.ofNat n).toNat = n :=
  UInt32.toNat_ofNat_of_lt' h

theorem wordsAt_wordBytes (ws : List UInt32) : wordsAt o ws.length (wordBytes o ws) = ws := by
  induction ws with
  | nil => rfl
  | cons w ws ih =>
    show UInt32.ofNat (o.load ((o.store 4 w.toNat ++ wordBytes o ws).take 4)) ::
      wordsAt o ws.length ((o.store 4 w.toNat ++ wordBytes o ws).drop 4) = w :: ws
    rw [take_left' (o.length_store 4 _), drop_left' (o.length_store 4 _),
      o.load_store_uint32, ih]

theorem reads_readUint32Array (err : Nat → ParseError) {ws : List UInt32}
    (h : ws.length < 2 ^ 32) :
    Reads (readUint32Array o (UInt32.ofNat ws.length) err) (wordBytes o ws) ws := by
  have hsize := toNat_ofNat_of_lt h
  unfold readUint32Array
  by_cases hzero : UInt32.ofNat ws.length = 0
  · have hlen : ws.length = 0 := by rw [← hsize, hzero]; rfl
    rw [if_pos hzero, eq_nil_of_length_eq_zero hlen]
    exact .pure []
  · rw [if_neg hzero, hsize]
    have hlen : (wordBytes o ws).length = ws.length * 4 := by rw [length_wordBytes]; omega
    exact (reads_bytes _ hlen).bind_pure (congrArg _ (wordsAt_wordBytes o ws))

/-- The header as the parser sees it. -/
def Reply.callReply (r : Reply) : CallReply where
  magic := kOutMagic
  index := r.index
  num := r.num
  errno := r.errno
  flags := r.flags
  signalSize := UInt32.ofNat r.signal.length
  coverSize := UInt32.ofNat r.cover.length
  compsSize := UInt32.ofNat r.comps.length

/-- The `k`-th word of a list of words in memory. -/
theorem take_drop_wordBytes (vs ws : List UInt32) (w : UInt32) :
    ((wordBytes o (vs ++ w :: ws)).drop (4 * vs.length)).take 4 = o.store 4 w.toNat := by
  rw [wordBytes_append, drop_left' (length_wordBytes o vs), wordBytes_cons,
    take_left' (o.length_store 4 _)]

theorem reads_readReply (i : Nat) (r : Reply) :
    Reads (readReply o i) (wordBytes o r.header) r.callReply := by
  have hlen : (wordBytes o r.header).length = callReplySize := by rw [length_wordBytes]; rfl
  refine (reads_bytes _ hlen).bind_pure ?_
  have hword : ∀ (vs ws : List UInt32) (w : UInt32), r.header = vs ++ w :: ws →
      UInt32.ofNat (o.load (((wordBytes o r.header).drop (4 * vs.length)).take 4)) = w := by
    intro vs ws w hsplit
    rw [hsplit, take_drop_wordBytes, o.load_store_uint32]
  have h0 := hword [] _ _ rfl
  have h1 := hword [_] _ _ rfl
  have h2 := hword [_, _] _ _ rfl
  have h3 := hword [_, _, _] _ _ rfl
  have h4 := hword [_, _, _, _] _ _ rfl
  have h5 := hword [_, _, _, _, _] _ _ rfl
  have h6 := hword [_, _, _, _, _, _] _ _ rfl
  have h7 := hword [_, _, _, _, _, _, _] _ _ rfl
  show Pure.pure _ = _
  congr 2

/-- The `CallInfo` that the payload of a reply is read into. -/
def Reply.target (r : Reply) : CallInfo :=
  if r.index ≠ extraReplyIndex then
    { CallInfo.zero with errno := r.errno.toNat, flags := r.flags }
  else .zero

variable {ids : List Nat} {r : Reply} {acc : Parsed}

theorem replyTarget_expected {calls : List CallInfo} (h : r.Expected ids calls) (i : Nat) :
    replyTarget ids calls i r.callReply = pure r.target := by
  unfold replyTarget Reply.target
  by_cases hextra : r.index = extraReplyIndex
  · simp [Reply.callReply, hextra, kOutMagic, outMagic]
  · obtain ⟨hid, hcall⟩ := h hextra
    simp [Reply.callReply, hextra, hid, hcall, kOutMagic, outMagic, CallInfo.zero]

theorem reads_readPayload (i : Nat) (h : r.Sized) (inf : CallInfo) :
    Reads (readPayload o i r.callReply inf)
      (wordBytes o r.signal ++ (wordBytes o r.cover ++
        r.comps.flatMap (KcovComparison.bytes o)))
      { inf with
        signal := r.signal, cover := r.cover
        comps := r.comps.foldl (fun m c => c.addTo m) ∅ } := by
  have hcomps := reads_readCompsFrom o 0 ∅ r.comps h.types
  rw [← toNat_ofNat_of_lt h.comps] at hcomps
  exact (reads_readUint32Array o _ h.signal).bind
    ((reads_readUint32Array o _ h.cover).bind (hcomps.bind_pure rfl))

/-- **The parser takes a written reply apart again.** -/
theorem reads_parseReply (i : Nat) (hsized : r.Sized) (h : r.Expected ids acc.calls) :
    Reads (parseReply o ids i acc) (r.bytes o) (addReply acc r) := by
  refine (reads_readReply o i r).bind ?_
  rw [replyTarget_expected h i, pure_bind]
  refine (reads_readPayload o i hsized r.target).bind_pure ?_
  unfold addReply Reply.target
  by_cases hextra : r.index = extraReplyIndex
  · simp [Reply.callReply, hextra, CallInfo.zero, Reply.extraInfo, Reply.callInfo]
  · simp [Reply.callReply, hextra, CallInfo.zero, Reply.callInfo]

/-- The calls that replies report on, in order. -/
def replyIndices (replies : List Reply) : List UInt32 :=
  (replies.map Reply.index).filter (· ≠ extraReplyIndex)

/-- A reply for one call leaves the other calls as they were. -/
theorem Reply.Expected.addReply {r' : Reply} (h : r'.Expected ids acc.calls)
    (hne : r'.index ≠ extraReplyIndex → r'.index ≠ r.index) :
    r'.Expected ids (addReply acc r).calls := by
  intro hcall
  obtain ⟨hid, hzero⟩ := h hcall
  refine ⟨hid, ?_⟩
  unfold Executor.addReply
  split
  · have hidx : r.index.toNat ≠ r'.index.toNat := fun heq =>
      hne hcall (UInt32.toNat_inj.mp heq.symm)
    rw [getElem?_set_ne hidx]
    exact hzero
  · exact hzero

theorem reads_parseReplies (i : Nat) {replies : List Reply} (hsized : ∀ r ∈ replies, r.Sized)
    (honce : (replyIndices replies).Nodup) (h : ∀ r ∈ replies, r.Expected ids acc.calls) :
    Reads (parseReplies o ids i replies.length acc) (replies.flatMap (Reply.bytes o))
      (replies.foldl addReply acc) := by
  induction replies generalizing i acc with
  | nil => exact .pure acc
  | cons r replies ih =>
    have hrest : (replyIndices replies).Nodup :=
      honce.sublist (((sublist_cons_self r replies).map Reply.index).filter _)
    refine (reads_parseReply o i (hsized r mem_cons_self) (h r mem_cons_self)).bind
      (ih (i + 1) (fun r' hr' => hsized r' (mem_cons_of_mem r hr')) hrest ?_)
    intro r' hr'
    refine (h r' (mem_cons_of_mem r hr')).addReply ?_
    -- no two replies are for the same call
    intro hcall heq
    have hmem : r'.index ∈ replyIndices replies :=
      mem_filter.mpr ⟨mem_map_of_mem hr', by simpa using hcall⟩
    have hsplit : replyIndices (r :: replies) = r.index :: replyIndices replies := by
      rw [heq] at hcall
      simp [replyIndices, hcall]
    rw [hsplit, nodup_cons, ← heq] at honce
    exact honce.1 hmem

end Parser

/-- **Parser and stream agree.**  On the bytes of the replies the parser reads
all of them, and on no proper prefix of the bytes it succeeds. -/
theorem reads_readOutput (o : ByteOrder) {ids : List Nat} {replies : List Reply}
    (hlen : replies.length < 2 ^ 32) (hsized : ∀ r ∈ replies, r.Sized)
    (honce : (replyIndices replies).Nodup)
    (hids : ∀ r ∈ replies, r.index ≠ extraReplyIndex →
      ids[r.index.toNat]? = some r.num.toNat) :
    Reads (readOutput o ids)
      (o.store 4 (UInt32.ofNat replies.length).toNat ++ replies.flatMap (Reply.bytes o))
      (replies.foldl addReply ⟨List.replicate ids.length .zero, []⟩) := by
  refine (reads_readUint32 o _ _).bind ?_
  rw [toNat_ofNat_of_lt hlen]
  refine reads_parseReplies o 0 hsized honce ?_
  intro r hr hcall
  have hid := hids r hr hcall
  have hlt : r.index.toNat < ids.length := (List.getElem?_eq_some_iff.mp hid).1
  exact ⟨hid, by simp [hlt]⟩

section Result
variable {ids : List Nat} {replies : List Reply} {acc : Parsed}

theorem extraParts_foldl (replies : List Reply) (acc : Parsed) :
    (replies.foldl addReply acc).extraParts = acc.extraParts ++
      (replies.filter fun r => r.index = extraReplyIndex).map Reply.extraInfo := by
  induction replies generalizing acc with
  | nil => simp
  | cons r replies ih =>
    rw [foldl_cons, ih]
    unfold addReply
    by_cases hextra : r.index = extraReplyIndex
    · simp [hextra]
    · simp [hextra]

theorem length_calls_foldl (replies : List Reply) (acc : Parsed) :
    (replies.foldl addReply acc).calls.length = acc.calls.length := by
  induction replies generalizing acc with
  | nil => rfl
  | cons r replies ih =>
    rw [foldl_cons, ih]
    unfold addReply
    split <;> simp

/-- A call that no reply is about keeps its zero value. -/
theorem calls_foldl_of_notMem (i : Nat)
    (h : ∀ r ∈ replies, r.index ≠ extraReplyIndex → r.index.toNat ≠ i) :
    (replies.foldl addReply acc).calls[i]? = acc.calls[i]? := by
  induction replies generalizing acc with
  | nil => rfl
  | cons r replies ih =>
    rw [foldl_cons, ih fun r' hr' => h r' (mem_cons_of_mem r hr')]
    unfold addReply
    split
    · rename_i hcall
      exact getElem?_set_ne (h r mem_cons_self hcall)
    · rfl

/-- A call that a reply is about has what the reply says. -/
theorem calls_foldl_of_mem (honce : (replyIndices replies).Nodup) {r : Reply} (hr : r ∈ replies)
    (hcall : r.index ≠ extraReplyIndex) (hlt : r.index.toNat < acc.calls.length) :
    (replies.foldl addReply acc).calls[r.index.toNat]? = some r.callInfo := by
  induction replies generalizing acc with
  | nil => cases hr
  | cons r' replies ih =>
    have hrest : (replyIndices replies).Nodup :=
      honce.sublist (((sublist_cons_self r' replies).map Reply.index).filter _)
    rw [foldl_cons]
    rcases mem_cons.mp hr with rfl | hr
    · -- the later replies are about other calls
      rw [calls_foldl_of_notMem]
      · rw [addReply, if_pos hcall]
        exact getElem?_set_self hlt
      intro r'' hr'' hcall'' heq
      have hsplit : replyIndices (r :: replies) = r.index :: replyIndices replies := by
        simp [replyIndices, hcall]
      rw [hsplit, nodup_cons] at honce
      refine honce.1 ?_
      rw [← UInt32.toNat_inj.mp heq]
      exact mem_filter.mpr ⟨mem_map_of_mem hr'', by simpa using hcall''⟩
    · refine ih hrest hr ?_
      have hlen := length_calls_foldl [r'] acc
      rw [foldl_cons, foldl_nil] at hlen
      rwa [hlen]

end Result

/-- The call that an event reports on. -/
def OutputEvent.callIndex? : OutputEvent → Option Nat
  | .call th _ _ => some th.callIndex
  | .extra _ => none

section Events
variable {cfg : Config} {events : List OutputEvent} {t : DedupTable}

theorem index_ne_extra (th : CallResult) : UInt32.ofNat th.callIndex ≠ extraReplyIndex := by
  intro heq
  have hnat := congrArg UInt32.toNat heq
  have hlt := th.callIndex_lt
  rw [toNat_ofNat_of_lt (by omega)] at hnat
  have hextra : extraReplyIndex.toNat = 2 ^ 32 - 1 := rfl
  omega

theorem callReply_fields (cfg : Config) (t : DedupTable) (th : CallResult)
    (finished lastScheduled : Bool) :
    let r := (callReply cfg t th finished lastScheduled).1
    r.index = UInt32.ofNat th.callIndex ∧ r.num = UInt32.ofNat th.callNum ∧
      r.errno = replyErrno th finished ∧ r.flags = callFlags th finished lastScheduled := by
  unfold callReply
  split <;> exact ⟨rfl, rfl, rfl, rfl⟩

theorem extra_replies_index (extraCov : Cover) :
    ∀ r ∈ ((OutputEvent.extra extraCov).replies cfg t).1, r.index = extraReplyIndex := by
  intro r hr
  simp only [OutputEvent.replies] at hr
  split at hr
  · cases hr
  split at hr
  · cases hr
  · rw [mem_singleton.mp hr]
    rfl

theorem callIndex_lt_of_mem {i : Nat} (h : i ∈ events.filterMap OutputEvent.callIndex?) :
    i < 2 ^ 31 := by
  obtain ⟨e, -, he⟩ := mem_filterMap.mp h
  cases e with
  | call th finished lastScheduled => exact Option.some.inj he ▸ th.callIndex_lt
  | extra extraCov => cases he

/-- The replies are about the calls that the events report on, in that order. -/
theorem replyIndices_eventReplies (events : List OutputEvent) (t : DedupTable) :
    replyIndices (eventReplies cfg t events) =
      (events.filterMap OutputEvent.callIndex?).map UInt32.ofNat := by
  induction events generalizing t with
  | nil => rfl
  | cons e events ih =>
    have happend : ∀ rs rs' : List Reply,
        replyIndices (rs ++ rs') = replyIndices rs ++ replyIndices rs' := by
      intro rs rs'
      simp [replyIndices]
    rw [eventReplies, happend, ih]
    cases e with
    | call th finished lastScheduled =>
      obtain ⟨hindex, -⟩ := callReply_fields cfg t th finished lastScheduled
      simp [OutputEvent.replies, replyIndices, hindex, index_ne_extra,
        OutputEvent.callIndex?]
    | extra extraCov =>
      have hnone : replyIndices ((OutputEvent.extra extraCov).replies cfg t).1 = [] := by
        refine filter_eq_nil_iff.mpr ?_
        intro index hindex
        obtain ⟨r, hr, rfl⟩ := mem_map.mp hindex
        simp [extra_replies_index extraCov r hr]
      rw [hnone, nil_append, filterMap_cons_none rfl]

/-- Every reply is the extra one or that of a reported call. -/
theorem mem_eventReplies {r : Reply} (h : r ∈ eventReplies cfg t events) :
    r.index = extraReplyIndex ∨ ∃ t' th finished lastScheduled,
      OutputEvent.call th finished lastScheduled ∈ events ∧
        r = (callReply cfg t' th finished lastScheduled).1 := by
  induction events generalizing t with
  | nil => cases h
  | cons e events ih =>
    rcases mem_append.mp h with h | h
    · cases e with
      | call th finished lastScheduled =>
        exact .inr ⟨t, th, finished, lastScheduled, mem_cons_self,
          mem_singleton.mp h⟩
      | extra extraCov => exact .inl (extra_replies_index extraCov r h)
    · rcases ih h with hextra | ⟨t', th, finished, lastScheduled, hmem, heq⟩
      · exact .inl hextra
      · exact .inr ⟨t', th, finished, lastScheduled, mem_cons_of_mem e hmem, heq⟩

/-- Every reported call has a reply. -/
theorem exists_reply (cfg : Config) (t : DedupTable) {th : CallResult}
    {finished lastScheduled : Bool} (h : OutputEvent.call th finished lastScheduled ∈ events) :
    ∃ t', (callReply cfg t' th finished lastScheduled).1 ∈ eventReplies cfg t events := by
  induction events generalizing t with
  | nil => cases h
  | cons e events ih =>
    rcases mem_cons.mp h with rfl | h
    · exact ⟨t, mem_append_left _ (mem_singleton.mpr rfl)⟩
    · obtain ⟨t', ht'⟩ := ih (e.replies cfg t).2 h
      exact ⟨t', mem_append_right _ ht'⟩

/-- The bytes of a list of replies bound its length and the bytes of each of them. -/
theorem replies_le_length (o : ByteOrder) (replies : List Reply) :
    replies.length ≤ (replies.flatMap (Reply.bytes o)).length ∧
      ∀ r ∈ replies, (r.bytes o).length ≤ (replies.flatMap (Reply.bytes o)).length := by
  induction replies with
  | nil => exact ⟨Nat.le_refl 0, fun r hr => by cases hr⟩
  | cons r replies ih =>
    have hcounts := r.counts_le_length o
    simp only [flatMap_cons, length_append, length_cons, mem_cons,
      forall_eq_or_imp]
    refine ⟨by omega, by omega, fun r' hr' => ?_⟩
    have hle := ih.2 r' hr'
    omega

/-- A region that holds replies bounds their number and their counts. -/
theorem Output.Holds.sized {s : Output} {replies : List Reply} (h : s.Holds cfg replies) :
    replies.length < 2 ^ 32 ∧ ∀ r ∈ replies, r.Sized := by
  have hbytes : (replies.flatMap (Reply.bytes cfg.order)).length < 2 ^ 32 := by
    have hfits := h.fits
    have hsize := cfg.outputSize_le
    unfold Output.Fits at hfits
    rw [h.data, length_append, ByteOrder.length_store] at hfits
    have hmax : kMaxOutput < 2 ^ 32 := by decide
    omega
  obtain ⟨hmany, hone⟩ := replies_le_length cfg.order replies
  refine ⟨by omega, ?_⟩
  · intro r hr
    have hcounts := r.counts_le_length cfg.order
    have hle := hone r hr
    exact ⟨by omega, by omega, by omega, h.types r hr⟩

end Events

section Extra
variable (parts : List CallInfo)

theorem mem_foldl_union (f : CallInfo → List UInt32) (s : Finset UInt32) (v : UInt32) :
    v ∈ parts.foldl (fun s part => s ∪ (f part).toFinset) s ↔
      v ∈ s ∨ ∃ part ∈ parts, v ∈ f part := by
  induction parts generalizing s with
  | nil => simp
  | cons part parts ih =>
    rw [foldl_cons, ih]
    simp [or_assoc]

theorem foldl_append_cover (cover : List UInt32) :
    parts.foldl (fun c part => c ++ part.cover) cover = cover ++ parts.flatMap CallInfo.cover := by
  induction parts generalizing cover with
  | nil => simp
  | cons part parts ih => rw [foldl_cons, ih]; simp

/-- What the extra coverage of a program is: all of it, in order unless it is
deduplicated; the signals as a set. -/
structure MergesExtra (dedupCover : Bool) (extras : List Reply) (extra : CallInfo) : Prop where
  cover_in_order : dedupCover = false → extra.cover = extras.flatMap Reply.cover
  cover_dedup : dedupCover = true → extra.cover.Nodup
  mem_cover : ∀ pc, pc ∈ extra.cover ↔ ∃ r ∈ extras, pc ∈ r.cover
  signal_nodup : extra.signal.Nodup
  mem_signal : ∀ v, v ∈ extra.signal ↔ ∃ r ∈ extras, v ∈ r.signal

theorem mergesExtra_nil (dedupCover : Bool) : MergesExtra dedupCover [] .zero where
  cover_in_order := fun _ => rfl
  cover_dedup := fun _ => nodup_nil
  mem_cover := by simp [CallInfo.zero]
  signal_nodup := nodup_nil
  mem_signal := by simp [CallInfo.zero]

theorem mergesExtra_convertExtra (coverOrder signalOrder : RangeOrder) (dedupCover : Bool)
    (extras : List Reply) :
    MergesExtra dedupCover extras
      (convertExtra coverOrder signalOrder (extras.map Reply.extraInfo) dedupCover) where
  cover_in_order := fun h => by
    simp only [convertExtra, h, Bool.false_eq_true, if_false, foldl_append_cover,
      nil_append, flatMap_map]
    rfl
  cover_dedup := fun h => by
    simp only [convertExtra, h, if_true]
    exact coverOrder.nodup _
  mem_cover := fun pc => by
    unfold convertExtra
    split
    · rw [coverOrder.mem_visit, mem_foldl_union]
      simp [Reply.extraInfo, Reply.callInfo]
    · simp [Reply.extraInfo, Reply.callInfo]
  signal_nodup := signalOrder.nodup _
  mem_signal := fun v => by
    unfold convertExtra
    rw [signalOrder.mem_visit, mem_foldl_union]
    simp [Reply.extraInfo, Reply.callInfo]

end Extra

/-- The replies about extra coverage. -/
def extraReplies (replies : List Reply) : List Reply :=
  replies.filter fun r => r.index = extraReplyIndex

section Program
variable {cfg : Config} {ids : List Nat} {events : List OutputEvent} {out : Output}

/-- The parser's state after the replies of a program. -/
def parsedEvents (cfg : Config) (ids : List Nat) (events : List OutputEvent) : Parsed :=
  (programReplies cfg events).foldl addReply ⟨List.replicate ids.length .zero, []⟩

/-- On the region that a program's writes leave, the parser reads its replies. -/
theorem reads_writeProgram (hrun : writeProgram cfg events = some out)
    (honce : (events.filterMap OutputEvent.callIndex?).Nodup)
    (hids : ∀ th finished lastScheduled, OutputEvent.call th finished lastScheduled ∈ events →
      ids[th.callIndex]? = some th.callNum) :
    (replyIndices (programReplies cfg events)).Nodup ∧
    Reads (readOutput cfg.order ids) out.data (parsedEvents cfg ids events) := by
  have hholds := writeProgram_holds hrun
  obtain ⟨hlen, hsized⟩ := hholds.sized
  have hnodup : (replyIndices (programReplies cfg events)).Nodup := by
    rw [programReplies, replyIndices_eventReplies]
    refine (nodup_map_iff_inj_on honce).mpr ?_
    intro i hi j hj heq
    have hnat := congrArg UInt32.toNat heq
    have hi := callIndex_lt_of_mem hi
    have hj := callIndex_lt_of_mem hj
    rwa [toNat_ofNat_of_lt (by omega), toNat_ofNat_of_lt (by omega)] at hnat
  refine ⟨hnodup, ?_⟩
  rw [hholds.data, hholds.completed]
  refine reads_readOutput cfg.order hlen hsized hnodup ?_
  intro r hr hcall
  rcases mem_eventReplies hr with hextra | ⟨t', th, finished, lastScheduled, hmem, rfl⟩
  · exact absurd hextra hcall
  · obtain ⟨hindex, hnum, -⟩ := callReply_fields cfg t' th finished lastScheduled
    have hlt := th.callIndex_lt
    have hlt' := th.callNum_lt
    rw [hindex, hnum, toNat_ofNat_of_lt (by omega), toNat_ofNat_of_lt (by omega)]
    exact hids th finished lastScheduled hmem

/-- A reported call has what its reply says. -/
theorem parsedEvents_call (hnodup : (replyIndices (programReplies cfg events)).Nodup)
    {th : CallResult} {finished lastScheduled : Bool}
    (hmem : OutputEvent.call th finished lastScheduled ∈ events)
    (hvalid : th.callIndex < ids.length) :
    ∃ r ∈ programReplies cfg events, r.index.toNat = th.callIndex ∧
      r.errno = replyErrno th finished ∧ r.flags = callFlags th finished lastScheduled ∧
      (parsedEvents cfg ids events).calls[th.callIndex]? = some r.callInfo := by
  obtain ⟨t', hr⟩ := exists_reply cfg (fun _ => 0) hmem
  obtain ⟨hindex, -, herrno, hflags⟩ := callReply_fields cfg t' th finished lastScheduled
  have hlt := th.callIndex_lt
  have hnat : (callReply cfg t' th finished lastScheduled).1.index.toNat = th.callIndex := by
    rw [hindex, toNat_ofNat_of_lt (by omega)]
  refine ⟨_, hr, hnat, herrno, hflags, ?_⟩
  rw [← hnat]
  refine calls_foldl_of_mem hnodup hr ?_ ?_
  · rw [hindex]
    exact index_ne_extra th
  · rw [length_replicate, hnat]
    exact hvalid

/-- A call without a reply keeps the zero value. -/
theorem parsedEvents_none {i : Nat} (hi : i < ids.length)
    (hnone : i ∉ events.filterMap OutputEvent.callIndex?) :
    (parsedEvents cfg ids events).calls[i]? = some .zero := by
  unfold parsedEvents
  rw [calls_foldl_of_notMem i ?_]
  · simp [hi]
  intro r hr hcall heq
  rcases mem_eventReplies hr with hextra | ⟨t', th, finished, lastScheduled, hmem, rfl⟩
  · exact hcall hextra
  · obtain ⟨hindex, -⟩ := callReply_fields cfg t' th finished lastScheduled
    have hlt := th.callIndex_lt
    rw [hindex, toNat_ofNat_of_lt (by omega)] at heq
    exact hnone (mem_filterMap.mpr ⟨_, hmem, congrArg some heq⟩)

/-- The extra replies are merged. -/
theorem parsedEvents_extra (coverOrder signalOrder : RangeOrder) (dedupCover : Bool) :
    MergesExtra dedupCover (extraReplies (programReplies cfg events))
      (if (parsedEvents cfg ids events).extraParts.length = 0 then .zero
        else convertExtra coverOrder signalOrder (parsedEvents cfg ids events).extraParts
          dedupCover) := by
  have hparts : (parsedEvents cfg ids events).extraParts =
      (extraReplies (programReplies cfg events)).map Reply.extraInfo := by
    rw [parsedEvents, extraParts_foldl, nil_append]
    rfl
  rw [hparts]
  split
  · rename_i hempty
    rw [length_map] at hempty
    rw [eq_nil_of_length_eq_zero hempty]
    exact mergesExtra_nil dedupCover
  · exact mergesExtra_convertExtra coverOrder signalOrder dedupCover _

/-- The parser's result, from what it has read. -/
theorem parseOutput_ok (o : ByteOrder) (coverOrder signalOrder : RangeOrder) (dedupCover : Bool)
    {bs rest : List UInt8} {acc : Parsed} (h : readOutput o ids bs = .ok (acc, rest)) :
    parseOutput o coverOrder signalOrder dedupCover ids bs = .ok ⟨acc.calls,
      if acc.extraParts.length = 0 then .zero
      else convertExtra coverOrder signalOrder acc.extraParts dedupCover⟩ := by
  unfold parseOutput
  rw [h]
  show (if acc.extraParts.length = 0 then _ else _ : Except ParseError ProgInfo) = _
  split <;> rfl

theorem parseOutput_error (o : ByteOrder) (coverOrder signalOrder : RangeOrder)
    (dedupCover : Bool) {bs : List UInt8} {e : ParseError} (h : readOutput o ids bs = .error e) :
    parseOutput o coverOrder signalOrder dedupCover ids bs = .error e := by
  unfold parseOutput
  rw [h]
  rfl

/-- **The executor's replies survive the boundary.**  On the memory that the
writes of a program leave, whatever follows it, `parseOutput` returns for every
reported call what was written for it, the zero value for every other call, and
all of the extra coverage; on memory cut anywhere inside, it returns an error. -/
theorem parseOutput_writeProgram (cfg : Config) (ids : List Nat) (events : List OutputEvent)
    (out : Output) (hrun : writeProgram cfg events = some out)
    (honce : (events.filterMap OutputEvent.callIndex?).Nodup)
    (hids : ∀ th finished lastScheduled, OutputEvent.call th finished lastScheduled ∈ events →
      ids[th.callIndex]? = some th.callNum)
    (coverOrder signalOrder : RangeOrder) (dedupCover : Bool) :
    (out.data = cfg.order.store 4 (programReplies cfg events).length ++
        (programReplies cfg events).flatMap (Reply.bytes cfg.order)) ∧
    (∀ tail, ∃ info,
      parseOutput cfg.order coverOrder signalOrder dedupCover ids (out.data ++ tail) = .ok info ∧
      info.calls.length = ids.length ∧
      (∀ th finished lastScheduled, OutputEvent.call th finished lastScheduled ∈ events →
        ∃ r ∈ programReplies cfg events, ∃ inf, r.index.toNat = th.callIndex ∧
          info.calls[th.callIndex]? = some inf ∧
          inf.errno = (replyErrno th finished).toNat ∧
          inf.flags = callFlags th finished lastScheduled ∧
          inf.signal = r.signal ∧ inf.cover = r.cover) ∧
      (∀ i, i < ids.length → i ∉ events.filterMap OutputEvent.callIndex? →
        info.calls[i]? = some .zero) ∧
      MergesExtra dedupCover (extraReplies (programReplies cfg events)) info.extra) ∧
    ∀ n, n < out.data.length → ∃ e,
      parseOutput cfg.order coverOrder signalOrder dedupCover ids (out.data.take n) =
        .error e := by
  have hholds := writeProgram_holds hrun
  obtain ⟨hnodup, hreads⟩ := reads_writeProgram hrun honce hids
  refine ⟨?_, fun tail => ?_, fun n hn => ?_⟩
  · rw [hholds.data, hholds.completed, toNat_ofNat_of_lt hholds.sized.1]
  · refine ⟨_, parseOutput_ok _ _ _ _ (hreads.full tail), ?_, ?_, ?_, ?_⟩
    · rw [parsedEvents, length_calls_foldl, length_replicate]
    · intro th finished lastScheduled hmem
      have hvalid := (List.getElem?_eq_some_iff.mp (hids th finished lastScheduled hmem)).1
      obtain ⟨r, hr, hindex, herrno, hflags, hcall⟩ := parsedEvents_call hnodup hmem hvalid
      exact ⟨r, hr, _, hindex, hcall, congrArg UInt32.toNat herrno, hflags, rfl, rfl⟩
    · intro i hi hnone
      exact parsedEvents_none hi hnone
    · exact parsedEvents_extra coverOrder signalOrder dedupCover
  · obtain ⟨e, he⟩ := hreads.short n hn
    exact ⟨e, parseOutput_error _ _ _ _ he⟩

end Program

/-- A machine that collects signals and coverage, extra coverage included. -/
def signalConfig : Config :=
  { comparisonsConfig with
    flagComparisons := false, flagCollectSignal := true, flagCollectCover := true
    flagExtraCoverage := true, useCoverEdges := fun _ => false }

/-- A range over a map that happens to visit the keys in ascending order. -/
def ascendingOrder : RangeOrder where
  visit s := s.sort (· ≤ ·)
  nodup := Finset.sort_nodup (r := (· ≤ ·))
  mem_visit _ _ := Finset.mem_sort (r := (· ≤ ·))

theorem ascendingOrder_sorted (s : Finset UInt32) :
    (ascendingOrder.visit s).Pairwise (· ≤ ·) :=
  Finset.pairwise_sort _ _

theorem firstIndex_lt : 0 < 2 ^ 31 := by decide

/-- A finished call that covered one PC. -/
def coveredCall : CallResult where
  callIndex := 0
  callNum := 7
  res := -1
  reserrno := 22
  faultInjected := false
  cov := ⟨[0x1000], [], 0⟩
  callIndex_lt := firstIndex_lt
  callNum_lt := by decide

theorem parseOutput_writeProgram_coveredCall :
    ∃ out, writeProgram signalConfig [.call coveredCall true true] = some out ∧
      ∃ info, parseOutput .little ascendingOrder ascendingOrder false [7, 9] (out.data ++ []) =
          .ok info ∧
        info.calls.length = 2 ∧ info.calls[1]? = some .zero := by
  obtain ⟨out, hout⟩ :
      ∃ out, writeProgram signalConfig [.call coveredCall true true] = some out :=
    Option.isSome_iff_exists.mp (by decide +kernel)
  have hmain := parseOutput_writeProgram signalConfig [7, 9] [.call coveredCall true true] out
    hout (by decide) (by
      intro th finished lastScheduled hmem
      cases hmem with
      | head => rfl
      | tail _ hmem => cases hmem) ascendingOrder ascendingOrder false
  obtain ⟨info, hok, hlen, -, hnone, -⟩ := hmain.2.1 []
  exact ⟨out, hout, info, hok, hlen, hnone 1 (by decide) (by decide)⟩

/-- Two extra replies, `0x2000` and then `0x1000`: their signals do not come back
in the order of the replies. -/
theorem extra_signals_reordered :
    ∃ out info,
      writeProgram signalConfig [.extra ⟨[0x2000], [], 0⟩, .extra ⟨[0x1000], [], 0⟩] =
        some out ∧
      parseOutput .little ascendingOrder ascendingOrder false [] out.data = .ok info ∧
      (extraReplies (programReplies signalConfig
        [.extra ⟨[0x2000], [], 0⟩, .extra ⟨[0x1000], [], 0⟩])).flatMap Reply.signal =
          [0x2000, 0x1000] ∧
      info.extra.signal ≠ [0x2000, 0x1000] := by
  obtain ⟨out, hout⟩ : ∃ out, writeProgram signalConfig
      [.extra ⟨[0x2000], [], 0⟩, .extra ⟨[0x1000], [], 0⟩] = some out :=
    Option.isSome_iff_exists.mp (by decide +kernel)
  have hreads := (@reads_writeProgram _ [] _ _ hout (by decide) (by
    intro th finished lastScheduled hmem
    simp at hmem)).2
  have hok := parseOutput_ok .little ascendingOrder ascendingOrder false (hreads.full [])
  rw [append_nil] at hok
  refine ⟨out, _, hout, hok, by decide, ?_⟩
  intro heq
  -- the signals that come back are sorted
  have hsorted : List.Pairwise (· ≤ ·) ([0x2000, 0x1000] : List UInt32) := by
    rw [← heq]
    split
    · exact .nil
    · unfold convertExtra
      dsimp only
      exact ascendingOrder_sorted _
  exact absurd hsorted (by decide)

end Sect.Executor
