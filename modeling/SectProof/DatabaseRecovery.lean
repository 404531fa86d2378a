import SectProof.DatabaseStore

/-!
# Recovery from a truncated database

A file of the package is cut at an arbitrary byte.  The cut falls in the header,
between two entries, or inside an entry (`prefix_dbFile_cases`).  In each case
`deserializeDB` recovers the entries in front of the cut.  Whether it also
reports the cut is decided by the error of the read that meets the end of the
file: inside an entry the ends of the fields pass for the end of the file.
-/

open List

namespace Sect.Database
open Reader

section Cuts
variable {F : Codec}

/-- The entries that are complete in the first `n` bytes behind the header. -/
def completeEntries : List (Entry F) → Nat → List (Entry F)
  | [], _ => []
  | e :: entries, n =>
    if e.bytes.length ≤ n then e :: completeEntries entries (n - e.bytes.length) else []

/-- The cut is where the file may end: nowhere, behind the header or behind an
entry. -/
def AtBoundary (version : UInt64) (entries : List (Entry F)) (part : Bytes) : Prop :=
  part = [] ∨ ∃ whole, whole <+: entries ∧ part = dbFile version whole

/-- The cut is inside an entry, where one of its fields ends and the next begins. -/
def FieldCut (version : UInt64) (entries : List (Entry F)) (part : Bytes) : Prop :=
  ∃ whole e offset, whole ++ [e] <+: entries ∧ offset ∈ e.fieldEnds ∧
    part = dbFile version whole ++ e.bytes.take offset

/-- What a reader of a truncated file should do: recover the complete entries,
and report a cut that is not at a boundary, so that `Open` without repair refuses
the file. -/
structure Recovers (F : Codec) (version : UInt64) (entries : List (Entry F)) (part : Bytes) :
    Prop where
  replayed : (deserializeDB F part).records =
    replay ∅ (completeEntries entries (part.length - 16))
  reported : ¬ AtBoundary version entries part →
    ∃ err, (deserializeDB F part).err = some err ∧
      ∀ order, openDb F order part false = .refused err

theorem Entry.bytes_pos (e : Entry F) : 0 < e.bytes.length := by
  rw [e.length_bytes]
  omega

variable {offset : Nat} {e : Entry F} {part : Bytes} {version : UInt64}

/-- A tombstone ends with its sequence number, a record has a value behind it:
every end of a field is inside the entry. -/
theorem Entry.fieldEnds_inside (e : Entry F) (h : offset ∈ e.fieldEnds) :
    0 < offset ∧ offset < e.bytes.length := by
  rw [e.length_bytes]
  unfold Entry.fieldEnds Entry.valueBytes at *
  split at h
  · simp at h
    omega
  next hseq =>
    have hvalue : 4 ≤ (serializeValue F e.val).length := by
      unfold serializeValue
      split <;> simp
    rw [if_neg hseq]
    simp at h
    omega

theorem completeEntries_append (whole rest : List (Entry F)) (n : Nat) :
    completeEntries (whole ++ rest) ((entriesBytes whole).length + n) =
      whole ++ completeEntries rest n := by
  induction whole with
  | nil => simp
  | cons e whole ih =>
    have hle : e.bytes.length ≤ (entriesBytes (e :: whole)).length + n := by
      rw [entriesBytes_cons, length_append]
      omega
    have hsub : (entriesBytes (e :: whole)).length + n - e.bytes.length =
        (entriesBytes whole).length + n := by
      rw [entriesBytes_cons, length_append]
      omega
    rw [cons_append, completeEntries, if_pos hle, hsub, ih, cons_append]

theorem completeEntries_zero (entries : List (Entry F)) : completeEntries entries 0 = [] := by
  cases entries with
  | nil => rfl
  | cons e entries => exact if_neg (Nat.not_le_of_lt e.bytes_pos)

theorem completeEntries_cut {n : Nat} (h : n < e.bytes.length) (entries : List (Entry F)) :
    completeEntries (e :: entries) n = [] :=
  if_neg (Nat.not_le_of_lt h)

variable {entries : List (Entry F)}

/-- A cut in the entries falls between two of them or inside one. -/
theorem prefix_entriesBytes_cases (h : part <+: entriesBytes entries) :
    (∃ whole, whole <+: entries ∧ part = entriesBytes whole) ∨
      ∃ whole e offset, whole ++ [e] <+: entries ∧ 0 < offset ∧ offset < e.bytes.length ∧
        part = entriesBytes whole ++ e.bytes.take offset := by
  induction entries generalizing part with
  | nil => exact .inl ⟨[], prefix_refl _, prefix_nil.mp h⟩
  | cons e entries ih =>
    rcases prefix_or_prefix_of_prefix h (prefix_append e.bytes _) with hin | hover
    · by_cases hnil : part = []
      · exact .inl ⟨[], nil_prefix, hnil⟩
      by_cases hwhole : part.length = e.bytes.length
      · refine .inl ⟨[e], cons_prefix_cons.mpr ⟨rfl, nil_prefix⟩, ?_⟩
        rw [entriesBytes_cons, entriesBytes_nil, append_nil]
        exact hin.eq_of_length hwhole
      have hle := hin.length_le
      have hpos : 0 < part.length := length_pos_iff.mpr hnil
      refine .inr ⟨[], e, part.length, cons_prefix_cons.mpr ⟨rfl, nil_prefix⟩, hpos,
        by omega, ?_⟩
      exact prefix_iff_eq_take.mp hin
    · obtain ⟨tail, rfl⟩ := hover
      have htail := (prefix_append_right_inj _).mp h
      rcases ih htail with ⟨whole, hwhole, rfl⟩ | ⟨whole, e', offset, hwhole, hpos, hlt, rfl⟩
      · exact .inl ⟨e :: whole, cons_prefix_cons.mpr ⟨rfl, hwhole⟩, rfl⟩
      · refine .inr ⟨e :: whole, e', offset, ?_, hpos, hlt, ?_⟩
        · exact cons_prefix_cons.mpr ⟨rfl, hwhole⟩
        · rw [entriesBytes_cons, append_assoc]

/-- A cut in the file falls in the header or in the entries. -/
theorem prefix_dbFile_cases (h : part <+: dbFile version entries) :
    (∃ m, m < 16 ∧ part = (serializeHeader version).take m) ∨
      (∃ whole, whole <+: entries ∧ part = dbFile version whole) ∨
      ∃ whole e offset, whole ++ [e] <+: entries ∧ 0 < offset ∧ offset < e.bytes.length ∧
        part = dbFile version whole ++ e.bytes.take offset := by
  rcases prefix_or_prefix_of_prefix h (prefix_append (serializeHeader version) _) with
    hin | hover
  · by_cases hlen : part.length < 16
    · exact .inl ⟨part.length, hlen, prefix_iff_eq_take.mp hin⟩
    · have hle := hin.length_le
      rw [length_serializeHeader] at hle
      have heq := hin.eq_of_length (by rw [length_serializeHeader]; omega)
      refine .inr (.inl ⟨[], nil_prefix, ?_⟩)
      exact heq
  · obtain ⟨tail, rfl⟩ := hover
    have htail := (prefix_append_right_inj _).mp h
    rcases prefix_entriesBytes_cases htail with
      ⟨whole, hwhole, rfl⟩ | ⟨whole, e, offset, hwhole, hpos, hlt, rfl⟩
    · exact .inr (.inl ⟨whole, hwhole, rfl⟩)
    · refine .inr (.inr ⟨whole, e, offset, hwhole, hpos, hlt, ?_⟩)
      rw [dbFile, append_assoc]

/-- No cut inside an entry is at a boundary. -/
theorem not_atBoundary {whole : List (Entry F)} (hwhole : whole ++ [e] <+: entries)
    (hpos : 0 < offset) (hlt : offset < e.bytes.length) :
    ¬ AtBoundary version entries (dbFile version whole ++ e.bytes.take offset) := by
  have hlen : (dbFile version whole ++ e.bytes.take offset).length =
      16 + (entriesBytes whole).length + offset := by
    rw [dbFile, length_append, length_append, length_serializeHeader, length_take]
    omega
  rintro (hnil | ⟨other, hother, heq⟩)
  · rw [hnil] at hlen
    simp at hlen
    omega
  have hsame : (entriesBytes other).length = (entriesBytes whole).length + offset := by
    have h := congrArg List.length heq
    rw [hlen, dbFile, length_append, length_serializeHeader] at h
    omega
  -- the boundary is not behind the entry and not in front of the cut
  rcases prefix_or_prefix_of_prefix hother hwhole with hle | ⟨rest, rfl⟩
  · rcases prefix_concat_iff.mp hle with rfl | ⟨rest, rfl⟩
    · rw [entriesBytes_append, entriesBytes_cons, entriesBytes_nil, append_nil,
        length_append] at hsame
      omega
    · rw [entriesBytes_append, length_append] at hsame
      omega
  · rw [entriesBytes_append, entriesBytes_append, entriesBytes_cons, entriesBytes_nil,
      append_nil, length_append, length_append] at hsame
    omega

end Cuts

/-! ## What the reader does at a cut -/

section Reading
variable {F : Codec}

variable {m offset : Nat} {version : UInt64} {whole entries : List (Entry F)}

/-- Every cut in the header except the one at length zero is an error. -/
theorem deserializeHeader_take (version : UInt64) (hpos : 0 < m) (hlt : m < 16) :
    ∃ e, deserializeHeader ((serializeHeader version).take m) = .error e := by
  by_cases hmagic : m < 4
  · have htake : (serializeHeader version).take m = (u32 dbMagic).take m := by
      exact take_append_of_le_length (by rw [length_u32]; omega)
    obtain ⟨e, he, heof⟩ := (splits_readUInt32 dbMagic).short m (by rw [length_u32]; omega)
    refine ⟨e, ?_⟩
    rw [htake, deserializeHeader, he]
    cases e with
    | eof => exact absurd (heof.mp rfl) (by omega)
    | _ => rfl
  · have htake : (serializeHeader version).take m =
        u32 dbMagic ++ (u32 curVersion ++ u64 version).take (m - 4) := by
      rw [serializeHeader, take_append, take_of_length_le (by rw [length_u32]; omega),
        length_u32]
    obtain ⟨e, he, -⟩ := (splits_readVersion version).short (m - 4) (by simp; omega)
    refine ⟨e, ?_⟩
    rw [htake, deserializeHeader_magic, he]

theorem recovers_header (version : UInt64) (entries : List (Entry F)) (hlt : m < 16) :
    Recovers F version entries ((serializeHeader version).take m) := by
  have hnone : completeEntries entries (((serializeHeader version).take m).length - 16) = [] := by
    rw [length_take, length_serializeHeader, Nat.min_eq_left (by omega),
      Nat.sub_eq_zero_of_le (by omega), completeEntries_zero]
  by_cases hpos : 0 < m
  · obtain ⟨e, he⟩ := deserializeHeader_take version hpos hlt
    have hdecoded : deserializeDB F ((serializeHeader version).take m) =
        ⟨0, ∅, 0, some (.header e)⟩ := by
      rw [deserializeDB, he]
    refine ⟨?_, fun _ => ⟨.header e, by rw [hdecoded], ?_⟩⟩
    · rw [hnone, hdecoded]
      rfl
    · exact fun order => openDb_refused (by rw [hdecoded])
  · obtain rfl : m = 0 := by omega
    refine ⟨?_, fun h => absurd (.inl (take_zero ..)) h⟩
    rw [hnone]
    rfl

/-- The entries in front of a cut are replayed, and the cut entry decides about
the error. -/
theorem deserializeDB_cut (hF : F.RoundTrips) (hT : F.ReportsTruncation) (version : UInt64)
    (whole : List (Entry F)) (e : Entry F) (hlt : offset < e.bytes.length) :
    (deserializeDB F (dbFile version whole ++ e.bytes.take offset)).records = replay ∅ whole ∧
      ((deserializeDB F (dbFile version whole ++ e.bytes.take offset)).err = none ↔
        e.CleanAt offset) := by
  obtain ⟨err, herr, hclean⟩ := (e.splits_deserializeRecord hF hT).short offset hlt
  rw [dbFile, append_assoc, deserializeDB_header, deserializeRecords_entries hF,
    deserializeRecords_error _ herr, ← hclean]
  split
  · next heof => exact ⟨rfl, ⟨fun _ => heof, fun _ => rfl⟩⟩
  · next heof =>
      refine ⟨rfl, ⟨fun h => ?_, fun h => absurd h heof⟩⟩
      cases h

theorem recovers_boundary (hF : F.RoundTrips) (hwhole : whole <+: entries) :
    Recovers F version entries (dbFile version whole) := by
  refine ⟨?_, fun h => absurd (.inr ⟨whole, hwhole, rfl⟩) h⟩
  obtain ⟨rest, rfl⟩ := hwhole
  have hcomplete := completeEntries_append whole rest 0
  rw [Nat.add_zero, completeEntries_zero, append_nil] at hcomplete
  rw [deserializeDB_dbFile hF, dbFile, length_append, length_serializeHeader,
    Nat.add_sub_cancel_left, hcomplete]

/-- Inside an entry the complete entries are recovered at every cut, and the cut
is reported unless it is at the end of a field. -/
theorem recovers_inside (hF : F.RoundTrips) (hT : F.ReportsTruncation) {e : Entry F}
    (hwhole : whole ++ [e] <+: entries) (hpos : 0 < offset) (hlt : offset < e.bytes.length) :
    Recovers F version entries (dbFile version whole ++ e.bytes.take offset) ↔
      offset ∉ e.fieldEnds := by
  obtain ⟨hrecords, herr⟩ := deserializeDB_cut hF hT version whole e hlt
  have hinside : ¬ AtBoundary version entries (dbFile version whole ++ e.bytes.take offset) :=
    not_atBoundary hwhole hpos hlt
  constructor
  · intro h hend
    obtain ⟨err, hsome, -⟩ := h.reported hinside
    rw [herr.mpr (.inr hend)] at hsome
    cases hsome
  · intro hend
    have hne : (deserializeDB F (dbFile version whole ++ e.bytes.take offset)).err ≠ none := by
      intro hnone
      rcases herr.mp hnone with hzero | hfield
      · omega
      · exact hend hfield
    obtain ⟨err, hsome⟩ := Option.ne_none_iff_exists'.mp hne
    refine ⟨?_, fun _ => ⟨err, hsome, fun order => openDb_refused hsome⟩⟩
    obtain ⟨rest, rfl⟩ := hwhole
    have hcomplete := completeEntries_append whole (e :: rest) offset
    rw [completeEntries_cut hlt, append_nil] at hcomplete
    have hlen : (dbFile version whole ++ e.bytes.take offset).length - 16 =
        (entriesBytes whole).length + offset := by
      rw [dbFile, length_append, length_append, length_serializeHeader,
        length_take]
      omega
    rw [hrecords, hlen, append_assoc, singleton_append, hcomplete]

end Reading

/-- **Recovery from truncation.**  Every part of every file of the package is
recovered and, off the boundaries, reported and refused, unless the cut is at the
end of a field inside an entry. -/
theorem truncation_recovered_iff (F : Codec) (hF : F.RoundTrips) (hT : F.ReportsTruncation)
    (version : UInt64) (entries : List (Entry F)) (part : Bytes)
    (hpart : part <+: dbFile version entries) :
    Recovers F version entries part ↔ ¬ FieldCut version entries part := by
  constructor
  · rintro h ⟨whole, e, offset, hwhole, hend, rfl⟩
    obtain ⟨hpos, hlt⟩ := e.fieldEnds_inside hend
    exact (recovers_inside hF hT hwhole hpos hlt).mp h hend
  intro h
  rcases prefix_dbFile_cases hpart with
    ⟨m, hlt, rfl⟩ | ⟨whole, hwhole, rfl⟩ | ⟨whole, e, offset, hwhole, hpos, hlt, rfl⟩
  · exact recovers_header version entries hlt
  · exact recovers_boundary hF hwhole
  · refine (recovers_inside hF hT hwhole hpos hlt).mpr ?_
    exact fun hend => h ⟨whole, e, offset, hwhole, hend, rfl⟩


/-- A file with one blank record, cut `n` bytes into the record. -/
def blankCut (n : Nat) : Bytes :=
  dbFile 0 ([] : List (Entry escaped)) ++ (blankEntry escaped).bytes.take n

theorem blankCut_isPrefix (n : Nat) : blankCut n <+: dbFile 0 [blankEntry escaped] := by
  rw [blankCut, dbFile, dbFile, entriesBytes_nil, append_nil, entriesBytes_cons,
    entriesBytes_nil, append_nil]
  exact (prefix_append_right_inj _).mpr (List.take_prefix ..)

/-- A cut inside the length of the key is reported. -/
theorem truncation_recovered_keyLength :
    Recovers escaped 0 [blankEntry escaped] (blankCut 5) := by
  refine (truncation_recovered_iff escaped escaped_roundTrips escaped_reportsTruncation 0
    [blankEntry escaped] _ (blankCut_isPrefix 5)).mpr ?_
  rintro ⟨whole, e, offset, hwhole, hend, heq⟩
  have hone : whole = [] ∧ e = blankEntry escaped := by
    cases whole with
    | nil => exact ⟨rfl, (cons_prefix_cons.mp hwhole).1⟩
    | cons e' whole =>
      have htail := (cons_prefix_cons.mp hwhole).2
      exact absurd (prefix_nil.mp htail) (by simp)
  obtain ⟨rfl, rfl⟩ := hone
  have htake := congrArg List.length (append_cancel_left heq)
  rw [blankEntry_bytes] at htake
  simp [Entry.fieldEnds, blankEntry, seqDeleted] at htake hend
  omega

/-- **A torn record passes for the end of the file.**  Cut behind its magic
number, the only record of a file is lost, and the file opens without an error. -/
theorem truncation_unreported :
    blankCut 4 <+: dbFile 0 [blankEntry escaped] ∧
      ¬ AtBoundary 0 [blankEntry escaped] (blankCut 4) ∧
      (deserializeDB escaped (blankCut 4)).err = none ∧
      ¬ Recovers escaped 0 [blankEntry escaped] (blankCut 4) := by
  have hend : 4 ∈ (blankEntry escaped).fieldEnds := mem_cons_self
  have hwhole : [] ++ [blankEntry escaped] <+: [blankEntry escaped] := prefix_refl _
  obtain ⟨hpos, hlt⟩ := (blankEntry escaped).fieldEnds_inside hend
  refine ⟨blankCut_isPrefix 4, not_atBoundary hwhole hpos hlt, ?_, ?_⟩
  · exact (deserializeDB_cut escaped_roundTrips escaped_reportsTruncation 0 [] _ hlt).2.mpr
      (.inr hend)
  · intro h
    exact (recovers_inside escaped_roundTrips escaped_reportsTruncation hwhole hpos hlt).mp h hend

end Sect.Database
