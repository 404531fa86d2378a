import SectProof.ByteReaders

/-!
# The corpus database and its file

`pkg/db` keeps a map of records in memory and mirrors it in a file: a header,
then one entry for each `Save` and each `Delete`.  `Open` replays the entries.
The loop of `deserializeDB` stops at the first read that reports `io.EOF`, and
every read of a field reports it when no byte of the field is left.

The first half is the code.  The second half says what the readers do on the
bytes of one entry: they give it back in front of any continuation, and of the
cuts inside it exactly `Entry.fieldEnds` look like the end of the file.
-/

open List

namespace Sect.Database

abbrev Bytes := List UInt8

/-- The errors of the readers.  `eof` is `io.EOF`; `corrupt` is any other error
of `compress/flate`. -/
inductive ReadErr
  | eof
  | unexpectedEOF
  | badDbHeader (magic : UInt32)
  | badDbVersion (ver : UInt32)
  | badRecordHeader (magic : UInt32)
  | corrupt
  deriving DecidableEq, Repr

/-- The errors of `deserializeDB`, by what it failed to deserialize. -/
inductive DbErr
  | header (err : ReadErr)
  | record (err : ReadErr)
  deriving DecidableEq, Repr

/-- The two directions of `compress/flate`.  `inflate` reads a stream from the
given input and returns its value with the number of bytes it consumed. -/
structure Codec where
  deflate : Bytes → Bytes
  inflate : Bytes → Except ReadErr (Bytes × Nat)

/-- A compressed value is a non-empty stream that inflates back and is consumed
to its last byte. -/
structure Codec.RoundTrips (F : Codec) : Prop where
  deflate_ne_nil : ∀ val, F.deflate val ≠ []
  inflate_deflate : ∀ val, F.inflate (F.deflate val) = .ok (val, (F.deflate val).length)

/-- The reader of `compress/flate` reports a stream that ends early, and never as
`io.EOF`. -/
def Codec.ReportsTruncation (F : Codec) : Prop :=
  ∀ val m, m < (F.deflate val).length →
    ∃ e, F.inflate ((F.deflate val).take m) = .error e ∧ e ≠ .eof

def dbMagic : UInt32 := 0xbaddb
def recMagic : UInt32 := 0xfee1bad
def curVersion : UInt32 := 2
def seqDeleted : UInt64 := 0xffffffffffffffff

structure Record where
  val : Bytes
  seq : UInt64
  deriving DecidableEq, Repr

abbrev Records := Std.ExtTreeMap Bytes Record

/-! ## Writing -/

/-- `binary.Write` of a `uint32` in little endian. -/
def u32 (w : UInt32) : Bytes := ByteOrder.little.store 4 w.toNat

/-- `binary.Write` of a `uint64` in little endian. -/
def u64 (w : UInt64) : Bytes := ByteOrder.little.store 8 w.toNat

@[simp] theorem length_u32 (w : UInt32) : (u32 w).length = 4 := ByteOrder.length_store _ _ _

@[simp] theorem length_u64 (w : UInt64) : (u64 w).length = 8 := ByteOrder.length_store _ _ _

def serializeHeader (version : UInt64) : Bytes := u32 dbMagic ++ (u32 curVersion ++ u64 version)

@[simp] theorem length_serializeHeader (version : UInt64) :
    (serializeHeader version).length = 16 := by
  simp [serializeHeader]

/-- The value of a record with its length in front, as `uint32` has it. -/
def serializeValue (F : Codec) (val : Bytes) : Bytes :=
  if val = [] then u32 0
  else u32 (UInt32.ofNat (F.deflate val).length) ++ F.deflate val

/-- The bytes of one record or tombstone; `none` is the panic on a tombstone that
carries a value. -/
def serializeRecord (F : Codec) (key val : Bytes) (seq : UInt64) : Option Bytes :=
  if seq = seqDeleted then
    if val ≠ [] then none
    else some (u32 recMagic ++ (u32 (UInt32.ofNat key.length) ++ (key ++ u64 seq)))
  else
    some (u32 recMagic ++ (u32 (UInt32.ofNat key.length) ++
      (key ++ (u64 seq ++ serializeValue F val))))

/-! ## Reading -/

/-- `io.ReadFull`: `io.EOF` when nothing is left, and `io.ErrUnexpectedEOF` when
something but not enough is. -/
def readFull (n : Nat) : Reader ReadErr Bytes :=
  Reader.bytes n (fun out => if out = [] then .eof else .unexpectedEOF)

def readUInt32 : Reader ReadErr UInt32 := do
  let bs ← readFull 4
  return UInt32.ofNat (ByteOrder.little.load bs)

def readUInt64 : Reader ReadErr UInt64 := do
  let bs ← readFull 8
  return UInt64.ofNat (ByteOrder.little.load bs)

/-- `io.ReadAll` of a flate reader over an `io.LimitedReader` of `n` bytes. -/
def readAll (F : Codec) (n : Nat) : Reader ReadErr Bytes := fun out =>
  match F.inflate (out.take n) with
  | .error e => .error e
  | .ok (val, used) => .ok (val, out.drop (min used n))

def readValue (F : Codec) : Reader ReadErr Bytes := do
  let valLen ← readUInt32
  if valLen ≠ 0 then readAll F valLen.toNat else return []

/-- The part of the header behind its magic number. -/
def readVersion : Reader ReadErr UInt64 := do
  let ver ← readUInt32
  if ver = 0 ∨ ver > curVersion then throw (.badDbVersion ver)
  else if ver ≥ 2 then readUInt64
  else return 0

/-- An empty file has version zero. -/
def deserializeHeader : Reader ReadErr UInt64 := fun out =>
  match readUInt32 out with
  | .error .eof => .ok (0, out)
  | .error e => .error e
  | .ok (magic, rest) =>
    if magic ≠ dbMagic then .error (.badDbHeader magic) else readVersion rest

/-- What follows the key of a record: a tombstone ends with its sequence number. -/
def readSeqValue (F : Codec) (key : Bytes) : Reader ReadErr (Bytes × Record) := do
  let seq ← readUInt64
  if seq = seqDeleted then return (key, ⟨[], seq⟩)
  else do
    let val ← readValue F
    return (key, ⟨val, seq⟩)

def deserializeRecord (F : Codec) : Reader ReadErr (Bytes × Record) := do
  let magic ← readUInt32
  if magic ≠ recMagic then throw (.badRecordHeader magic)
  else do
    let keyLen ← readUInt32
    let key ← readFull keyLen.toNat
    readSeqValue F key

/-- What one record of the file does to the map. -/
def applyRecord (records : Records) (key : Bytes) (rec : Record) : Records :=
  if rec.seq = seqDeleted then records.erase key else records.insert key rec

/-- The results of `deserializeDB`. -/
structure Decoded where
  version : UInt64
  records : Records
  uncompacted : Nat
  err : Option DbErr

/-- The loop of `deserializeDB`.  A record takes at least four bytes, so fuel for
every byte is more than enough: see `deserializeLoop_eq`. -/
def deserializeLoop (F : Codec) : Nat → Bytes → Decoded → Decoded
  | 0, _, d => d
  | fuel + 1, out, d =>
    match deserializeRecord F out with
    | .error .eof => d
    | .error e => { d with err := some (.record e) }
    | .ok ((key, rec), rest) =>
      deserializeLoop F fuel rest
        { d with records := applyRecord d.records key rec, uncompacted := d.uncompacted + 1 }

def deserializeDB (F : Codec) (out : Bytes) : Decoded :=
  match deserializeHeader out with
  | .error e => ⟨0, ∅, 0, some (.header e)⟩
  | .ok (ver, rest) => deserializeLoop F (rest.length + 1) rest ⟨ver, ∅, 0, none⟩

/-! ## What the readers do on what the writers wrote -/

/-- The error that `deserializeDB` takes for the end of the file. -/
def ReadErr.isEof (e : ReadErr) : Bool := e = .eof

open Reader

theorem splits_readFull {bs : Bytes} {n : Nat} (hlen : bs.length = n) :
    Splits ReadErr.isEof (readFull n) bs bs (fun m => m = 0) := by
  refine .bytes hlen ?_
  intro out
  by_cases hout : out = []
  · simp [hout, ReadErr.isEof]
  · simp [hout, ReadErr.isEof]

theorem splits_readUInt32 (w : UInt32) :
    Splits ReadErr.isEof readUInt32 (u32 w) w (fun m => m = 0) := by
  refine (splits_readFull (length_u32 w)).bind_pure ?_
  rw [u32, ByteOrder.load_store_uint32]

theorem splits_readUInt64 (w : UInt64) :
    Splits ReadErr.isEof readUInt64 (u64 w) w (fun m => m = 0) := by
  refine (splits_readFull (length_u64 w)).bind_pure ?_
  rw [u64, ByteOrder.load_store_uint64]

section Values
variable {F : Codec}

theorem readAll_append (hF : F.RoundTrips) (val rest : Bytes) :
    readAll F (F.deflate val).length (F.deflate val ++ rest) = .ok (val, rest) := by
  unfold readAll
  rw [take_left, hF.inflate_deflate]
  simp

theorem readAll_take (hT : F.ReportsTruncation) (val : Bytes) {m : Nat}
    (hm : m < (F.deflate val).length) :
    ∃ e, readAll F (F.deflate val).length ((F.deflate val).take m) = .error e ∧ e ≠ .eof := by
  obtain ⟨e, he, hne⟩ := hT val m hm
  refine ⟨e, ?_, hne⟩
  have htake : ((F.deflate val).take m).take (F.deflate val).length = (F.deflate val).take m :=
    take_of_length_le (by rw [length_take]; omega)
  unfold readAll
  rw [htake, he]

theorem splits_readAll (hF : F.RoundTrips) (hT : F.ReportsTruncation) (val : Bytes) :
    Splits ReadErr.isEof (readAll F (F.deflate val).length) (F.deflate val) val
      (fun _ => False) where
  full := readAll_append hF val
  short := fun m hm => by
    obtain ⟨e, he, hne⟩ := readAll_take hT val hm
    exact ⟨e, he, by simp [ReadErr.isEof, hne]⟩

variable {bs val : Bytes}

/-- A length that fits its field is read back as it is. -/
theorem toNat_ofNat_length (h : bs.length < 2 ^ 32) :
    (UInt32.ofNat bs.length).toNat = bs.length :=
  Nat.mod_eq_of_lt h

/-- A stored length is zero only for no bytes. -/
theorem ofNat_length_ne_zero (hne : bs ≠ []) (h : bs.length < 2 ^ 32) :
    UInt32.ofNat bs.length ≠ 0 := by
  intro h0
  have hlen := toNat_ofNat_length h
  rw [h0] at hlen
  exact hne (length_eq_zero_iff.mp hlen.symm)

theorem readValue_append (hF : F.RoundTrips) (hfits : val ≠ [] → (F.deflate val).length < 2 ^ 32)
    (rest : Bytes) : readValue F (serializeValue F val ++ rest) = .ok (val, rest) := by
  by_cases hval : val = []
  · rw [serializeValue, if_pos hval, hval]
    exact bind_ok ((splits_readUInt32 0).full rest)
  rw [serializeValue, if_neg hval, append_assoc]
  unfold readValue
  rw [bind_ok ((splits_readUInt32 _).full _),
    if_pos (ofNat_length_ne_zero (hF.deflate_ne_nil val) (hfits hval)),
    toNat_ofNat_length (hfits hval)]
  exact readAll_append hF val rest

/-- A value is cut cleanly only in front of its length: a cut in front of the
stream is an error of the flate reader. -/
theorem splits_readValue (hF : F.RoundTrips) (hT : F.ReportsTruncation)
    (hfits : val ≠ [] → (F.deflate val).length < 2 ^ 32) :
    Splits ReadErr.isEof (readValue F) (serializeValue F val) val (fun m => m = 0) := by
  by_cases hval : val = []
  · rw [serializeValue, if_pos hval, hval]
    exact (splits_readUInt32 0).bind_pure rfl
  have hstream := splits_readAll hF hT val
  rw [← toNat_ofNat_length (hfits hval), ← if_pos (c := UInt32.ofNat (F.deflate val).length ≠ 0)
    (ofNat_length_ne_zero (hF.deflate_ne_nil val) (hfits hval))
    (t := readAll F _) (e := .pure [])] at hstream
  rw [serializeValue, if_neg hval]
  refine ((splits_readUInt32 _).bind hstream).congr ?_
  intro m _
  rw [length_u32]
  split
  · exact .rfl
  · exact ⟨False.elim, fun h => by omega⟩

end Values

/-! ## Entries of the file -/

/-- One record or tombstone as the file can hold it: a tombstone has no value,
and the lengths of the key and of the compressed value fit their fields. -/
structure Entry (F : Codec) where
  key : Bytes
  val : Bytes
  seq : UInt64
  val_of_deleted : seq = seqDeleted → val = []
  key_fits : key.length < 2 ^ 32
  val_fits : val ≠ [] → (F.deflate val).length < 2 ^ 32

namespace Entry
variable {F : Codec}

/-- What follows the sequence number. -/
def valueBytes (e : Entry F) : Bytes :=
  if e.seq = seqDeleted then [] else serializeValue F e.val

/-- The bytes that `serializeRecord` writes for the entry. -/
def bytes (e : Entry F) : Bytes :=
  u32 recMagic ++ (u32 (UInt32.ofNat e.key.length) ++ (e.key ++ (u64 e.seq ++ e.valueBytes)))

theorem serializeRecord_eq (e : Entry F) :
    serializeRecord F e.key e.val e.seq = some e.bytes := by
  by_cases hdel : e.seq = seqDeleted
  · have hval := e.val_of_deleted hdel
    simp [serializeRecord, bytes, valueBytes, hdel, hval]
  · simp [serializeRecord, bytes, valueBytes, hdel]

theorem length_bytes (e : Entry F) :
    e.bytes.length = 16 + e.key.length + e.valueBytes.length := by
  simp [bytes]
  omega

/-- The offsets in an entry at which one field ends and the next begins, up to
the length of the value. -/
def fieldEnds (e : Entry F) : List Nat :=
  [4, 8, 8 + e.key.length] ++ if e.seq = seqDeleted then [] else [16 + e.key.length]

/-- The offsets at which the entry is cut without an error of its own. -/
def CleanAt (e : Entry F) (m : Nat) : Prop := m = 0 ∨ m ∈ e.fieldEnds

theorem readSeqValue_append (hF : F.RoundTrips) (e : Entry F) (rest : Bytes) :
    readSeqValue F e.key (u64 e.seq ++ e.valueBytes ++ rest) =
      .ok ((e.key, ⟨e.val, e.seq⟩), rest) := by
  rw [append_assoc, readSeqValue, bind_ok ((splits_readUInt64 e.seq).full _)]
  split_ifs with hdel
  · rw [valueBytes, if_pos hdel, e.val_of_deleted hdel]
    rfl
  · rw [valueBytes, if_neg hdel,
      bind_ok (readValue_append hF e.val_fits rest)]
    rfl

theorem deserializeRecord_append (hF : F.RoundTrips) (e : Entry F) (rest : Bytes) :
    deserializeRecord F (e.bytes ++ rest) = .ok ((e.key, ⟨e.val, e.seq⟩), rest) := by
  have hkey := (splits_readFull (toNat_ofNat_length e.key_fits).symm).full
  rw [bytes, deserializeRecord, append_assoc, bind_ok ((splits_readUInt32 _).full _),
    if_neg (fun h => h rfl), append_assoc, bind_ok ((splits_readUInt32 _).full _),
    append_assoc, bind_ok (hkey _)]
  exact readSeqValue_append hF e rest

/-- The value is cut cleanly in front of its length, if it has one. -/
theorem splits_readSeqValue (hF : F.RoundTrips) (hT : F.ReportsTruncation) (e : Entry F) :
    Splits ReadErr.isEof (readSeqValue F e.key) (u64 e.seq ++ e.valueBytes)
      (e.key, ⟨e.val, e.seq⟩) (fun m => m = 0 ∨ e.seq ≠ seqDeleted ∧ m = 8) := by
  by_cases hdel : e.seq = seqDeleted
  · have htail : Splits ReadErr.isEof
        (if e.seq = seqDeleted then .pure (e.key, (⟨[], e.seq⟩ : Record)) else do
          let val ← readValue F
          .pure (e.key, (⟨val, e.seq⟩ : Record)))
        e.valueBytes (e.key, ⟨e.val, e.seq⟩) (fun _ => False) := by
      rw [if_pos hdel, valueBytes, if_pos hdel, e.val_of_deleted hdel]
      exact .pure _ _
    refine ((splits_readUInt64 e.seq).bind htail).congr ?_
    intro m hm
    simp [valueBytes, hdel] at hm ⊢
    omega
  · have htail : Splits ReadErr.isEof
        (if e.seq = seqDeleted then .pure (e.key, (⟨[], e.seq⟩ : Record)) else do
          let val ← readValue F
          .pure (e.key, (⟨val, e.seq⟩ : Record)))
        e.valueBytes (e.key, ⟨e.val, e.seq⟩) (fun m => m = 0) := by
      rw [if_neg hdel, valueBytes, if_neg hdel]
      exact (splits_readValue hF hT e.val_fits).bind_pure rfl
    refine ((splits_readUInt64 e.seq).bind htail).congr ?_
    intro m _
    simp only [length_u64, hdel, ne_eq, not_false_eq_true, true_and]
    split <;> omega

/-- **Cuts inside an entry.**  Of the cuts inside the bytes of an entry, exactly
those at `CleanAt` look to the loop like the end of the file. -/
theorem splits_deserializeRecord (hF : F.RoundTrips) (hT : F.ReportsTruncation) (e : Entry F) :
    Splits ReadErr.isEof (deserializeRecord F) e.bytes (e.key, ⟨e.val, e.seq⟩) e.CleanAt := by
  have hkey := (splits_readFull (toNat_ofNat_length e.key_fits).symm).bind
    (splits_readSeqValue hF hT e)
  have hlen : Splits ReadErr.isEof
      (do let keyLen ← readUInt32; let key ← readFull keyLen.toNat; readSeqValue F key) _ _ _ :=
    (splits_readUInt32 (UInt32.ofNat e.key.length)).bind hkey
  have hmagic : Splits ReadErr.isEof (deserializeRecord F) e.bytes (e.key, ⟨e.val, e.seq⟩) _ :=
    (splits_readUInt32 recMagic).bind hlen
  refine hmagic.congr ?_
  intro m _
  by_cases hdel : e.seq = seqDeleted
  · simp [CleanAt, fieldEnds, hdel]
    split_ifs <;> omega
  · simp [CleanAt, fieldEnds, hdel]
    split_ifs <;> omega

end Entry

/-! ## Replaying the file -/

theorem readFull_shrinks (n : Nat) : Shrinks (readFull n) := by
  intro out bs rest h
  have hlen := bytes_ok h
  omega

theorem readUInt32_ok {out rest : Bytes} {w : UInt32} (h : readUInt32 out = .ok (w, rest)) :
    rest.length + 4 = out.length := by
  obtain ⟨bs, mid, hmid, hrest⟩ := bind_eq_ok h
  cases hrest
  exact bytes_ok hmid

theorem readUInt32_shrinks : Shrinks readUInt32 :=
  (readFull_shrinks 4).bind (fun _ => .pure _)

theorem readUInt64_shrinks : Shrinks readUInt64 :=
  (readFull_shrinks 8).bind (fun _ => .pure _)

theorem readAll_shrinks (F : Codec) (n : Nat) : Shrinks (readAll F n) := by
  intro out val rest h
  unfold readAll at h
  split at h
  · cases h
  · cases h
    rw [length_drop]
    omega

theorem readSeqValue_shrinks (F : Codec) (key : Bytes) : Shrinks (readSeqValue F key) := by
  refine readUInt64_shrinks.bind ?_
  intro seq
  split
  · exact .pure _
  · refine .bind (readUInt32_shrinks.bind ?_) (fun _ => .pure _)
    intro valLen
    split
    · exact readAll_shrinks F _
    · exact .pure _

/-- A record takes at least the bytes of its magic number. -/
theorem deserializeRecord_lt {F : Codec} {out rest : Bytes} {r : Bytes × Record}
    (h : deserializeRecord F out = .ok (r, rest)) : rest.length < out.length := by
  obtain ⟨magic, mid, hmagic, hrest⟩ := bind_eq_ok h
  have hlen := readUInt32_ok hmagic
  split at hrest
  · cases hrest
  have hbody : Shrinks (do
      let keyLen ← readUInt32
      let key ← readFull keyLen.toNat
      readSeqValue F key) :=
    readUInt32_shrinks.bind (fun _ => (readFull_shrinks _).bind (readSeqValue_shrinks F))
  have hle := hbody mid r rest hrest
  omega

section Replay
variable {F : Codec}

/-- Fuel beyond the length of the input does not matter: the loop ends by
itself. -/
theorem deserializeLoop_fuel {fuel fuel' : Nat} {out : Bytes} (d : Decoded)
    (hfuel : out.length < fuel) (hfuel' : out.length < fuel') :
    deserializeLoop F fuel out d = deserializeLoop F fuel' out d := by
  induction fuel generalizing fuel' out d with
  | zero => exact absurd hfuel (Nat.not_lt_zero _)
  | succ fuel ih =>
    obtain ⟨fuel', rfl⟩ : ∃ n, fuel' = n + 1 := ⟨fuel' - 1, by omega⟩
    simp only [deserializeLoop]
    cases hrec : deserializeRecord F out with
    | error e => cases e <;> rfl
    | ok r =>
      have hlt := deserializeRecord_lt hrec
      exact ih _ (by omega) (by omega)

/-- The rest of `deserializeDB` after the header. -/
def deserializeRecords (F : Codec) (out : Bytes) (d : Decoded) : Decoded :=
  deserializeLoop F (out.length + 1) out d

theorem deserializeRecords_error {out : Bytes} {e : ReadErr} (d : Decoded)
    (h : deserializeRecord F out = .error e) :
    deserializeRecords F out d =
      if e.isEof then d else { d with err := some (.record e) } := by
  simp only [deserializeRecords, deserializeLoop, h]
  cases e <;> rfl

theorem deserializeRecords_ok {out rest key : Bytes} {rec : Record} (d : Decoded)
    (h : deserializeRecord F out = .ok ((key, rec), rest)) :
    deserializeRecords F out d = deserializeRecords F rest
      { d with records := applyRecord d.records key rec, uncompacted := d.uncompacted + 1 } := by
  have hlt := deserializeRecord_lt h
  have hloop : deserializeRecords F out d = deserializeLoop F out.length rest
      { d with records := applyRecord d.records key rec, uncompacted := d.uncompacted + 1 } := by
    simp only [deserializeRecords, deserializeLoop, h]
  rw [hloop]
  exact deserializeLoop_fuel _ (by omega) (by omega)

@[simp] theorem deserializeRecords_nil (d : Decoded) : deserializeRecords F [] d = d :=
  deserializeRecords_error (e := .eof) d rfl

/-- The map that the entries leave, starting from `records`. -/
def replay (records : Records) (entries : List (Entry F)) : Records :=
  entries.foldl (fun records e => applyRecord records e.key ⟨e.val, e.seq⟩) records

/-- The bytes of the entries in their order. -/
def entriesBytes (entries : List (Entry F)) : Bytes := entries.flatMap Entry.bytes

@[simp] theorem entriesBytes_nil : entriesBytes ([] : List (Entry F)) = [] := rfl

@[simp] theorem entriesBytes_cons (e : Entry F) (entries : List (Entry F)) :
    entriesBytes (e :: entries) = e.bytes ++ entriesBytes entries := rfl

theorem entriesBytes_append (entries more : List (Entry F)) :
    entriesBytes (entries ++ more) = entriesBytes entries ++ entriesBytes more :=
  flatMap_append

/-- **Replay.**  In front of anything, the loop applies the entries in turn. -/
theorem deserializeRecords_entries (hF : F.RoundTrips) (entries : List (Entry F)) (rest : Bytes)
    (d : Decoded) :
    deserializeRecords F (entriesBytes entries ++ rest) d = deserializeRecords F rest
      { d with records := replay d.records entries
               uncompacted := d.uncompacted + entries.length } := by
  induction entries generalizing d with
  | nil => rfl
  | cons e entries ih =>
    rw [entriesBytes_cons, append_assoc,
      deserializeRecords_ok d (e.deserializeRecord_append hF _), ih, length_cons,
      Nat.add_right_comm, Nat.add_assoc]
    rfl

/-- A file of the package: the header and the entries. -/
def dbFile (version : UInt64) (entries : List (Entry F)) : Bytes :=
  serializeHeader version ++ entriesBytes entries

theorem splits_readVersion (version : UInt64) :
    Splits ReadErr.isEof readVersion (u32 curVersion ++ u64 version) version
      (fun m => m = 0 ∨ m = 4) := by
  have hver : ¬ (curVersion = 0 ∨ curVersion > curVersion) := by decide
  have huser : Splits ReadErr.isEof
      (if curVersion = 0 ∨ curVersion > curVersion then throw (.badDbVersion curVersion)
        else if curVersion ≥ 2 then readUInt64 else return 0 : Reader ReadErr UInt64)
      (u64 version) version (fun m => m = 0) := by
    exact splits_readUInt64 version
  refine ((splits_readUInt32 curVersion).bind huser).congr ?_
  intro m _
  rw [length_u32]
  split <;> omega

/-- The magic number of a file is its own. -/
theorem deserializeHeader_magic (rest : Bytes) :
    deserializeHeader (u32 dbMagic ++ rest) = readVersion rest := by
  rw [deserializeHeader, (splits_readUInt32 dbMagic).full]
  exact if_neg (fun h => h rfl)

theorem deserializeHeader_append (version : UInt64) (rest : Bytes) :
    deserializeHeader (serializeHeader version ++ rest) = .ok (version, rest) :=
  (splits_readVersion version).full rest

theorem deserializeDB_header (version : UInt64) (rest : Bytes) :
    deserializeDB F (serializeHeader version ++ rest) =
      deserializeRecords F rest ⟨version, ∅, 0, none⟩ := by
  simp only [deserializeDB, deserializeHeader_append]
  rfl

/-- **A whole file is read without an error**, as its version and the replay of
its entries. -/
theorem deserializeDB_dbFile (hF : F.RoundTrips) (version : UInt64) (entries : List (Entry F)) :
    deserializeDB F (dbFile version entries) =
      ⟨version, replay ∅ entries, entries.length, none⟩ := by
  have hrest := deserializeRecords_entries hF entries [] ⟨version, ∅, 0, none⟩
  rw [append_nil, deserializeRecords_nil] at hrest
  rw [dbFile, deserializeDB_header, hrest]
  simp

end Replay

/-! ## A codec with both properties -/

/-- A stream of escaped bytes: `1, b` for each byte `b` and `0` at the end. -/
def inflateEscaped : Bytes → Except ReadErr (Bytes × Nat)
  | [] => .error .unexpectedEOF
  | [c] => if c = 0 then .ok ([], 1) else .error .unexpectedEOF
  | c :: b :: rest =>
    if c = 0 then .ok ([], 1)
    else (inflateEscaped rest).map (fun r => (b :: r.1, r.2 + 2))

def escaped : Codec where
  deflate := fun val => val.flatMap (fun b => [1, b]) ++ [0]
  inflate := inflateEscaped

theorem escaped_deflate_cons (b : UInt8) (val : Bytes) :
    escaped.deflate (b :: val) = 1 :: b :: escaped.deflate val := rfl

theorem escaped_roundTrips : escaped.RoundTrips where
  deflate_ne_nil := fun val => append_ne_nil_of_right_ne_nil _ (by decide)
  inflate_deflate := fun val => by
    induction val with
    | nil => rfl
    | cons b val ih =>
      change inflateEscaped (escaped.deflate val) = _ at ih
      show (inflateEscaped (escaped.deflate val)).map _ = _
      rw [ih]
      rfl

theorem escaped_reportsTruncation : escaped.ReportsTruncation := by
  intro val
  suffices h : ∀ m, m < (escaped.deflate val).length →
      inflateEscaped ((escaped.deflate val).take m) = .error .unexpectedEOF from
    fun m hm => ⟨_, h m hm, by decide⟩
  induction val with
  | nil =>
    intro m hm
    obtain rfl : m = 0 := by simpa [escaped] using hm
    rfl
  | cons b val ih =>
    intro m hm
    rw [escaped_deflate_cons] at hm ⊢
    match m with
    | 0 | 1 => rfl
    | m + 2 =>
      simp only [length_cons] at hm
      show (inflateEscaped ((escaped.deflate val).take m)).map _ = _
      rw [ih m (by omega)]
      rfl

end Sect.Database
