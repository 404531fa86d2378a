import SectProof.DatabaseFile
import SectProof.StepRuns

/-!
# The database refines a map

The database answers from the map in memory; the file and the pending buffer
have to follow it through appends, overwrites, deletions, compactions and
reopening.  The invariant is `Mirrored`: the file is the header of the current
version and a list of entries, the buffer is a second list of entries, and
replaying both gives the map.  Each operation extends one of the lists or
rewrites the first, so the file followed by the buffer always decodes to what is
in memory, and after a `Flush` the file alone does.
-/

open List

namespace Sect.Database

/-- An open database with the contents of its file; `pending` is `none` while no
buffer is allocated. -/
structure Db where
  version : UInt64
  records : Records
  file : Bytes
  uncompacted : Nat
  pending : Option Bytes

/-- An order in which one loop over a map visits it. -/
structure RangeOrder where
  list : Records → List (Bytes × Record)
  perm : ∀ records, (list records).Perm records.toList

/-- The loop of `compact` over the records. -/
def serializeRecords (F : Codec) : List (Bytes × Record) → Option Bytes
  | [] => some []
  | (key, rec) :: rest => do
      let bs ← serializeRecord F key rec.val rec.seq
      let more ← serializeRecords F rest
      return bs ++ more

/-- What `Open` does: it panics, it returns an error and no database, or it
returns a database, with the error that a repair passed over. -/
inductive Opened
  | panics
  | refused (err : DbErr)
  | opened (db : Db) (err : Option DbErr)

namespace Db

def compact (F : Codec) (order : RangeOrder) (db : Db) : Option Db := do
  let bs ← serializeRecords F (order.list db.records)
  return { db with file := serializeHeader db.version ++ bs
                   uncompacted := db.records.size
                   pending := none }

/-- `serialize` allocates the pending buffer when there is none. -/
def serialize (F : Codec) (db : Db) (key val : Bytes) (seq : UInt64) : Option Db := do
  let bs ← serializeRecord F key val seq
  return { db with pending := some (db.pending.getD [] ++ bs) }

def save (F : Codec) (db : Db) (key val : Bytes) (seq : UInt64) : Option Db :=
  if seq = seqDeleted then none
  else if db.records[key]? = some ⟨val, seq⟩ then some db
  else do
    let db ← serialize F { db with records := db.records.insert key ⟨val, seq⟩ } key val seq
    return { db with uncompacted := db.uncompacted + 1 }

def delete (F : Codec) (db : Db) (key : Bytes) : Option Db :=
  if db.records[key]? = none then some db
  else do
    let db ← serialize F { db with records := db.records.erase key } key [] seqDeleted
    return { db with uncompacted := db.uncompacted + 1 }

def flush (F : Codec) (order : RangeOrder) (db : Db) : Option Db :=
  if db.uncompacted / 10 * 9 > db.records.size then compact F order db
  else
    match db.pending with
    | none => some db
    | some bs => some { db with file := db.file ++ bs, pending := none }

def bumpVersion (F : Codec) (order : RangeOrder) (db : Db) (version : UInt64) : Option Db :=
  if db.version = version then flush F order db
  else compact F order { db with version := version }

end Db

/-- The database as `Open` fills it from the file, before it compacts it. -/
def Db.decoded (content : Bytes) (d : Decoded) : Db :=
  ⟨d.version, d.records, content, d.uncompacted, none⟩

/-- `Open` of a file with the given contents. -/
def openDb (F : Codec) (order : RangeOrder) (content : Bytes) (repair : Bool) : Opened :=
  match (deserializeDB F content).err, repair with
  | some err, false => .refused err
  | err, _ =>
    match (Db.decoded content (deserializeDB F content)).compact F order with
    | none => .panics
    | some db => .opened db err

theorem openDb_refused {F : Codec} {order : RangeOrder} {content : Bytes} {err : DbErr}
    (herr : (deserializeDB F content).err = some err) :
    openDb F order content false = .refused err := by
  unfold openDb
  rw [herr]

/-- What a user of the database does with it.  Reopening drops what is still
pending. -/
inductive Op
  | save (key val : Bytes) (seq : UInt64)
  | delete (key : Bytes)
  | flush (order : RangeOrder)
  | bumpVersion (order : RangeOrder) (version : UInt64)
  | reopen (order : RangeOrder) (repair : Bool)

/-- One operation; `none` when the process panics or `Open` returns no
database. -/
def Db.step (F : Codec) (db : Db) : Op → Option Db
  | .save key val seq => db.save F key val seq
  | .delete key => db.delete F key
  | .flush order => db.flush F order
  | .bumpVersion order version => db.bumpVersion F order version
  | .reopen order repair =>
    match openDb F order db.file repair with
    | .opened db _ => some db
    | _ => none

/-! ## Rewriting the file -/

/-- A record whose lengths fit the fields of the file. -/
structure Fits (F : Codec) (key val : Bytes) : Prop where
  key_fits : key.length < 2 ^ 32
  val_fits : val ≠ [] → (F.deflate val).length < 2 ^ 32

section Compaction
variable {F : Codec}

/-- Every record of the map is one that the file can hold, and none is a
tombstone. -/
def Storable (F : Codec) (records : Records) : Prop :=
  ∀ key rec, records[key]? = some rec → rec.seq ≠ seqDeleted ∧ Fits F key rec.val

/-- The entry of a record that is not a tombstone. -/
def entryOf {key : Bytes} {rec : Record} (hseq : rec.seq ≠ seqDeleted)
    (hfits : Fits F key rec.val) : Entry F where
  key := key
  val := rec.val
  seq := rec.seq
  val_of_deleted := fun h => absurd h hseq
  key_fits := hfits.key_fits
  val_fits := hfits.val_fits

/-- The entry of a deletion. -/
def tombstone {key : Bytes} (hkey : key.length < 2 ^ 32) : Entry F where
  key := key
  val := []
  seq := seqDeleted
  val_of_deleted := fun _ => rfl
  key_fits := hkey
  val_fits := fun h => absurd rfl h

theorem replay_append (records : Records) (entries more : List (Entry F)) :
    replay records (entries ++ more) = replay (replay records entries) more :=
  foldl_append

variable {key : Bytes} {rec : Record} {records : Records}

theorem replay_entryOf (records : Records) (hseq : rec.seq ≠ seqDeleted)
    (hfits : Fits F key rec.val) : replay records [entryOf hseq hfits] = records.insert key rec :=
  if_neg hseq

/-- The loop of `compact` writes one entry for each record it visits. -/
theorem serializeRecords_entries (list : List (Bytes × Record))
    (hlist : ∀ p ∈ list, p.2.seq ≠ seqDeleted ∧ Fits F p.1 p.2.val) :
    ∃ entries : List (Entry F), serializeRecords F list = some (entriesBytes entries) ∧
      ∀ records, replay records entries =
        list.foldl (fun records p => records.insert p.1 p.2) records := by
  induction list with
  | nil => exact ⟨[], rfl, fun _ => rfl⟩
  | cons p list ih =>
    obtain ⟨hseq, hfits⟩ := hlist p mem_cons_self
    obtain ⟨entries, hbytes, hreplay⟩ := ih (fun q hq => hlist q (mem_cons_of_mem _ hq))
    have hentry := (entryOf hseq hfits).serializeRecord_eq
    refine ⟨entryOf hseq hfits :: entries, ?_, ?_⟩
    · change serializeRecord F p.1 p.2.val p.2.seq = _ at hentry
      show (serializeRecord F p.1 p.2.val p.2.seq).bind _ = _
      rw [hentry]
      rw [hbytes]
      rfl
    · intro records
      rw [← singleton_append, replay_append, replay_entryOf, hreplay]
      rfl

/-- What a loop of insertions with distinct keys leaves in a map. -/
theorem getElem?_foldl_insert {list : List (Bytes × Record)}
    (hkeys : list.Pairwise (fun p q => p.1 ≠ q.1)) (records : Records) (key : Bytes)
    (rec : Record) :
    (list.foldl (fun records p => records.insert p.1 p.2) records)[key]? = some rec ↔
      (key, rec) ∈ list ∨ records[key]? = some rec ∧ ∀ p ∈ list, p.1 ≠ key := by
  induction list generalizing records with
  | nil => simp
  | cons p list ih =>
    obtain ⟨hp, hkeys⟩ := pairwise_cons.mp hkeys
    rw [foldl_cons, ih hkeys, Std.ExtTreeMap.getElem?_insert]
    by_cases hkey : p.1 = key
    · subst hkey
      have hnot : ∀ rec', (p.1, rec') ∉ list := fun rec' hin => hp _ hin rfl
      have hne : ∀ q ∈ list, q.1 ≠ p.1 := fun q hq => (hp q hq).symm
      rw [if_pos Std.ReflCmp.compare_self]
      constructor
      · rintro (hin | ⟨hrec, -⟩)
        · exact absurd hin (hnot rec)
        · cases hrec
          exact .inl mem_cons_self
      · rintro (hin | ⟨-, hall⟩)
        · rcases mem_cons.mp hin with hhead | hin
          · exact .inr ⟨by rw [← hhead], hne⟩
          · exact absurd hin (hnot rec)
        · exact absurd rfl (hall p mem_cons_self)
    · have hne : (key, rec) ≠ p := fun h => hkey (congrArg Prod.fst h).symm
      simp [hkey, hne]

/-- In whatever order the loop visits the map, writing it out and replaying the
entries gives the map back. -/
theorem foldl_insert_order (order : RangeOrder) (records : Records) :
    (order.list records).foldl (fun records p => records.insert p.1 p.2) ∅ = records := by
  have hdistinct : records.toList.Pairwise (fun p q => p.1 ≠ q.1) :=
    Std.ExtTreeMap.distinct_keys_toList.imp (fun h he => h (by rw [he]; exact Std.ReflCmp.compare_self))
  have hkeys : (order.list records).Pairwise (fun p q => p.1 ≠ q.1) :=
    ((order.perm records).pairwise_iff .symm).mpr hdistinct
  refine Std.ExtTreeMap.ext_getElem? (fun key => ?_)
  refine Option.ext (fun rec => ?_)
  rw [getElem?_foldl_insert hkeys, (order.perm records).mem_iff,
    Std.ExtTreeMap.mem_toList_iff_getElem?_eq_some]
  simp

/-- Applying a record keeps a property of all records if the new one has it. -/
theorem forall_applyRecord {P : Bytes → Record → Prop}
    (hrecords : ∀ k (r : Record), records[k]? = some r → P k r)
    (hrec : rec.seq ≠ seqDeleted → P key rec) :
    ∀ k (r : Record), (applyRecord records key rec)[k]? = some r → P k r := by
  intro k r hr
  unfold applyRecord at hr
  split at hr
  · rw [Std.ExtTreeMap.getElem?_erase] at hr
    split at hr
    · cases hr
    · exact hrecords k r hr
  · next hseq =>
      rw [Std.ExtTreeMap.getElem?_insert] at hr
      split at hr
      · next hkey =>
          cases hr
          exact Std.LawfulEqCmp.eq_of_compare hkey ▸ hrec hseq
      · exact hrecords k r hr

/-- A replay leaves only records that entries can hold. -/
theorem storable_replay (hrecords : Storable F records) (entries : List (Entry F)) :
    Storable F (replay records entries) := by
  induction entries generalizing records with
  | nil => exact hrecords
  | cons e entries ih =>
    exact ih (forall_applyRecord hrecords (fun hseq => ⟨hseq, e.key_fits, e.val_fits⟩))

end Compaction

/-! ## The invariant -/

/-- The file holds the header of the version and entries, the pending buffer
holds more entries, and together they replay to the map. -/
structure Mirrored (F : Codec) (db : Db) : Prop where
  storable : Storable F db.records
  entries : ∃ written queued : List (Entry F),
    db.file = dbFile db.version written ∧ db.pending.getD [] = entriesBytes queued ∧
      replay ∅ (written ++ queued) = db.records

/-- `db'` has the map and the version of `db`, and all of it is in its file. -/
structure Settled (F : Codec) (db db' : Db) : Prop where
  mirrored : Mirrored F db'
  records : db'.records = db.records
  version : db'.version = db.version
  pending : db'.pending = none

/-! ## What each operation keeps -/

section Operations
variable {F : Codec} {db : Db}

/-- **The file followed by the buffer decodes to the map.** -/
theorem Mirrored.decodes (hF : F.RoundTrips) (h : Mirrored F db) :
    (deserializeDB F (db.file ++ db.pending.getD [])).version = db.version ∧
      (deserializeDB F (db.file ++ db.pending.getD [])).records = db.records ∧
      (deserializeDB F (db.file ++ db.pending.getD [])).err = none := by
  obtain ⟨written, queued, hfile, hpending, hreplay⟩ := h.entries
  have hall : db.file ++ db.pending.getD [] = dbFile db.version (written ++ queued) := by
    rw [hfile, hpending, dbFile, dbFile, entriesBytes_append, append_assoc]
  rw [hall, deserializeDB_dbFile hF]
  exact ⟨rfl, hreplay, rfl⟩

/-- Compaction writes out the map, whatever the file and the buffer held. -/
theorem compact_settled (hstorable : Storable F db.records) (order : RangeOrder) :
    ∃ db', db.compact F order = some db' ∧ Settled F db db' := by
  have hlist : ∀ p ∈ order.list db.records, p.2.seq ≠ seqDeleted ∧ Fits F p.1 p.2.val := by
    intro p hp
    have hin := (order.perm db.records).mem_iff.mp hp
    exact hstorable p.1 p.2 (Std.ExtTreeMap.mem_toList_iff_getElem?_eq_some.mp hin)
  obtain ⟨entries, hbytes, hreplay⟩ := serializeRecords_entries _ hlist
  refine ⟨{ db with file := serializeHeader db.version ++ entriesBytes entries
                    uncompacted := db.records.size
                    pending := none }, ?_, ?_, rfl, rfl, rfl⟩
  · rw [Db.compact, hbytes]
    rfl
  · refine ⟨hstorable, entries, [], rfl, rfl, ?_⟩
    rw [append_nil, hreplay, foldl_insert_order]

/-- Appending an entry to the buffer follows what the entry does to the map. -/
theorem Mirrored.append (h : Mirrored F db) (e : Entry F) (uncompacted : Nat) :
    Mirrored F { db with records := replay db.records [e]
                         pending := some (db.pending.getD [] ++ e.bytes)
                         uncompacted := uncompacted } := by
  obtain ⟨written, queued, hfile, hpending, hreplay⟩ := h.entries
  refine ⟨storable_replay h.storable [e], written, queued ++ [e], hfile, ?_, ?_⟩
  · show db.pending.getD [] ++ e.bytes = _
    rw [hpending, entriesBytes_append, entriesBytes_cons, entriesBytes_nil, append_nil]
  · rw [← append_assoc, replay_append, hreplay]

variable {key val bs : Bytes} {seq : UInt64} {order : RangeOrder}

theorem Db.save_eq (hseq : seq ≠ seqDeleted) (hnew : db.records[key]? ≠ some ⟨val, seq⟩)
    (hbytes : serializeRecord F key val seq = some bs) :
    db.save F key val seq =
      some { db with records := db.records.insert key ⟨val, seq⟩
                     pending := some (db.pending.getD [] ++ bs)
                     uncompacted := db.uncompacted + 1 } := by
  rw [Db.save, if_neg hseq, if_neg hnew, Db.serialize, hbytes]
  rfl

theorem Mirrored.save (h : Mirrored F db) (hseq : seq ≠ seqDeleted) (hfits : Fits F key val) :
    ∃ db', db.save F key val seq = some db' ∧ Mirrored F db' := by
  by_cases hsame : db.records[key]? = some ⟨val, seq⟩
  · exact ⟨db, by rw [Db.save, if_neg hseq, if_pos hsame], h⟩
  · have hrec : Fits F key (Record.mk val seq).val := hfits
    have hnext := h.append (entryOf hseq hrec) (db.uncompacted + 1)
    rw [replay_entryOf] at hnext
    exact ⟨_, Db.save_eq hseq hsame (entryOf hseq hrec).serializeRecord_eq, hnext⟩

theorem Mirrored.delete (h : Mirrored F db) (key : Bytes) :
    ∃ db', db.delete F key = some db' ∧ Mirrored F db' := by
  cases hrec : db.records[key]? with
  | none => exact ⟨db, if_pos hrec, h⟩
  | some rec =>
    have hkey := (h.storable key rec hrec).2.key_fits
    have hnext := h.append (tombstone hkey) (db.uncompacted + 1)
    have hbytes := (tombstone hkey : Entry F).serializeRecord_eq
    change serializeRecord F key [] seqDeleted = _ at hbytes
    refine ⟨_, ?_, hnext⟩
    rw [Db.delete, if_neg (by rw [hrec]; exact Option.some_ne_none rec), Db.serialize, hbytes]
    rfl

theorem Db.flush_eq (hfew : ¬ db.uncompacted / 10 * 9 > db.records.size)
    (hbuf : db.pending = some bs) :
    db.flush F order = some { db with file := db.file ++ bs, pending := none } := by
  rw [Db.flush, if_neg hfew, hbuf]

/-- A flush leaves everything in the file, by compaction or by appending. -/
theorem Mirrored.flush (h : Mirrored F db) (order : RangeOrder) :
    ∃ db', db.flush F order = some db' ∧ Settled F db db' := by
  obtain ⟨written, queued, hfile, hpending, hreplay⟩ := h.entries
  unfold Db.flush
  split
  · exact compact_settled h.storable order
  cases hbuf : db.pending with
  | none => exact ⟨db, rfl, h, rfl, rfl, hbuf⟩
  | some bs =>
    rw [hbuf] at hpending
    change bs = entriesBytes queued at hpending
    refine ⟨_, rfl, ⟨h.storable, written ++ queued, [], ?_, rfl, ?_⟩, rfl, rfl, rfl⟩
    · rw [hfile, hpending, dbFile, dbFile, entriesBytes_append, append_assoc]
    · rw [append_nil, hreplay]

theorem Mirrored.bumpVersion (h : Mirrored F db) (order : RangeOrder) (version : UInt64) :
    ∃ db', db.bumpVersion F order version = some db' ∧
      Settled F { db with version := version } db' := by
  unfold Db.bumpVersion
  split
  · next hver =>
      subst hver
      exact h.flush order
  · have hstorable : Storable F { db with version := version }.records := h.storable
    exact compact_settled hstorable order

/-- The loop of `deserializeDB` never stores a tombstone. -/
theorem deserializeLoop_seq (fuel : Nat) (out : Bytes) (d : Decoded)
    (hd : ∀ (key : Bytes) (rec : Record), d.records[key]? = some rec → rec.seq ≠ seqDeleted) :
    ∀ (key : Bytes) (rec : Record), (deserializeLoop F fuel out d).records[key]? = some rec →
      rec.seq ≠ seqDeleted := by
  induction fuel generalizing out d with
  | zero => exact hd
  | succ fuel ih =>
    rw [deserializeLoop]
    split
    · exact hd
    · exact hd
    · next rest _ => exact ih rest _ (forall_applyRecord hd id)

theorem deserializeDB_seq (content key : Bytes) (rec : Record)
    (h : (deserializeDB F content).records[key]? = some rec) : rec.seq ≠ seqDeleted := by
  unfold deserializeDB at h
  split at h
  · simp at h
  · exact deserializeLoop_seq _ _ _ (fun key rec hrec => by simp at hrec) key rec h

/-- **Opening** any file, repaired or not, sets the invariant up. -/
theorem mirrored_of_open {content : Bytes} {repair : Bool} {err : Option DbErr}
    (h : openDb F order content repair = .opened db err)
    (hfits : ∀ key rec, (deserializeDB F content).records[key]? = some rec → Fits F key rec.val) :
    Mirrored F db := by
  have hstorable : Storable F (Db.decoded content (deserializeDB F content)).records :=
    fun key rec hrec => ⟨deserializeDB_seq content key rec hrec, hfits key rec hrec⟩
  obtain ⟨db', hcompact, hsettled⟩ := compact_settled hstorable order
  unfold openDb at h
  rw [hcompact] at h
  split at h
  · cases h
  · cases h
    exact hsettled.mirrored

/-- **Reopening** reads the version and the entries that reached the file. -/
theorem Mirrored.reopen (hF : F.RoundTrips) (h : Mirrored F db) (order : RangeOrder)
    (repair : Bool) :
    ∃ db', openDb F order db.file repair = .opened db' none ∧ Mirrored F db' ∧
      (db.pending = none → db'.records = db.records ∧ db'.version = db.version) := by
  obtain ⟨written, queued, hfile, hpending, hreplay⟩ := h.entries
  have hempty : Storable F (∅ : Records) := fun key rec hrec => by simp at hrec
  have hwritten : Storable F
      (Db.decoded db.file ⟨db.version, replay ∅ written, written.length, none⟩).records :=
    storable_replay hempty written
  obtain ⟨db', hcompact, hsettled⟩ := compact_settled hwritten order
  refine ⟨db', ?_, hsettled.mirrored, ?_⟩
  · have hdecoded := deserializeDB_dbFile hF db.version written
    rw [← hfile] at hdecoded
    rw [← hdecoded] at hcompact
    have herr : (deserializeDB F db.file).err = none := by rw [hdecoded]
    unfold openDb
    rw [herr, hcompact]
  · intro hnone
    rw [hnone] at hpending
    have hqueued : queued = [] := by
      cases queued with
      | nil => rfl
      | cons e rest =>
        have hlen := congrArg List.length hpending
        rw [entriesBytes_cons, length_append, e.length_bytes] at hlen
        simp only [Option.getD_none, length_nil] at hlen
        omega
    rw [hqueued, append_nil] at hreplay
    exact ⟨hsettled.records.trans hreplay, hsettled.version⟩

end Operations

/-! ## Runs -/

/-- An operation that does not panic and whose record fits the file. -/
def Op.Admissible (F : Codec) : Op → Prop
  | .save key val seq => seq ≠ seqDeleted ∧ Fits F key val
  | _ => True

/-- The operations after which the whole map is in the file. -/
def Op.Writes : Op → Prop
  | .flush _ => True
  | .bumpVersion _ _ => True
  | _ => False

/-- The state of the database between two operations: the file and the buffer
decode to the map, and once an operation has written everything, opening the
file gives the same map and version. -/
structure Persistent (F : Codec) (db : Db) : Prop where
  decodes : (deserializeDB F (db.file ++ db.pending.getD [])).records = db.records
  sound : (deserializeDB F (db.file ++ db.pending.getD [])).err = none
  reopens : ∀ op : Op, op.Writes → ∃ after, db.step F op = some after ∧
    ∀ order repair, ∃ again, openDb F order after.file repair = .opened again none ∧
      again.records = after.records ∧ again.version = after.version

section Runs
variable {F : Codec} {db : Db}

/-- One operation keeps the invariant and succeeds. -/
theorem Mirrored.step (hF : F.RoundTrips) (h : Mirrored F db) {op : Op}
    (hop : op.Admissible F) : ∃ db', db.step F op = some db' ∧ Mirrored F db' := by
  cases op with
  | save key val seq => exact h.save hop.1 hop.2
  | delete key => exact h.delete key
  | flush order =>
    obtain ⟨db', hdb', hsettled⟩ := h.flush order
    exact ⟨db', hdb', hsettled.mirrored⟩
  | bumpVersion order version =>
    obtain ⟨db', hdb', hsettled⟩ := h.bumpVersion order version
    exact ⟨db', hdb', hsettled.mirrored⟩
  | reopen order repair =>
    obtain ⟨db', hopen, hmirrored, -⟩ := h.reopen hF order repair
    exact ⟨db', by rw [Db.step, hopen], hmirrored⟩

theorem Mirrored.run (hF : F.RoundTrips) (ops : List Op) (hops : ∀ op ∈ ops, op.Admissible F)
    (h : Mirrored F db) : ∃ db', StepRuns.run (Db.step F) db ops = some db' ∧ Mirrored F db' := by
  induction ops generalizing db with
  | nil => exact ⟨db, rfl, h⟩
  | cons op ops ih =>
    obtain ⟨mid, hmid, hmirrored⟩ := h.step hF (hops op mem_cons_self)
    obtain ⟨db', hrun, hdb'⟩ := ih (fun o ho => hops o (mem_cons_of_mem _ ho)) hmirrored
    refine ⟨db', ?_, hdb'⟩
    show (db.step F op).bind _ = _
    rw [hmid]
    exact hrun

theorem Mirrored.persistent (hF : F.RoundTrips) (h : Mirrored F db) : Persistent F db where
  decodes := (h.decodes hF).2.1
  sound := (h.decodes hF).2.2
  reopens := by
    intro op hop
    -- both writing operations leave a settled database, and those reopen as they are
    have hsettled : ∃ before after, db.step F op = some after ∧ Settled F before after := by
      cases op with
      | flush order => exact ⟨_, h.flush order⟩
      | bumpVersion order version => exact ⟨_, h.bumpVersion order version⟩
      | save key val seq | delete key | reopen order repair => exact hop.elim
    obtain ⟨before, after, hstep, hafter⟩ := hsettled
    refine ⟨after, hstep, ?_⟩
    intro order repair
    obtain ⟨again, hopen, -, hsame⟩ := hafter.mirrored.reopen hF order repair
    exact ⟨again, hopen, hsame hafter.pending⟩

end Runs

/-- **Persistence.**  From the database that `Open` returns for any file, every
sequence of operations whose keys and compressed values fit the 32-bit lengths
of the file runs, and leaves a persistent database. -/
theorem database_persistent (F : Codec) (hF : F.RoundTrips) (order : RangeOrder)
    (content : Bytes) (repair : Bool) (db : Db) (err : Option DbErr)
    (hopen : openDb F order content repair = .opened db err)
    (hfits : ∀ key rec, (deserializeDB F content).records[key]? = some rec → Fits F key rec.val)
    (ops : List Op) (hops : ∀ op ∈ ops, op.Admissible F) :
    ∃ db', StepRuns.run (Db.step F) db ops = some db' ∧ Persistent F db' := by
  obtain ⟨db', hrun, hmirrored⟩ := (mirrored_of_open hopen hfits).run hF ops hops
  exact ⟨db', hrun, hmirrored.persistent hF⟩

/-- A loop that visits a map in the order of its keys. -/
def keyOrder : RangeOrder := ⟨fun records => records.toList, fun _ => List.Perm.refl _⟩

/-- The database of a new file. -/
def newDb : Db := ⟨0, ∅, serializeHeader 0, 0, none⟩

theorem deserializeDB_nil (F : Codec) : deserializeDB F [] = ⟨0, ∅, 0, none⟩ := rfl

theorem openDb_nil (F : Codec) (repair : Bool) :
    openDb F keyOrder [] repair = .opened newDb none := by
  have hlist : keyOrder.list ∅ = [] := by decide
  have hcompact : (Db.decoded [] (deserializeDB F [])).compact F keyOrder = some newDb := by
    rw [deserializeDB_nil, Db.compact, Db.decoded, hlist]
    simp [serializeRecords, newDb]
  unfold openDb
  rw [hcompact, deserializeDB_nil]

/-- A record that is saved, flushed, deleted and read back as deleted. -/
theorem database_persistent_four :
    ∃ db', StepRuns.run (Db.step escaped) newDb
        [.save [1] [2, 3] 7, .flush keyOrder, .delete [1], .bumpVersion keyOrder 5,
          .reopen keyOrder false] = some db' ∧ Persistent escaped db' := by
  refine database_persistent escaped escaped_roundTrips keyOrder [] false newDb none
    (openDb_nil escaped false) ?_ _ ?_
  · intro key rec hrec
    rw [deserializeDB_nil] at hrec
    simp at hrec
  · intro op hop
    simp only [mem_cons, not_mem_nil, or_false] at hop
    rcases hop with rfl | rfl | rfl | rfl | rfl
    · exact ⟨by decide, by decide, fun _ => by decide⟩
    all_goals trivial

/-! ## A key that does not fit -/

/-- The entry that `serializeRecord` writes for a key of `n` zero bytes and an
empty value. -/
def longKeyBytes (n : Nat) : Bytes :=
  u32 recMagic ++ (u32 (UInt32.ofNat n) ++ (List.replicate n 0 ++ (u64 0 ++ u32 0)))

/-- A new database after such a record is saved and flushed. -/
def longKeyDb (n : Nat) : Db :=
  ⟨0, newDb.records.insert (List.replicate n 0) ⟨[], 0⟩, newDb.file ++ longKeyBytes n, 1, none⟩

theorem save_longKey (F : Codec) (n : Nat) :
    newDb.save F (List.replicate n 0) [] 0 =
      some { longKeyDb n with file := newDb.file, pending := some (longKeyBytes n) } := by
  have hseq : (0 : UInt64) ≠ seqDeleted := by decide
  have hnew : newDb.records[List.replicate n (0 : UInt8)]? ≠ some ⟨[], 0⟩ := by
    simp [newDb]
  have hbytes : serializeRecord F (List.replicate n 0) [] 0 = some (longKeyBytes n) := by
    rw [serializeRecord, if_neg hseq, length_replicate, serializeValue, if_pos rfl,
      longKeyBytes]
  have hpending : newDb.pending.getD [] ++ longKeyBytes n = longKeyBytes n := nil_append _
  rw [Db.save_eq hseq hnew hbytes, hpending]
  rfl

theorem run_longKey (F : Codec) (n : Nat) :
    StepRuns.run (Db.step F) newDb [.save (List.replicate n 0) [] 0, .flush keyOrder] =
      some (longKeyDb n) := by
  have hflush : Db.flush F keyOrder
      { longKeyDb n with file := newDb.file, pending := some (longKeyBytes n) } =
        some (longKeyDb n) := Db.flush_eq (by simp [longKeyDb]) rfl
  show (newDb.save F (List.replicate n 0) [] 0).bind _ = _
  rw [save_longKey]
  show (Db.flush F keyOrder _).bind _ = _
  rw [hflush]
  rfl

/-- The record with an empty key, an empty value and sequence number zero. -/
def blankEntry (F : Codec) : Entry F where
  key := []
  val := []
  seq := 0
  val_of_deleted := fun _ => rfl
  key_fits := by decide
  val_fits := fun h => absurd rfl h

theorem blankEntry_bytes (F : Codec) :
    (blankEntry F).bytes = u32 recMagic ++ (u32 0 ++ (u64 0 ++ u32 0)) := by
  have hseq : (blankEntry F).seq ≠ seqDeleted := by
    show (0 : UInt64) ≠ seqDeleted
    decide
  rfl

/-- A key whose length wraps to zero reads as the rest of a blank record and then
more zeros. -/
theorem longKeyBytes_wraps (F : Codec) {n : Nat} (hn : (n + 16) % 2 ^ 32 = 0) :
    longKeyBytes (n + 16) = entriesBytes [blankEntry F] ++
      (u32 0 ++ (List.replicate n 0 ++ (u64 0 ++ u32 0))) := by
  have hzero : UInt32.ofNat (n + 16) = 0 := by
    apply UInt32.toNat_inj.mp
    rw [UInt32.toNat_ofNat', hn]
    rfl
  have hsplit : List.replicate (n + 16) (0 : UInt8) =
      (u64 0 ++ u32 0) ++ (u32 0 ++ List.replicate n 0) := by
    have h64 : u64 0 = List.replicate 8 0 := by decide
    have h32 : u32 0 = List.replicate 4 0 := by decide
    rw [h64, h32, ← replicate_add, ← replicate_add, ← replicate_add]
    congr 1
    omega
  rw [longKeyBytes, hzero, hsplit, entriesBytes_cons, entriesBytes_nil, blankEntry_bytes]
  simp

/-- The zeros behind the blank record are no magic number. -/
theorem deserializeDB_longKey (F : Codec) (hF : F.RoundTrips) {n : Nat}
    (hn : (n + 16) % 2 ^ 32 = 0) :
    (deserializeDB F (longKeyDb (n + 16)).file).err =
      some (.record (.badRecordHeader 0)) := by
  have hmagic : (0 : UInt32) ≠ recMagic := by decide
  have hbad : deserializeRecord F (u32 0 ++ (List.replicate n 0 ++ (u64 0 ++ u32 0))) =
      .error (.badRecordHeader 0) := by
    rfl
  rw [longKeyDb, longKeyBytes_wraps F hn, newDb, deserializeDB_header,
    deserializeRecords_entries hF, deserializeRecords_error _ hbad, if_neg (by decide)]

/-- **A key of `2 ^ 32` bytes is lost**: its length is stored as zero, and the
flushed file no longer opens. -/
theorem database_longKey :
    ∃ db', StepRuns.run (Db.step escaped) newDb
        [.save (List.replicate (4294967280 + 16) 0) [] 0, .flush keyOrder] = some db' ∧
      ¬ Persistent escaped db' ∧
      openDb escaped keyOrder db'.file false = .refused (.record (.badRecordHeader 0)) := by
  have herr := deserializeDB_longKey escaped escaped_roundTrips (n := 4294967280) (by decide)
  refine ⟨longKeyDb (4294967280 + 16), run_longKey escaped (4294967280 + 16), ?_, ?_⟩
  · intro h
    have hsound := h.sound
    rw [show (longKeyDb (4294967280 + 16)).pending.getD [] = [] from rfl, append_nil,
      herr] at hsound
    cases hsound
  · exact openDb_refused herr

end Sect.Database
