import SectProof.HubState

/-! # Programs in the hub

The hub gives the programs of one call one number.  A `Sync` returns the programs behind
the cursor of the manager that are not its own and whose calls it supports, at most about
a hundred of them: the batch is cut where the number changes, and the cursor moves to the
last number in it.

This module says what the parts of `Connect`, `Sync` and a restart do to the corpus
(`Adds`, `Serves`, `restart_spec`).
-/

open List Table

namespace Sect.Hub
variable {K : Type} [DecidableEq K]

/-! ## A batch -/

section Batch
variable {l : List (K × Rec)} {last : K × Rec}

omit [DecidableEq K] in
theorem take_batchEnd (maxSeq : Nat) (l : List (K × Rec)) :
    l.take (batchEnd maxSeq l) = l.take (maxRecords + 1) ++
      (l.drop (maxRecords + 1)).takeWhile fun e => e.2.seq = maxSeq := by
  rw [batchEnd, take_add]
  congr 1
  exact (prefix_iff_eq_take.mp (List.takeWhile_prefix _)).symm

omit [DecidableEq K] in
theorem drop_batchEnd (maxSeq : Nat) (l : List (K × Rec)) :
    l.drop (batchEnd maxSeq l) =
      (l.drop (maxRecords + 1)).dropWhile fun e => e.2.seq = maxSeq := by
  rw [batchEnd, ← drop_drop]
  nth_rewrite 2 [← takeWhile_append_dropWhile (p := fun e => decide (e.2.seq = maxSeq))
    (l := l.drop (maxRecords + 1))]
  rw [drop_left]

omit [DecidableEq K] in
/-- **A batch is what has a number up to the one of its last record.** -/
theorem batch_sorted (hsorted : l.Pairwise fun a b => a.2.seq ≤ b.2.seq)
    (hlast : l[maxRecords]? = some last) :
    (∀ e ∈ l.take (batchEnd last.2.seq l), e.2.seq ≤ last.2.seq) ∧
      ∀ e ∈ l.drop (batchEnd last.2.seq l), last.2.seq < e.2.seq := by
  obtain ⟨hlt, hget⟩ := List.getElem?_eq_some_iff.mp hlast
  have hsplit : l.take (maxRecords + 1) = l.take maxRecords ++ [last] := by
    rw [List.take_add_one, hlast]
    rfl
  have hwhole : l = l.take maxRecords ++ last :: l.drop (maxRecords + 1) := by
    conv_lhs => rw [← take_append_drop (maxRecords + 1) l, hsplit]
    simp
  rw [hwhole, pairwise_append] at hsorted
  obtain ⟨-, hafter, hbefore⟩ := hsorted
  rw [pairwise_cons] at hafter
  refine ⟨fun e he => ?_, fun e he => ?_⟩
  · rw [take_batchEnd, hsplit, mem_append, mem_append] at he
    rcases he with (hfirst | hsame) | htail
    · exact hbefore e hfirst last mem_cons_self
    · rw [mem_singleton.mp hsame]
    · have hseq : e.2.seq = last.2.seq := by simpa using mem_takeWhile_imp htail
      exact hseq.le
  · rw [drop_batchEnd] at he
    have hsub : ((l.drop (maxRecords + 1)).dropWhile fun e => e.2.seq = last.2.seq).Sublist
        (l.drop (maxRecords + 1)) := (dropWhile_suffix _).sublist
    cases hdrop : (l.drop (maxRecords + 1)).dropWhile fun e => e.2.seq = last.2.seq with
    | nil =>
      rw [hdrop] at he
      cases he
    | cons x rest =>
      rw [hdrop] at he hsub
      have hx : x.2.seq ≠ last.2.seq := by
        have hhead := head?_dropWhile_not (fun e => decide (e.2.seq = last.2.seq))
          (l.drop (maxRecords + 1))
        rw [hdrop] at hhead
        simpa using hhead
      have hlt : last.2.seq < x.2.seq :=
        lt_of_le_of_ne (hafter.1 x (hsub.mem mem_cons_self)) hx.symm
      rcases mem_cons.mp he with rfl | hrest
      · exact hlt
      · exact hlt.trans_le ((pairwise_cons.mp (hafter.2.sublist hsub)).1 e hrest)

/-- What a batch of the pending records serves: `sent` and `more` as `batch` returns
them, `cursor` the number up to which they are all in it. -/
structure Batched (records sent : List (K × Rec)) (cursor more : Nat) : Prop where
  nodup : (records.map Prod.fst).Nodup → (sent.map Prod.fst).Nodup
  sub : ∀ e ∈ sent, e ∈ records ∧ e.2.seq ≤ cursor
  all : ∀ e ∈ records, e.2.seq ≤ cursor → e ∈ sent
  complete : more = 0 → ∀ e ∈ records, e ∈ sent

omit [DecidableEq K] in
theorem batch_spec (sort : SliceSort K) {corpusSeq : Nat} {records : List (K × Rec)}
    (hbound : ∀ e ∈ records, e.2.seq ≤ corpusSeq) (hcap : records.length ≤ capRecords) :
    Batched records (batch sort corpusSeq records).1 (batch sort corpusSeq records).2.1
        (batch sort corpusSeq records).2.2 ∧
      (batch sort corpusSeq records).2.1 ≤ corpusSeq ∧
      ((batch sort corpusSeq records).2.1 = corpusSeq ∨
        ∃ e ∈ records, (batch sort corpusSeq records).2.1 = e.2.seq) := by
  rw [batch]
  by_cases hmany : records.length > maxRecords
  · have hperm := sort.perm records
    have hcapped : capped (sort.sort records) = sort.sort records := by
      rw [capped, if_neg (by rw [hperm.length_eq]; exact Nat.not_lt.mpr hcap)]
    have hlt : maxRecords < (sort.sort records).length := by rwa [hperm.length_eq]
    have hlast := getElem?_eq_getElem hlt
    rw [if_pos hmany]
    dsimp only
    rw [hcapped, hlast]
    dsimp only
    obtain ⟨hupto, hafter⟩ := batch_sorted (sort.sorted records) hlast
    have hmem : ∀ e, e ∈ sort.sort records ↔ e ∈ records := fun e => hperm.mem_iff
    have hlastMem : (sort.sort records)[maxRecords] ∈ records :=
      (hmem _).mp (getElem_mem hlt)
    refine ⟨⟨fun hnodup => ?_, fun e he => ?_, fun e he hle => ?_, fun hmore e he => ?_⟩,
      hbound _ hlastMem, .inr ⟨_, hlastMem, rfl⟩⟩
    · exact ((hperm.map Prod.fst).nodup_iff.mpr hnodup).sublist ((take_sublist _ _).map _)
    · exact ⟨(hmem e).mp (mem_of_mem_take he), hupto e he⟩
    · rw [← hmem, ← take_append_drop (batchEnd (sort.sort records)[maxRecords].2.seq
        (sort.sort records)) (sort.sort records)] at he
      rcases mem_append.mp he with hsent | hleft
      · exact hsent
      · exact absurd hle (Nat.not_le.mpr (hafter e hleft))
    · rw [take_of_length_le (by omega)]
      exact (hmem e).mpr he
  · rw [if_neg hmany]
    exact ⟨⟨id, fun e he => ⟨he, hbound e he⟩, fun e he _ => he, fun _ e he => he⟩, le_rfl,
      .inl rfl⟩

end Batch

/-! ## Serving a manager -/

/-- The step from `st` to `st'` serves the manager with the records `sent` and moves its
cursor. -/
structure Serves (name : String) (mgr : Manager K) (sent : List (K × Rec)) (cursor more : Nat)
    (st st' : State K) : Prop where
  corpusSeq : st'.corpusSeq = st.corpusSeq
  corpus : st'.corpus = st.corpus
  others : ∀ n, n ≠ name → st'.managers.lookup n = st.managers.lookup n
  self : st'.managers.lookup name = some { mgr with corpusSeq := cursor }
  forward : mgr.corpusSeq ≤ cursor ∧ cursor ≤ st.corpusSeq
  nodup : (sent.map Prod.fst).Nodup
  sound : ∀ e ∈ sent, st.corpus.lookup e.1 = some e.2 ∧
    pending mgr.corpusSeq mgr.corpus mgr.calls e = true ∧ e.2.seq ≤ cursor
  upTo : ∀ key rec, st.corpus.lookup key = some rec →
    pending mgr.corpusSeq mgr.corpus mgr.calls (key, rec) = true → rec.seq ≤ cursor →
      (key, rec) ∈ sent
  complete : more = 0 → ∀ key rec, st.corpus.lookup key = some rec →
    pending mgr.corpusSeq mgr.corpus mgr.calls (key, rec) = true → (key, rec) ∈ sent

/-- The number of programs pending for a manager. -/
def pendingCount (mgr : Manager K) (st : State K) : Nat :=
  st.corpus.count fun key rec => pending mgr.corpusSeq mgr.corpus mgr.calls (key, rec)

variable {name : String} {st : State K} {key : K} {rec : Rec}

/-- **`Sync` returns what is pending**, from a corpus of programs that can be parsed. -/
theorem pendingInputs_serves (draws : Draws K) {mgr : Manager K}
    (hmgr : st.managers.lookup name = some mgr) (hcursor : mgr.corpusSeq ≤ st.corpusSeq)
    (hrecords : ∀ key rec, st.corpus.lookup key = some rec →
      rec.seq ≤ st.corpusSeq ∧ (callSet rec.val).isSome)
    (hcap : pendingCount mgr st ≤ capRecords) :
    ∃ progs more sent cursor, (st.pendingInputs draws name mgr).2 = .ok (progs, more) ∧
      progs.map HubInput.prog = sent.map (fun e => e.2.val) ∧
      Serves name mgr sent cursor more st (st.pendingInputs draws name mgr).1 := by
  rw [State.pendingInputs]
  by_cases hend : mgr.corpusSeq = st.corpusSeq
  · rw [if_pos hend]
    have hnone : ∀ key rec, st.corpus.lookup key = some rec →
        pending mgr.corpusSeq mgr.corpus mgr.calls (key, rec) ≠ true := by
      intro key rec hrec hpending
      exact Nat.not_le.mpr (pending_iff.mp hpending).1 (hend ▸ (hrecords key rec hrec).1)
    exact ⟨[], 0, [], mgr.corpusSeq, rfl, rfl, rfl, rfl, fun _ _ => rfl, hmgr, ⟨le_rfl, hcursor⟩,
      nodup_nil, nofun, fun key rec hrec hpending => absurd hpending (hnone key rec hrec),
      fun _ key rec hrec hpending => absurd hpending (hnone key rec hrec)⟩
  · have hcollect : collect mgr.wantsInput (draws.records.list st.corpus) = .ok
        ((draws.records.list st.corpus).filter
          (pending mgr.corpusSeq mgr.corpus mgr.calls)) := by
      refine collect_eq_filter fun e he => wants_eq_pending _ _ _ ?_
      exact (hrecords e.1 e.2 (mem_list_iff.mp he)).2
    have hmem : ∀ e, e ∈ (draws.records.list st.corpus).filter
        (pending mgr.corpusSeq mgr.corpus mgr.calls) ↔ st.corpus.lookup e.1 = some e.2 ∧
          pending mgr.corpusSeq mgr.corpus mgr.calls e = true :=
      fun e => mem_filter.trans (and_congr_left' mem_list_iff)
    have hnodup : (((draws.records.list st.corpus).filter
        (pending mgr.corpusSeq mgr.corpus mgr.calls)).map Prod.fst).Nodup :=
      (((draws.records.perm st.corpus).map Prod.fst).nodup_iff.mpr st.corpus.nodup).sublist
        (filter_sublist.map _)
    have hlength : ((draws.records.list st.corpus).filter
        (pending mgr.corpusSeq mgr.corpus mgr.calls)).length ≤ capRecords := by
      rw [← countP_eq_length_filter, (draws.records.perm st.corpus).countP_eq]
      exact hcap
    rw [if_neg hend, hcollect]
    obtain ⟨hbatched, hle, hfrom⟩ := batch_spec draws.sort
      (fun e he => (hrecords e.1 e.2 ((hmem e).mp he).1).1) hlength
    refine ⟨_, _, (batch draws.sort st.corpusSeq ((draws.records.list st.corpus).filter
      (pending mgr.corpusSeq mgr.corpus mgr.calls))).1, _, rfl, ?_, rfl, rfl,
      fun n hn => lookup_modify_of_ne hn _ _, ?_, ⟨?_, hle⟩, hbatched.nodup hnodup,
      fun e he => ?_, fun key rec hrec hpending hseq => ?_, fun hmore key rec hrec hpending => ?_⟩
    · rw [map_map]
      rfl
    · rw [lookup_modify_self, hmgr]
      rfl
    · rcases hfrom with heq | ⟨e, he, heq⟩
      · exact hcursor.trans heq.ge
      · exact (pending_iff.mp ((hmem e).mp he).2).1.le.trans heq.ge
    · obtain ⟨hin, hseq⟩ := hbatched.sub e he
      exact ⟨((hmem e).mp hin).1, ((hmem e).mp hin).2, hseq⟩
    · exact hbatched.all (key, rec) ((hmem _).mpr ⟨hrec, hpending⟩) hseq
    · exact hbatched.complete hmore (key, rec) ((hmem _).mpr ⟨hrec, hpending⟩)

/-! ## Adding programs -/

/-- The step from `st` to `st'` makes programs of the inputs own programs of the manager,
and saves new ones with the current number. -/
structure Saves (hash : Program → K) (name : String) (inputs : List Program) (st st' : State K) :
    Prop where
  corpusSeq : st'.corpusSeq = st.corpusSeq
  found : ∀ key rec, st'.corpus.lookup key = some rec → st.corpus.lookup key = some rec ∨
    rec.seq = st.corpusSeq ∧ State.goodRecord hash key rec = true
  keep : ∀ key rec, st.corpus.lookup key = some rec → st'.corpus.lookup key = some rec
  others : ∀ n, n ≠ name → st'.managers.lookup n = st.managers.lookup n
  self : ∀ mgr, st.managers.lookup name = some mgr → ∃ corpus,
    st'.managers.lookup name = some { mgr with corpus := corpus } ∧
    ∀ key ∈ corpus, key ∈ mgr.corpus ∨ ∃ x ∈ inputs, hash x = key

namespace Saves
variable {hash : Program → K} {name : String} {st st' st'' : State K}

theorem refl (hash : Program → K) (name : String) (inputs : List Program) (st : State K) :
    Saves hash name inputs st st :=
  ⟨rfl, fun _ _ h => .inl h, fun _ _ h => h, fun _ _ => rfl,
    fun mgr hmgr => ⟨mgr.corpus, hmgr, fun _ h => .inl h⟩⟩

theorem trans {inputs inputs' : List Program} (h : Saves hash name inputs st st')
    (h' : Saves hash name inputs' st' st'') : Saves hash name (inputs ++ inputs') st st'' := by
  refine ⟨h'.corpusSeq.trans h.corpusSeq, fun key rec hrec => ?_,
    fun key rec hrec => h'.keep key rec (h.keep key rec hrec),
    fun n hn => (h'.others n hn).trans (h.others n hn), fun mgr hmgr => ?_⟩
  · rcases h'.found key rec hrec with hbefore | ⟨hseq, hgood⟩
    · exact h.found key rec hbefore
    · exact .inr ⟨hseq.trans h.corpusSeq, hgood⟩
  obtain ⟨corpus, hcorpus, hown⟩ := h.self mgr hmgr
  obtain ⟨corpus', hcorpus', hown'⟩ := h'.self _ hcorpus
  refine ⟨corpus', hcorpus', fun key hkey => ?_⟩
  rcases hown' key hkey with hbefore | ⟨x, hx, rfl⟩
  · refine (hown key hbefore).imp_right fun ⟨x, hx, heq⟩ => ⟨x, ?_, heq⟩
    exact mem_append_left _ hx
  · exact .inr ⟨x, mem_append_right _ hx, rfl⟩

theorem ownInput (hash : Program → K) (name : String) (x : Program) (st : State K) :
    Saves hash name [x] st (st.ownInput name (hash x)) := by
  refine ⟨rfl, fun _ _ h => .inl h, fun _ _ h => h,
    fun n hn => lookup_modify_of_ne hn _ _, fun mgr hmgr => ?_⟩
  refine ⟨insert (hash x) mgr.corpus, ?_, fun key hkey => ?_⟩
  · rw [State.ownInput, lookup_modify_self, hmgr]
    rfl
  · rcases Finset.mem_insert.mp hkey with rfl | hold
    · exact .inr ⟨x, mem_singleton_self x, rfl⟩
    · exact .inl hold

theorem addInput {x : Program} (hlimit : st.corpusSeq < 2 ^ 64)
    (h : st.addInput hash name x = some st') : Saves hash name [x] st st' := by
  rw [State.addInput] at h
  split at h
  · cases h
    exact refl hash name [x] st
  rename_i calls hcalls
  split at h
  · cases h
    exact refl hash name [x] st
  rename_i hfits
  have hown := ownInput hash name x st
  rw [State.saveInput] at h
  split at h
  · cases h
    exact hown
  rename_i hnew
  split at h
  · cases h
  rename_i hnotLast
  cases h
  have hgood : State.goodRecord hash (hash x) ⟨x, st.corpusSeq⟩ = true := by
    have hlt : st.corpusSeq < seqDeleted := by
      have hne : st.corpusSeq ≠ seqDeleted := hnotLast
      rw [seqDeleted] at hne ⊢
      omega
    rw [State.goodRecord, hcalls]
    exact decide_eq_true ⟨Nat.not_lt.mp hfits, rfl, hlt⟩
  refine ⟨rfl, fun key rec hrec => ?_, fun key rec hrec => ?_, hown.others, hown.self⟩
  · rw [lookup_insert] at hrec
    split at hrec
    · rename_i hkey
      cases hrec
      exact Or.inr ⟨rfl, hkey ▸ hgood⟩
    · exact Or.inl hrec
  · rw [lookup_insert_of_ne]
    · exact hrec
    · rintro rfl
      exact hnew (Option.isSome_iff_exists.mpr ⟨rec, hrec⟩)

theorem foldl {inputs : List Program} (hlimit : st.corpusSeq < 2 ^ 64)
    (h : inputs.foldlM (State.addInput hash name) st = some st') :
    Saves hash name inputs st st' := by
  induction inputs generalizing st with
  | nil =>
    obtain rfl := Option.some.inj h
    exact refl hash name [] st
  | cons x rest ih =>
    obtain ⟨u, hu, hrest⟩ := Option.bind_eq_some_iff.mp h
    have hfirst := addInput hlimit hu
    exact hfirst.trans (ih (hfirst.corpusSeq ▸ hlimit) hrest)

end Saves

/-- **New programs get a number that no cursor has reached.** -/
structure Adds (hash : Program → K) (name : String) (inputs : List Program) (st st' : State K) :
    Prop where
  corpusSeq : st.corpusSeq ≤ st'.corpusSeq
  found : ∀ key rec, st'.corpus.lookup key = some rec → st.corpus.lookup key = some rec ∨
    st.corpusSeq < rec.seq ∧ rec.seq ≤ st'.corpusSeq ∧ State.goodRecord hash key rec = true
  keep : ∀ key rec, st.corpus.lookup key = some rec → st'.corpus.lookup key = some rec
  others : ∀ n, n ≠ name → st'.managers.lookup n = st.managers.lookup n
  self : ∀ mgr, st.managers.lookup name = some mgr → ∃ corpus,
    st'.managers.lookup name = some { mgr with corpus := corpus } ∧
    ∀ key ∈ corpus, key ∈ mgr.corpus ∨ ∃ x ∈ inputs, hash x = key

theorem addInputs_adds {hash : Program → K} {inputs : List Program} {st' : State K}
    (hlimit : inputs ≠ [] → st.corpusSeq + 1 < 2 ^ 64)
    (h : st.addInputs hash name inputs = some st') : Adds hash name inputs st st' := by
  rw [State.addInputs] at h
  split at h
  · cases h
    have hsame := Saves.refl hash name inputs st
    exact ⟨le_rfl, fun _ _ hrec => Or.inl hrec, hsame.keep, hsame.others, hsame.self⟩
  rename_i hne
  have hnext : nextSeq st.corpusSeq = st.corpusSeq + 1 := Nat.mod_eq_of_lt (hlimit hne)
  obtain ⟨hseq, hfound, hkeep, hothers, hself⟩ :=
    Saves.foldl (hnext ▸ hlimit hne : nextSeq st.corpusSeq < 2 ^ 64) h
  dsimp only at hseq
  refine ⟨by omega, fun key rec hrec => ?_, hkeep, hothers, hself⟩
  rcases hfound key rec hrec with hbefore | ⟨heq, hgood⟩
  · exact .inl hbefore
  · dsimp only at heq
    exact .inr ⟨by omega, by omega, hgood⟩

/-! ## Purges -/

/-- The keys that are in the first corpus and not in the second. -/
def purgedKeys (corpus corpus' : Table K Rec) : List K :=
  (corpus.entries.map Prod.fst).filter fun key => (corpus'.lookup key).isNone

/-- The corpus after a step has no other records than before but those that `P` allows, and
what is not purged stays. -/
structure Purges (P : K → Rec → Prop) (purged : List K) (st st' : State K) : Prop where
  found : ∀ key rec, st'.corpus.lookup key = some rec → st.corpus.lookup key = some rec ∨ P key rec
  keep : ∀ key rec, st.corpus.lookup key = some rec → key ∉ purged →
    st'.corpus.lookup key = some rec

theorem lookup_purgeCorpus (h : st.purgeCorpus.corpus.lookup key = some rec) :
    st.corpus.lookup key = some rec := by
  rw [State.purgeCorpus, lookup_filter] at h
  exact (Option.filter_eq_some_iff.mp h).1

/-- A record that is not purged is as it was. -/
theorem lookup_of_notMem_purgedKeys {corpus corpus' : Table K Rec}
    (hrec : corpus.lookup key = some rec)
    (hsub : ∀ rec', corpus'.lookup key = some rec' → corpus.lookup key = some rec')
    (hkept : key ∉ purgedKeys corpus corpus') : corpus'.lookup key = some rec := by
  cases hrec' : corpus'.lookup key with
  | none =>
    refine absurd (mem_filter.mpr ⟨?_, by rw [hrec']; rfl⟩) hkept
    exact mem_map.mpr ⟨(key, rec), mem_entries_iff.mpr hrec, rfl⟩
  | some rec' => rw [← hsub rec' hrec', hrec]

section Sections
variable {hash : Program → K} {st st' : State K} {name : String}

/-- The part of `Sync` that deletes programs. -/
theorem deleteInputs_spec (name : String) (del : List K) (st : State K) :
    Purges (fun _ _ => False) (purgedKeys st.corpus (st.deleteInputs name del).corpus) st
        (st.deleteInputs name del) ∧
      (st.deleteInputs name del).corpusSeq = st.corpusSeq ∧
      (∀ n, n ≠ name → (st.deleteInputs name del).managers.lookup n = st.managers.lookup n) ∧
      ∀ mgr, st.managers.lookup name = some mgr → ∃ corpus ⊆ mgr.corpus,
        (st.deleteInputs name del).managers.lookup name = some { mgr with corpus := corpus } := by
  have hsub : ∀ key rec, (st.deleteInputs name del).corpus.lookup key = some rec →
      st.corpus.lookup key = some rec := by
    intro key rec hrec
    rw [State.deleteInputs] at hrec
    split at hrec
    · exact hrec
    · have hbefore := lookup_purgeCorpus hrec
      exact hbefore
  refine ⟨⟨fun key rec hrec => .inl (hsub key rec hrec), fun key rec hrec hkept =>
    lookup_of_notMem_purgedKeys hrec (hsub key) hkept⟩, ?_⟩
  rw [State.deleteInputs]
  split
  · exact ⟨rfl, fun _ _ => rfl, fun mgr hmgr => ⟨mgr.corpus, subset_rfl, hmgr⟩⟩
  · refine ⟨rfl, fun n hn => lookup_modify_of_ne hn _ _, fun mgr hmgr => ?_⟩
    refine ⟨mgr.corpus \ del.toFinset, Finset.sdiff_subset, ?_⟩
    rw [State.purgeCorpus, lookup_modify_self, hmgr]
    rfl

omit [DecidableEq K] in
theorem ensureManager_spec (name : String) (st : State K) :
    (st.ensureManager name).corpusSeq = st.corpusSeq ∧
      (st.ensureManager name).corpus = st.corpus ∧
      (∀ n, n ≠ name → (st.ensureManager name).managers.lookup n = st.managers.lookup n) ∧
      ∃ mgr, (st.ensureManager name).managers.lookup name = some mgr ∧
        (mgr.corpusSeq = 0 ∧ st.managers.lookup name = none ∨
          st.managers.lookup name = some mgr) := by
  rw [State.ensureManager]
  split
  · rename_i hsome
    obtain ⟨mgr, hmgr⟩ := Option.isSome_iff_exists.mp hsome
    exact ⟨rfl, rfl, fun _ _ => rfl, mgr, hmgr, .inr hmgr⟩
  · rename_i hnone
    refine ⟨Nat.max_zero _, rfl, fun n hn => ?_, _, lookup_insert_self _ _ _,
      .inl ⟨rfl, Option.not_isSome_iff_eq_none.mp hnone⟩⟩
    rw [State.createManager, lookup_insert_of_ne hn]

omit [DecidableEq K] in
/-- The first part of `Connect`: a manager that is new or connects fresh starts at the
beginning. -/
theorem connectManager_spec (name domain : String) (fresh : Bool) (calls : List CallName)
    (st : State K) :
    (st.connectManager name domain fresh calls).corpusSeq = st.corpusSeq ∧
      (st.connectManager name domain fresh calls).corpus = st.corpus ∧
      (∀ n, n ≠ name →
        (st.connectManager name domain fresh calls).managers.lookup n = st.managers.lookup n) ∧
      ∃ mgr, (st.connectManager name domain fresh calls).managers.lookup name = some mgr ∧
        mgr.connected = true ∧ mgr.calls = calls ∧ mgr.corpus = ∅ ∧
        (mgr.corpusSeq = 0 ∧ (fresh = true ∨ st.managers.lookup name = none) ∨
          fresh = false ∧ ∃ m, st.managers.lookup name = some m ∧ mgr.corpusSeq = m.corpusSeq) := by
  obtain ⟨hseq, hcorpus, hothers, m, hm, hcursor⟩ := ensureManager_spec name st
  rw [State.connectManager]
  refine ⟨hseq, hcorpus, fun n hn => ?_,
    State.connected (st.ensureManager name).reproSeq domain fresh calls m, ?_, rfl, rfl, rfl, ?_⟩
  · exact (lookup_modify_of_ne hn _ _).trans (hothers n hn)
  · rw [lookup_modify_self, hm]
    rfl
  · cases fresh with
    | true => exact .inl ⟨rfl, .inl rfl⟩
    | false =>
      exact hcursor.imp (fun hnew => ⟨hnew.1, .inr hnew.2⟩) fun hbefore => ⟨rfl, m, hbefore, rfl⟩

/-- The part of `Sync` before the manager is served: programs of it are deleted and
added. -/
structure Updates (hash : Program → K) (name : String) (add : List Program) (purged : List K)
    (mgr : Manager K) (own : Finset K) (st st' : State K) : Prop where
  corpusSeq : st.corpusSeq ≤ st'.corpusSeq
  found : ∀ key rec, st'.corpus.lookup key = some rec → st.corpus.lookup key = some rec ∨
    st.corpusSeq < rec.seq ∧ rec.seq ≤ st'.corpusSeq ∧ State.goodRecord hash key rec = true
  keep : ∀ key rec, st.corpus.lookup key = some rec → key ∉ purged →
    st'.corpus.lookup key = some rec
  others : ∀ n, n ≠ name → st'.managers.lookup n = st.managers.lookup n
  self : st'.managers.lookup name = some { mgr with corpus := own }
  own : ∀ key ∈ own, key ∈ mgr.corpus ∨ ∃ x ∈ add, hash x = key

theorem updates_of_addInputs {add : List Program} {del : List K} {mgr : Manager K}
    (hmgr : st.managers.lookup name = some mgr) (hlimit : add ≠ [] → st.corpusSeq + 1 < 2 ^ 64)
    (hadd : (st.deleteInputs name del).addInputs hash name add = some st') :
    ∃ own, Updates hash name add (purgedKeys st.corpus (st.deleteInputs name del).corpus) mgr own
      st st' := by
  obtain ⟨hpurges, hseq, hothers, hself⟩ := deleteInputs_spec name del st
  obtain ⟨hle, hfound, hkeep, hothers', hself'⟩ :=
    addInputs_adds (fun hne => hseq.symm ▸ hlimit hne) hadd
  rw [hseq] at hle hfound
  obtain ⟨own₁, hsub, hmgr₁⟩ := hself mgr hmgr
  obtain ⟨own₂, hmgr₂, hown⟩ := hself' _ hmgr₁
  refine ⟨own₂, hle, fun key rec hrec => ?_, fun key rec hrec hkept => ?_,
    fun n hn => (hothers' n hn).trans (hothers n hn), hmgr₂, fun key hkey => ?_⟩
  · exact (hfound key rec hrec).imp_left fun hold => (hpurges.found key rec hold).resolve_right id
  · exact hkeep key rec (hpurges.keep key rec hrec hkept)
  · exact (hown key hkey).imp_left fun hold => hsub hold

/-! ## Restarts -/

omit [DecidableEq K] in
/-- Loading the managers. -/
theorem foldl_createManager_spec (l : List (String × State.Files K)) (st : State K) :
    (l.foldl (fun st m => st.createManager m.1 m.2) st).corpus = st.corpus ∧
      st.corpusSeq ≤ (l.foldl (fun st m => st.createManager m.1 m.2) st).corpusSeq ∧
      (∀ n mgr, (l.foldl (fun st m => st.createManager m.1 m.2) st).managers.lookup n = some mgr →
        st.managers.lookup n = some mgr ∨ ∃ files, (n, files) ∈ l ∧
          mgr.corpusSeq = files.corpusSeq ∧ mgr.corpus = files.corpus ∧ mgr.connected = false ∧
          mgr.corpusSeq ≤ (l.foldl (fun st m => st.createManager m.1 m.2) st).corpusSeq) ∧
      ∀ n, (l.foldl (fun st m => st.createManager m.1 m.2) st).managers.lookup n = none →
        st.managers.lookup n = none ∧ ∀ files, (n, files) ∉ l := by
  induction l generalizing st with
  | nil => exact ⟨rfl, le_rfl, fun n mgr hmgr => .inl hmgr, fun n hnone => ⟨hnone, nofun⟩⟩
  | cons m l ih =>
    obtain ⟨hcorpus, hseq, hmgrs, hnone⟩ := ih (st.createManager m.1 m.2)
    refine ⟨hcorpus, (Nat.le_max_left _ _).trans hseq, fun n mgr hmgr => ?_, fun n hn => ?_⟩
    · rcases hmgrs n mgr hmgr with hbefore | ⟨files, hfiles, hrest⟩
      · rw [State.createManager, lookup_insert] at hbefore
        split at hbefore
        · rename_i hname
          cases hbefore
          refine .inr ⟨m.2, hname ▸ mem_cons_self, rfl, rfl, rfl, ?_⟩
          exact (Nat.le_max_right _ _).trans hseq
        · exact .inl hbefore
      · exact .inr ⟨files, mem_cons_of_mem _ hfiles, hrest⟩
    · obtain ⟨hbefore, hrest⟩ := hnone n hn
      rw [State.createManager, lookup_insert] at hbefore
      split at hbefore
      · cases hbefore
      · rename_i hname
        refine ⟨hbefore, fun files hmem => ?_⟩
        rcases mem_cons.mp hmem with heq | htail
        · exact hname (congrArg Prod.fst heq)
        · exact hrest files htail

omit [DecidableEq K] in
theorem mem_disk_managers {n : String} {files : State.Files K} :
    (n, files) ∈ st.disk.managers ↔ ∃ mgr, st.managers.lookup n = some mgr ∧
      files = ⟨mgr.corpusSeq, mgr.reproSeqFile, mgr.domain, mgr.corpus⟩ := by
  rw [State.disk, mem_map]
  constructor
  · rintro ⟨⟨n', mgr⟩, hmem, heq⟩
    obtain ⟨rfl, rfl⟩ := Prod.mk.inj heq
    exact ⟨mgr, mem_entries_iff.mp ((perm_insertionSort _ _).mem_iff.mp hmem), rfl⟩
  · rintro ⟨mgr, hmgr, rfl⟩
    exact ⟨(n, mgr), (perm_insertionSort _ _).mem_iff.mpr
      (mem_entries_iff.mpr hmgr), rfl⟩

/-- **A restart keeps what is delivered from**: the records, unless they are purged, and the
cursor and the programs of every manager. -/
theorem restart_spec (hash : Program → K) (st : State K) :
    Purges (fun _ _ => False) (purgedKeys st.corpus (st.restart hash).corpus) st
        (st.restart hash) ∧
      (∀ key rec, (st.restart hash).corpus.lookup key = some rec →
        rec.seq ≤ (st.restart hash).corpusSeq) ∧
      (∀ n mgr, (st.restart hash).managers.lookup n = some mgr →
        mgr.corpusSeq ≤ (st.restart hash).corpusSeq ∧ mgr.connected = false ∧
          ∃ m, st.managers.lookup n = some m ∧ mgr.corpusSeq = m.corpusSeq ∧
            mgr.corpus = m.corpus) ∧
      ∀ n, (st.restart hash).managers.lookup n = none → st.managers.lookup n = none := by
  obtain ⟨hcorpus, hseq, hmgrs, hnone⟩ :=
    foldl_createManager_spec st.disk.managers (.loadDBs hash st.disk)
  have hload : ∀ key rec, (st.restart hash).corpus.lookup key = some rec →
      (State.loadDB hash st.corpus).1.lookup key = some rec := by
    intro key rec hrec
    have hbefore := lookup_purgeCorpus hrec
    rwa [hcorpus] at hbefore
  have hsub : ∀ key rec, (st.restart hash).corpus.lookup key = some rec →
      st.corpus.lookup key = some rec := by
    intro key rec hrec
    have hkept := hload key rec hrec
    rw [State.loadDB, lookup_filter] at hkept
    exact (Option.filter_eq_some_iff.mp hkept).1
  refine ⟨⟨fun key rec hrec => Or.inl (hsub key rec hrec), fun key rec hrec hkept =>
    lookup_of_notMem_purgedKeys hrec (hsub key) hkept⟩, fun key rec hrec => ?_,
    fun n mgr hmgr => ?_, fun n hn => ?_⟩
  · exact (loadDB_records (hload key rec hrec)).1.trans hseq
  · rcases hmgrs n mgr hmgr with hempty | ⟨files, hfiles, hcursor, hown, hconn, hle⟩
    · cases hempty
    · obtain ⟨m, hm, rfl⟩ := mem_disk_managers.mp hfiles
      exact ⟨hle, hconn, m, hm, hcursor, hown⟩
  · have hmissing := (hnone n hn).2
    cases hm : st.managers.lookup n with
    | none => rfl
    | some m => exact absurd (mem_disk_managers.mpr ⟨m, hm, rfl⟩) (hmissing _)

end Sections

end Sect.Hub
