import SectProof.DuplicatedCalls

/-! # Schedule collide

`DupCallSchedCollide` puts an async duplicate in front of two calls of a program,
and `ValidateAsyncCall`, which runs before every execution, keeps the first two
async calls and makes all others synchronous.  **`schedCollide_iff`** says when
the two duplicates are what is left, and that the result is valid then.
-/

open List ErrorChecks Nat

namespace Sect.Program

open Call RefGraph

def concurrCallSize : Nat := 2

def maxCalls : Nat := 40

inductive CollideError
  | tooSmall
  | tooLarge
  | panic (panic : Panic)
  deriving DecidableEq, Repr

/-- The loop of `DupCallSchedCollide` from the call number `i` on. -/
def duplicateCalls (positions : List Nat) : Nat → Store → List Call → List Call × Store
  | _, s, [] => ([], s)
  | i, s, c :: calls =>
    if i ∈ positions then
      let (dupCall, s) := cloneCall s c
      let (calls, s) := duplicateCalls positions (i + 1) s calls
      (dupCall.setAsync true :: c :: calls, s)
    else
      let (calls, s) := duplicateCalls positions (i + 1) s calls
      (c :: calls, s)

/-- `DupCallSchedCollide`; `perm` is the value of `rand.Perm(len(origProg.Calls))`. -/
def dupCallSchedCollide (s : Store) (p : Prog) (perm : List Nat) :
    Except CollideError (Prog × Store) :=
  if p.calls.length < concurrCallSize then .error .tooSmall
  else if maxCalls < p.calls.length + concurrCallSize then .error .tooLarge
  else
    match p.clone s with
    | .error panic => .error (.panic panic)
    | .ok (prog, s) =>
      let (calls, s) := duplicateCalls (perm.take concurrCallSize) 0 s prog.calls
      .ok (⟨calls⟩, s)

/-- The loop of `ValidateAsyncCall`. -/
def keepAsync : Nat → List Call → List Call
  | _, [] => []
  | asyncCounter, c :: calls =>
    if concurrCallSize ≤ asyncCounter then c.setAsync false :: keepAsync asyncCounter calls
    else c :: keepAsync (if c.props.async then asyncCounter + 1 else asyncCounter) calls

def validateAsyncCall (s : Store) (p : Prog) : Except Panic (Prog × Store) :=
  if p.calls.length < concurrCallSize then pure (p, s)
  else do
    let (prog, s) ← p.clone s
    pure (⟨keepAsync 0 prog.calls⟩, s)

/-! ## The loops -/

section Loops

variable {positions : List Nat}

theorem duplicateCalls_none (l : List Call) : ∀ (i : Nat) (s : Store),
    (∀ k, i ≤ k → k < i + l.length → k ∉ positions) → ∀ r,
    duplicateCalls positions i s (l ++ r) =
      (l ++ (duplicateCalls positions (i + l.length) s r).1,
        (duplicateCalls positions (i + l.length) s r).2) := by
  induction l with
  | nil =>
    intro i s _ r
    rfl
  | cons c l ih =>
    intro i s hnot r
    have hi : i ∉ positions := hnot i (le_refl _) (by simp)
    have hlen : i + (c :: l).length = i + 1 + l.length := by
      simp only [length_cons]
      omega
    rw [hlen] at hnot ⊢
    rw [cons_append, duplicateCalls, if_neg hi,
      ih (i + 1) s (fun k hk hk' => hnot k (by omega) hk') r]
    rfl

theorem duplicateCalls_pos {i : Nat} (hi : i ∈ positions) (s : Store) (c : Call) (l : List Call) :
    duplicateCalls positions i s (c :: l) =
      ((cloneCall s c).1.setAsync true :: c ::
          (duplicateCalls positions (i + 1) (cloneCall s c).2 l).1,
        (duplicateCalls positions (i + 1) (cloneCall s c).2 l).2) := by
  rw [duplicateCalls, if_pos hi]

/-- The two duplicates, one made after the other. -/
theorem duplicateCalls_two {before between after : List Call} {cA cB : Call}
    (hpos : ∀ k, k ∈ positions ↔ k = before.length ∨ k = before.length + 1 + between.length)
    (s : Store) :
    duplicateCalls positions 0 s (before ++ cA :: (between ++ cB :: after)) =
      (before ++ (cloneCall s cA).1.setAsync true :: cA :: (between ++
          (cloneCall (cloneCall s cA).2 cB).1.setAsync true :: cB :: after),
        (cloneCall (cloneCall s cA).2 cB).2) := by
  have hlast := @duplicateCalls_none positions after (before.length + 1 + between.length + 1)
    (cloneCall (cloneCall s cA).2 cB).2 (by
      intro k hk _
      rw [hpos]
      omega) []
  rw [append_nil] at hlast
  rw [duplicateCalls_none before 0 s (by
      intro k _ hk
      rw [hpos]
      omega), zero_add, duplicateCalls_pos ((hpos _).mpr (.inl rfl)),
    duplicateCalls_none between _ _ (by
      intro k hk hk'
      rw [hpos]
      omega), duplicateCalls_pos ((hpos _).mpr (.inr rfl)), hlast]
  simp [duplicateCalls]

/-- The first two elements of a permutation of the positions. -/
theorem take_two_perm {perm : List Nat} {n : Nat} (h : perm.Perm (List.range n)) (hn : 2 ≤ n) :
    ∃ a b, a < b ∧ b < n ∧ ∀ k, k ∈ perm.take concurrCallSize ↔ k = a ∨ k = b := by
  have hlen : perm.length = n := h.length_eq.trans length_range
  have hnodup : perm.Nodup := h.nodup_iff.mpr nodup_range
  have hlt : ∀ k ∈ perm, k < n := fun k hk => mem_range.mp (h.mem_iff.mp hk)
  match perm, hlen, hnodup, hlt with
  | [], hlen, _, _ | [_], hlen, _, _ => simp at hlen; omega
  | i :: j :: rest, _, hnodup, hlt =>
    have hne : i ≠ j := by
      rintro rfl
      simp at hnodup
    have hi := hlt i (by simp)
    have hj := hlt j (by simp)
    rcases lt_or_gt_of_ne hne with hij | hij
    · exact ⟨i, j, hij, hj, fun k => by simp [concurrCallSize]⟩
    · exact ⟨j, i, hij, hi, fun k => by simp [concurrCallSize, or_comm]⟩

/-- The calls around two positions. -/
theorem exists_split_two {calls : List Call} {a b : Nat} (hab : a < b) (hb : b < calls.length) :
    ∃ before cA between cB after, calls = before ++ cA :: (between ++ cB :: after) ∧
      before.length = a ∧ before.length + 1 + between.length = b := by
  have hdrop : calls.drop (a + 1) =
      (calls.drop (a + 1)).take (b - a - 1) ++ calls[b] :: calls.drop (b + 1) := by
    have hb' : a + 1 + (b - a - 1) = b := by omega
    have htail : calls.drop b = (calls.drop (a + 1)).drop (b - a - 1) := by
      rw [drop_drop, hb']
    rw [← drop_eq_getElem_cons hb, htail, take_append_drop]
  refine ⟨calls.take a, calls[a], (calls.drop (a + 1)).take (b - a - 1), calls[b],
    calls.drop (b + 1), ?_, ?_, ?_⟩
  · rw [← hdrop, ← drop_eq_getElem_cons (by omega), take_append_drop]
  · rw [length_take]
    omega
  · rw [length_take, length_take, length_drop]
    omega

theorem keepAsync_full (l : List Call) : keepAsync concurrCallSize l = l.map (Call.setAsync false) := by
  induction l with
  | nil => rfl
  | cons c l ih => rw [keepAsync, if_pos (le_refl _), ih, map_cons]

theorem setAsync_self {c : Call} {b : Bool} (h : c.props.async = b) : c.setAsync b = c := by
  subst h
  rfl

/-- The counter after some calls. -/
theorem keepAsync_append (l r : List Call) : ∀ {n : Nat}, n ≤ concurrCallSize →
    keepAsync n (l ++ r) = keepAsync n l ++
      keepAsync (min concurrCallSize (n + l.countP (·.props.async))) r := by
  induction l with
  | nil =>
    intro n hn
    rw [countP_nil, add_zero, min_eq_right hn]
    rfl
  | cons c l ih =>
    intro n hn
    rw [cons_append, keepAsync, keepAsync, countP_cons]
    by_cases hfull : concurrCallSize ≤ n
    · obtain rfl : n = concurrCallSize := le_antisymm hn hfull
      rw [if_pos hfull, if_pos hfull, ih hn, min_eq_left (le_add_right _ _),
        min_eq_left (le_add_right _ _)]
      rfl
    · rw [if_neg hfull, if_neg hfull]
      cases hasync : c.props.async with
      | true =>
        have hadd : n + 1 + l.countP (·.props.async) = n + (l.countP (·.props.async) + 1) := by
          omega
        rw [if_pos rfl, if_pos rfl, ih (by omega), hadd]
        rfl
      | false =>
        rw [if_neg nofun, if_neg nofun, ih hn]
        rfl

/-- Without async calls nothing is changed. -/
theorem keepAsync_sync {l : List Call} (h : ∀ c ∈ l, c.props.async = false) (n : Nat) :
    keepAsync n l = l.map (Call.setAsync false) := by
  induction l generalizing n with
  | nil => rfl
  | cons c l ih =>
    rw [forall_mem_cons] at h
    rw [keepAsync, map_cons, setAsync_self h.1, ih h.2, ih h.2, ite_self]

end Loops

/-! ## Flags do not matter -/

section Flags

variable {p q : Prog}

theorem flatMap_of_sync {α : Type} {g : Call → List α} (hg : ∀ c b, g (Call.setAsync b c) = g c)
    (h : q.calls.map (Call.setAsync false) = p.calls.map (Call.setAsync false)) :
    q.calls.flatMap g = p.calls.flatMap g := by
  have hclear : ∀ l : List Call, (l.map (Call.setAsync false)).flatMap g = l.flatMap g := by
    intro l
    rw [flatMap_map]
    exact flatMap_congr fun c _ => hg c false
  rw [← hclear, h, hclear]

theorem exists_of_sync (h : q.calls.map (Call.setAsync false) = p.calls.map (Call.setAsync false))
    {c : Call} (hc : c ∈ q.calls) :
    ∃ c' ∈ p.calls, c'.setAsync false = c.setAsync false := by
  have hmem : c.setAsync false ∈ p.calls.map (Call.setAsync false) := h ▸ mem_map_of_mem hc
  exact mem_map.mp hmem

theorem Prog.WellLinked.of_sync {s : Store} (hp : p.WellLinked s)
    (h : q.calls.map (Call.setAsync false) = p.calls.map (Call.setAsync false)) :
    q.WellLinked s := by
  have hids : q.ids = p.ids := flatMap_of_sync (fun _ _ => rfl) h
  have hval : q.validated = p.validated := flatMap_of_sync (fun _ _ => rfl) h
  refine ⟨hids ▸ hp.tree, hids ▸ hp.live, ?_, hval ▸ hp.linked⟩
  intro c hc r hr
  obtain ⟨c', hc', hsame⟩ := exists_of_sync h hc
  have hret : c'.ret = c.ret := congrArg (fun c => c.ret) hsame
  exact hp.ret c' hc' r (hret ▸ hr)

theorem Prog.Typed.of_sync {target : Target} {cells : Cells} {ignoreTransient : Bool}
    (hp : p.Typed target cells ignoreTransient)
    (h : q.calls.map (Call.setAsync false) = p.calls.map (Call.setAsync false)) :
    q.Typed target cells ignoreTransient := by
  intro c hc
  obtain ⟨c', hc', hsame⟩ := exists_of_sync h hc
  have htyped : (c'.setAsync false).Typed target cells ignoreTransient := hp c' hc'
  rwa [hsame] at htyped

theorem keepAsync_of_sync (l : List Call) (n : Nat) :
    (keepAsync n l).map (Call.setAsync false) = l.map (Call.setAsync false) := by
  induction l generalizing n with
  | nil => rfl
  | cons c l ih =>
    rw [keepAsync]
    split
    · rw [map_cons, map_cons, ih]
      rfl
    · rw [map_cons, map_cons, ih]

end Flags

/-! ## The promise -/

/-- The copy of a call of the program in the result. -/
def Call.image (g : Id → Id) (c : Call) : Call := (c.rename g).setAsync false

/-- `q` is the program `p` with an async duplicate in front of the calls `cA` and
`cB`: `g` maps the arguments of `p` to their copies in `q`, `gA` and `gB` map the
arguments of the two calls to those of the duplicates. -/
structure Collision (target : Target) (s : Store) (p : Prog) (s' : Store) (q : Prog)
    (g gA gB : Id → Id) (before : List Call) (cA : Call) (between : List Call) (cB : Call)
    (after : List Call) : Prop where
  valid : q.validate target s'.cells = .ok ()
  calls : q.calls = before.map (Call.image g) ++ (cA.rename gA).setAsync true :: cA.image g ::
    (between.map (Call.image g) ++ (cB.rename gB).setAsync true :: cB.image g ::
      after.map (Call.image g))
  contents : ∀ r ∈ p.validated, (s'.cells (g r)).bare =
    { (s.cells r).bare with res := (s.cells.res r).map g }
  sameA : ∀ r ∈ cA.validated, (s'.cells (gA r)).bare = (s'.cells (g r)).bare
  sameB : ∀ r ∈ cB.validated, (s'.cells (gB r)).bare = (s'.cells (g r)).bare
  earlierA : ∀ r ∈ cA.validated, ∀ y, s'.cells.res (gA r) = some y →
    ∃ y₀ ∈ before.flatMap Call.validated, y = g y₀
  earlierB : ∀ r ∈ cB.validated, ∀ y, s'.cells.res (gB r) = some y →
    ∃ y₀ ∈ (before ++ cA :: between).flatMap Call.validated, y = g y₀
  unchanged : ∀ i < s.next, s'.cells i = s.cells i

/-- What the two transformations are to return: the calls at `positions` are
duplicated. -/
def SchedCollided (target : Target) (s : Store) (p : Prog) (positions : List Nat)
    (result : Except Panic (Prog × Store)) : Prop :=
  ∃ before cA between cB after, p.calls = before ++ cA :: (between ++ cB :: after) ∧
    (∀ k, k ∈ positions ↔ k = before.length ∨ k = before.length + 1 + between.length) ∧
    ∃ q s' g gA gB, result = .ok (q, s') ∧
      Collision target s p s' q g gA gB before cA between cB after

/-- No call in front of a position is async, and the call there has no reference to
one of its own results. -/
def Collidable (cells : Cells) (p : Prog) (positions : List Nat) : Prop :=
  ∀ pos ∈ positions, (∀ c ∈ p.calls.take pos, c.props.async = false) ∧
    ∀ c ∈ p.calls[pos]?, c.NoOwnReference cells

instance (cells : Cells) (p : Prog) (positions : List Nat) :
    Decidable (Collidable cells p positions) := by
  unfold Collidable
  infer_instance

/-! ## Which calls stay async -/

section Kept

variable {l m r : List Call} {dA cA dB : Call}

theorem length_keepAsync (l : List Call) (n : Nat) : (keepAsync n l).length = l.length := by
  have h := congrArg List.length (keepAsync_of_sync l n)
  rwa [length_map, length_map] at h

/-- A call stays async only if fewer than two calls before it are. -/
theorem countP_lt_of_keepAsync {l' r' : List Call} {x : Call}
    (h : keepAsync 0 (l ++ dB :: r) = l' ++ x :: r') (hlen : l'.length = l.length)
    (hx : x.props.async = true) : l.countP (·.props.async) < concurrCallSize := by
  by_contra hge
  rw [keepAsync_append l _ (zero_le _), zero_add, min_eq_left (by omega),
    keepAsync_full] at h
  have htail := (append_inj h (by rw [length_keepAsync, hlen])).2
  rw [← (List.cons.inj htail).1] at hx
  cases hx

theorem countP_eq_zero_iff {l : List Call} :
    l.countP (·.props.async) = 0 ↔ ∀ c ∈ l, c.props.async = false := by
  rw [countP_eq_zero]
  exact forall₂_congr fun c _ => Bool.eq_false_iff.symm

/-- If the duplicates are the first async calls, they are the ones that are kept. -/
theorem keepAsync_collided (hl : ∀ c ∈ l, c.props.async = false) (hdA : dA.props.async = true)
    (hcA : cA.props.async = false) (hm : ∀ c ∈ m, c.props.async = false)
    (hdB : dB.props.async = true) :
    keepAsync 0 (l ++ dA :: cA :: (m ++ dB :: r)) =
      l.map (Call.setAsync false) ++ dA :: cA.setAsync false ::
        (m.map (Call.setAsync false) ++ dB :: r.map (Call.setAsync false)) := by
  have htail : keepAsync 1 (dB :: r) = dB :: r.map (Call.setAsync false) := by
    rw [keepAsync, if_neg (by decide), if_pos hdB, ← keepAsync_full]
    rfl
  have hmid : keepAsync 1 (m ++ dB :: r) =
      m.map (Call.setAsync false) ++ dB :: r.map (Call.setAsync false) := by
    rw [keepAsync_append m _ (by decide), keepAsync_sync hm, countP_eq_zero_iff.mpr hm, ← htail]
    rfl
  rw [keepAsync_append l _ (zero_le _), keepAsync_sync hl, countP_eq_zero_iff.mpr hl]
  have hhead : keepAsync (min concurrCallSize (0 + 0)) (dA :: cA :: (m ++ dB :: r)) =
      dA :: cA :: keepAsync 1 (m ++ dB :: r) := by
    change keepAsync 0 _ = _
    rw [keepAsync, if_neg (by decide), if_pos hdA, keepAsync, if_neg (by decide),
      if_neg (by rw [hcA]; nofun)]
  rw [hhead, hmid, setAsync_self hcA]

end Kept

/-! ## References of the duplicated calls -/

section Own

variable {c : Call} {cells cells' : Cells}

theorem noOwnReference_congr (h : ∀ x ∈ c.validated, cells'.res x = cells.res x) :
    c.NoOwnReference cells' ↔ c.NoOwnReference cells :=
  forall₂_congr fun x hx => by rw [h x hx]

theorem noOwnReference_rename {f : Id → Id} (hf : Function.Injective f)
    (h : ∀ x ∈ c.validated, cells'.res (f x) = (cells.res x).map f) :
    (c.rename f).NoOwnReference cells' ↔ c.NoOwnReference cells := by
  unfold Call.NoOwnReference
  rw [validated_rename, forall_mem_map]
  refine forall₂_congr fun x hx => ?_
  rw [h x hx]
  constructor
  · intro hnot y hy hmem
    exact hnot (f y) (Option.mem_map_of_mem f hy) (mem_map_of_mem hmem)
  · intro hnot y' hy' hmem
    obtain ⟨y, hy, rfl⟩ := Option.map_eq_some_iff.mp hy'
    obtain ⟨z, hz, hzy⟩ := mem_map.mp hmem
    exact hnot y hy (hf hzy ▸ hz)

/-- A program with a duplicate `d` in front of `c` can only be cloned if `c` does
not refer to its own results: those of `c` are copied after the duplicate. -/
theorem noOwnReference_of_clone {s : Store} {q : Prog} {out : Prog × Store}
    (pre : List Call) (d : Call) (post : List Call) (base : Id) (hlive : ∀ i ∈ q.ids, i < s.next)
    (hok : q.clone s = .ok out) (hcalls : q.calls = pre ++ d :: c :: post)
    (hd : d.results = c.results.map (base + ·))
    (hres : ∀ x ∈ c.results, s.cells.res (base + x) = s.cells.res x)
    (hpre : ∀ y ∈ c.results, y ∉ pre.flatMap Call.results) (hbase : ∀ y ∈ c.results, y < base) :
    c.NoOwnReference s.cells := by
  intro x hx y hxy hy
  have hx' := c.results_perm.mem_iff.mpr hx
  have hy' := c.results_perm.mem_iff.mpr hy
  obtain ⟨l, r, hsplit⟩ := append_of_mem (mem_map_of_mem (f := (base + ·)) hx')
  have hall : q.calls.flatMap Call.results = (pre.flatMap Call.results ++ l) ++ (base + x) ::
      (r ++ (c.results ++ post.flatMap Call.results)) := by
    rw [hcalls, flatMap_append, flatMap_cons, flatMap_cons, hd, hsplit]
    simp
  have hmem := Prog.refs_before_of_clone hlive hok hall ((hres x hx').trans hxy)
  rcases mem_append.mp hmem with hmem | hmem
  · exact hpre y hy' hmem
  · have hcopy : y ∈ c.results.map (base + ·) := by
      rw [hsplit]
      exact mem_append_left _ hmem
    obtain ⟨z, -, rfl⟩ := mem_map.mp hcopy
    exact not_lt.mpr (le_add_right _ _) (hbase _ hy')

end Own

/-! ## The duplicated program -/

theorem Arg.rename_rename (f h : Id → Id) (a : Arg) :
    (a.rename f).rename h = a.rename (fun i => h (f i)) := by
  induction a using Arg.induct with
  | pointer id c addr n res ih => rw [Arg.rename, Arg.rename, Arg.rename, ih]
  | group id c inner ih =>
    rw [Arg.rename_group, Arg.rename_group, Arg.rename_group, map_map]
    exact congrArg _ (map_congr_left ih)
  | union id c option index transient ih => rw [Arg.rename, Arg.rename, Arg.rename, ih]
  | _ => rfl

theorem Call.rename_rename (f h : Id → Id) (c : Call) :
    (c.rename f).rename h = c.rename (fun i => h (f i)) := by
  unfold Call.rename
  rw [map_map, Option.map_map]
  congr 1
  exact map_congr_left fun a _ => a.rename_rename f h

theorem Prog.clone_next {s : Store} {p : Prog} {out : Prog × Store} (h : p.clone s = .ok out) :
    out.2.next = s.next + s.next := by
  obtain ⟨st, -, hpure⟩ := bind_eq_ok.mp h
  rw [← pure_eq_ok.mp hpure]

/-- A program, its clone in `s₁`, and the two calls to be duplicated. -/
structure Doubling (s : Store) (p : Prog) (before : List Call) (cA : Call) (between : List Call)
    (cB : Call) (after : List Call) (s₁ : Store) : Prop where
  split : p.calls = before ++ cA :: (between ++ cB :: after)
  linked : p.WellLinked s
  linked₁ : (p.rename (s.next + ·)).WellLinked s₁
  old : ∀ i < s.next, s₁.cells i = s.cells i
  contents : ∀ a ∈ p.validated, (s₁.cells (s.next + a)).bare =
    { (s.cells a).bare with res := (s.cells.res a).map (s.next + ·) }
  next : s.next ≤ s₁.next

namespace Doubling

variable {s s₁ : Store} {p : Prog} {before between after : List Call} {cA cB : Call}

/-- The store after the first duplicate. -/
def store₂ (s s₁ : Store) (cA : Call) : Store := (cloneCall s₁ (cA.rename (s.next + ·))).2

/-- The store after the second duplicate. -/
def store₃ (s s₁ : Store) (cA cB : Call) : Store :=
  (cloneCall (store₂ s s₁ cA) (cB.rename (s.next + ·))).2

def dupA (s s₁ : Store) (cA : Call) : Call :=
  (cloneCall s₁ (cA.rename (s.next + ·))).1.setAsync true

def dupB (s s₁ : Store) (cA cB : Call) : Call :=
  (cloneCall (store₂ s s₁ cA) (cB.rename (s.next + ·))).1.setAsync true

/-- The program with the two duplicates. -/
def doubled (s s₁ : Store) (before : List Call) (cA : Call) (between : List Call) (cB : Call)
    (after : List Call) : Prog :=
  ⟨before.map (Call.rename (s.next + ·)) ++ dupA s s₁ cA :: cA.rename (s.next + ·) ::
    (between.map (Call.rename (s.next + ·)) ++ dupB s s₁ cA cB :: cB.rename (s.next + ·) ::
      after.map (Call.rename (s.next + ·)))⟩

/-- The program with the first duplicate. -/
def single (s s₁ : Store) (before : List Call) (cA : Call) (between : List Call) (cB : Call)
    (after : List Call) : Prog :=
  ⟨before.map (Call.rename (s.next + ·)) ++ dupA s s₁ cA :: cA.rename (s.next + ·) ::
    (between.map (Call.rename (s.next + ·)) ++ cB.rename (s.next + ·) ::
      after.map (Call.rename (s.next + ·)))⟩

/-- The copy of a call in the clone. -/
abbrev copy (s : Store) (c : Call) : Call := c.rename (s.next + ·)

variable {c : Call} {r : Id}

theorem mem_results (hr : r ∈ c.validated) : s.next + r ∈ (copy s c).results := by
  rw [(results_perm _).mem_iff, validated_rename]
  exact mem_map_of_mem hr

theorem next₂ : s₁.next ≤ (store₂ s s₁ cA).next := le_add_right _ _

theorem next₃ : (store₂ s s₁ cA).next ≤ (store₃ s s₁ cA cB).next := le_add_right _ _

theorem split_single : (single s s₁ before cA between cB after).calls =
    (before.map (copy s) ++ dupA s s₁ cA :: copy s cA ::
      between.map (copy s)) ++ copy s cB ::
        after.map (copy s) := by
  unfold single
  simp

theorem split_doubled : (doubled s s₁ before cA between cB after).calls =
    (before.map (copy s) ++ dupA s s₁ cA :: copy s cA ::
      between.map (copy s)) ++ dupB s s₁ cA cB :: copy s cB ::
        after.map (copy s) := by
  rw [doubled]
  simp

theorem mem_doubled :
    c ∈ (doubled s s₁ before cA between cB after).calls ↔
    c = dupB s s₁ cA cB ∨ c ∈ (single s s₁ before cA between cB after).calls := by
  unfold single doubled
  simp only [mem_append, mem_cons]
  tauto

variable {out : Prog × Store} {a : Id} {target : Target}

/-- `ValidateAsyncCall` of the duplicated program. -/
theorem validateAsyncCall_doubled :
    validateAsyncCall (store₃ s s₁ cA cB) (doubled s s₁ before cA between cB after) = .ok out ↔
      ∃ out', (doubled s s₁ before cA between cB after).clone (store₃ s s₁ cA cB) = .ok out' ∧
        (⟨keepAsync 0 out'.1.calls⟩, out'.2) = out := by
  have hlen : ¬ (doubled s s₁ before cA between cB after).calls.length < concurrCallSize := by
    unfold doubled concurrCallSize
    simp only [length_append, length_cons]
    omega
  unfold validateAsyncCall
  rw [if_neg hlen, bind_eq_ok]
  exact exists_congr fun out' => and_congr_right fun _ => pure_eq_ok

/-- The calls of the clone of the duplicated program. -/
theorem rename_doubled (base : Id) :
    ((doubled s s₁ before cA between cB after).rename (base + ·)).calls =
      before.map (Call.rename fun i => base + (s.next + i)) ++
        (cA.rename fun i => base + (s₁.next + (s.next + i))).setAsync true ::
        (cA.rename fun i => base + (s.next + i)) ::
        (between.map (Call.rename fun i => base + (s.next + i)) ++
          (cB.rename fun i => base + ((store₂ s s₁ cA).next + (s.next + i))).setAsync true ::
          (cB.rename fun i => base + (s.next + i)) ::
          after.map (Call.rename fun i => base + (s.next + i))) := by
  have hmap : ∀ l : List Call, (l.map (copy s)).map (Call.rename (base + ·)) =
      l.map (Call.rename fun i => base + (s.next + i)) := by
    intro l
    rw [map_map]
    exact map_congr_left fun c _ => c.rename_rename _ _
  have hA : (dupA s s₁ cA).rename (base + ·) =
      (cA.rename fun i => base + (s₁.next + (s.next + i))).setAsync true := by
    have hdup : (dupA s s₁ cA).rename (base + ·) =
        (((copy s cA).rename (s₁.next + ·)).rename (base + ·)).setAsync true := rfl
    rw [hdup, rename_rename, rename_rename]
  have hB : (dupB s s₁ cA cB).rename (base + ·) =
      (cB.rename fun i => base + ((store₂ s s₁ cA).next + (s.next + i))).setAsync true := by
    have hdup : (dupB s s₁ cA cB).rename (base + ·) = (((copy s cB).rename
        ((store₂ s s₁ cA).next + ·)).rename (base + ·)).setAsync true := rfl
    rw [hdup, rename_rename, rename_rename]
  unfold Prog.rename doubled
  rw [map_append, map_cons, map_cons, map_append, map_cons,
    map_cons, hmap, hmap, hmap, hA, hB, rename_rename, rename_rename]

/-- The program with the two duplicates, and the store it is in. -/
abbrev prog (_ : Doubling s p before cA between cB after s₁) : Prog :=
  doubled s s₁ before cA between cB after

abbrev store (_ : Doubling s p before cA between cB after s₁) : Store := store₃ s s₁ cA cB

variable (h : Doubling s p before cA between cB after s₁)
include h

theorem split₁ :
    (p.rename (s.next + ·)).calls = before.map (copy s) ++
      copy s cA :: (between.map (copy s) ++
        copy s cB :: after.map (copy s)) := by
  unfold Prog.rename
  rw [h.split]
  simp

theorem memA : cA ∈ p.calls := by
  rw [h.split]
  simp

theorem memB : cB ∈ p.calls := by
  rw [h.split]
  simp

theorem validated_lt :
    ∀ a ∈ (p.rename (s.next + ·)).validated, a < s₁.next := fun a ha =>
  h.linked₁.live a ((p.rename (s.next + ·)).validated_sublist_ids.subset ha)

theorem copy_lt (hr : r ∈ p.validated) : s.next + r < s₁.next := by
  refine h.validated_lt _ ?_
  rw [Prog.validated_rename]
  exact mem_map_of_mem hr

theorem sharedA :
    Shared s₁ (copy s cA).results (store₂ s s₁ cA).cells :=
  h.linked₁.shared (mem_map_of_mem h.memA)

theorem sharedB :
    Shared (store₂ s s₁ cA) (copy s cB).results h.store.cells := by
  have hmem : ∀ a ∈ (copy s cB).validated, a ∈ (p.rename (s.next + ·)).validated :=
    fun a ha => mem_flatMap.mpr ⟨_, mem_map_of_mem h.memB, ha⟩
  refine shared_cloneCall ((nodup_flatMap.mp h.linked₁.nodup).1 _ (mem_map_of_mem h.memB)) ?_ ?_
  · exact fun a ha => lt_of_lt_of_le (h.validated_lt a (hmem a ha)) next₂
  · intro a ha r hr
    rw [h.sharedA.res (h.validated_lt a (hmem a ha))] at hr
    have hr' := (h.linked₁.linked.consistent.fwd a (hmem a ha) r hr).1
    exact lt_of_lt_of_le (h.validated_lt r hr') next₂

theorem res₁ (ha : a ∈ p.validated) :
    s₁.cells.res (s.next + a) = (s.cells.res a).map (s.next + ·) :=
  congrArg ResultArg.res (h.contents a ha)

theorem ownA :
    (copy s cA).NoOwnReference s₁.cells ↔ cA.NoOwnReference s.cells :=
  noOwnReference_rename (fun _ _ hxy => add_left_cancel hxy) fun _ hx =>
    h.res₁ (mem_flatMap.mpr ⟨cA, h.memA, hx⟩)

theorem ownB :
    (copy s cB).NoOwnReference (store₂ s s₁ cA).cells ↔
      cB.NoOwnReference s.cells := by
  refine noOwnReference_rename (fun _ _ hxy => add_left_cancel hxy) ?_
  intro x hx
  have hx' : x ∈ p.validated := mem_flatMap.mpr ⟨cB, h.memB, hx⟩
  rw [h.sharedA.res (h.copy_lt hx'), h.res₁ hx']

/-- The calls that are not duplicates keep their references. -/
theorem res₃ (ha : a < s₁.next) : h.store.cells.res a = s₁.cells.res a := by
  rw [h.sharedB.res (lt_of_lt_of_le ha next₂), h.sharedA.res ha]

/-- Calls of the clone are in the program with one duplicate. -/
theorem mem_single :
    c ∈ (single s s₁ before cA between cB after).calls ↔
      c = dupA s s₁ cA ∨ c ∈ (p.rename (s.next + ·)).calls := by
  rw [h.split₁]
  unfold single
  simp only [mem_append, mem_cons]
  tauto

/-- Every object of the duplicated program exists. -/
theorem live :
    ∀ i ∈ h.prog.ids, i < h.store.next := by
  intro i hi
  obtain ⟨c, hc, hi⟩ := mem_flatMap.mp hi
  -- an object of a duplicate is the copy of one of the program
  have hdup : ∀ {c : Call} {base : Id}, c ∈ p.calls →
      i ∈ ((copy s c).rename (base + ·)).ids → ∃ j < s₁.next, base + j = i := by
    intro c base hc hi
    rw [ids_rename] at hi
    obtain ⟨j, hj, rfl⟩ := mem_map.mp hi
    exact ⟨j, h.linked₁.live j (mem_flatMap.mpr ⟨_, mem_map_of_mem hc, hj⟩), rfl⟩
  rcases mem_doubled.mp hc with rfl | hc
  · obtain ⟨j, hj, rfl⟩ := hdup h.memB hi
    exact Nat.add_lt_add_left (lt_of_lt_of_le hj next₂) _
  · rcases h.mem_single.mp hc with rfl | hc
    · obtain ⟨j, hj, rfl⟩ := hdup h.memA hi
      exact lt_of_lt_of_le (Nat.add_lt_add_left hj _) next₃
    · have hlt := h.linked₁.live i (mem_flatMap.mpr ⟨c, hc, hi⟩)
      exact lt_of_lt_of_le (lt_of_lt_of_le hlt next₂) next₃

/-- **If the duplicated program can be cloned, neither of the two calls refers to
its own results.** -/
theorem own_of_clone (hok : h.prog.clone h.store = .ok out) :
    cA.NoOwnReference s.cells ∧ cB.NoOwnReference s.cells := by
  have hnodup := h.linked₁.nodup
  have hmem : ∀ {c : Call}, c ∈ p.calls → ∀ x ∈ (copy s c).results, x < s₁.next := by
    intro c hc x hx
    exact h.validated_lt x (mem_flatMap.mpr
      ⟨_, mem_map_of_mem hc, (results_perm _).mem_iff.mp hx⟩)
  have hsplit : (p.rename (s.next + ·)).calls.flatMap Call.results =
      (before.map (copy s)).flatMap Call.results ++
        ((copy s cA).results ++
          ((between.map (copy s)).flatMap Call.results ++
            ((copy s cB).results ++
              (after.map (copy s)).flatMap Call.results))) := by
    rw [h.split₁]
    simp
  have hresults := (flatMap_results_perm (p.rename (s.next + ·)).calls).nodup_iff.mpr hnodup
  rw [hsplit, nodup_append, nodup_append, nodup_append] at hresults
  obtain ⟨-, ⟨-, ⟨-, -, hbetween⟩, hA⟩, hbefore⟩ := hresults
  constructor
  · have hcells : (copy s cA).NoOwnReference h.store.cells ↔
        (copy s cA).NoOwnReference s₁.cells := noOwnReference_congr fun x hx =>
      h.res₃ (hmem h.memA x ((results_perm _).mem_iff.mpr hx))
    rw [← h.ownA, ← hcells]
    refine noOwnReference_of_clone _ (dupA s s₁ cA) _ s₁.next h.live hok rfl
      (results_rename _) ?_ ?_ (hmem h.memA)
    · intro x hx
      have hx' := hmem h.memA x hx
      rw [h.res₃ hx', h.sharedB.res (Nat.add_lt_add_left hx' _), h.sharedA.res_copy hx]
    · intro y hy hy'
      exact hbefore y hy' y (mem_append_left _ hy) rfl
  · have hcells : (copy s cB).NoOwnReference h.store.cells ↔
        (copy s cB).NoOwnReference (store₂ s s₁ cA).cells :=
      noOwnReference_congr fun x hx => h.sharedB.res (lt_of_lt_of_le
        (hmem h.memB x ((results_perm _).mem_iff.mpr hx)) next₂)
    rw [← h.ownB, ← hcells]
    refine noOwnReference_of_clone _ _ _ (store₂ s s₁ cA).next h.live hok split_doubled
      (results_rename _) ?_ ?_ (fun x hx => lt_of_lt_of_le (hmem h.memB x hx) next₂)
    · intro x hx
      have hx' : x < (store₂ s s₁ cA).next := lt_of_lt_of_le (hmem h.memB x hx) next₂
      rw [h.sharedB.res hx', h.sharedB.res_copy hx]
    intro y hy hy'
    have hdup : (dupA s s₁ cA).results =
        (copy s cA).results.map (s₁.next + ·) := results_rename _
    simp only [flatMap_append, flatMap_cons, mem_append, hdup] at hy'
    rcases hy' with hy' | hy' | hy' | hy'
    · exact hbefore y hy' y (by simp [hy]) rfl
    · obtain ⟨z, -, rfl⟩ := mem_map.mp hy'
      exact not_lt.mpr (le_add_right _ _) (hmem h.memB _ hy)
    · exact hA y hy' y (by simp [hy]) rfl
    · exact hbetween y hy' y (by simp [hy]) rfl

theorem linked₂ (hA : cA.NoOwnReference s.cells) :
    (single s s₁ before cA between cB after).WellLinked (store₂ s s₁ cA) :=
  h.linked₁.duplicate h.split₁ (h.ownA.mpr hA) true

theorem linked₃ (hA : cA.NoOwnReference s.cells) (hB : cB.NoOwnReference s.cells) :
    h.prog.WellLinked h.store := by
  have hlinked := (h.linked₂ hA).duplicate split_single (h.ownB.mpr hB) true
  show Prog.WellLinked _ ⟨h.prog.calls⟩
  rw [split_doubled]
  exact hlinked

/-- The duplicated program is typed. -/
theorem typed₃ (hA : cA.NoOwnReference s.cells)
    (htyped : (p.rename (s.next + ·)).Typed target s₁.cells false) :
    h.prog.Typed target h.store.cells false := by
  have hmemA := mem_map_of_mem (f := copy s) h.memA
  have hmemB := mem_map_of_mem (f := copy s) h.memB
  have htyped₂ : (single s s₁ before cA between cB after).Typed target (store₂ s s₁ cA).cells
      false := by
    intro c hc
    rcases h.mem_single.mp hc with rfl | hc
    · exact h.linked₁.typed_duplicate hmemA (htyped _ hmemA)
    · exact h.linked₁.typed_shared hmemA hc (htyped c hc)
  have hmemB₂ : copy s cB ∈ (single s s₁ before cA between cB after).calls :=
    h.mem_single.mpr (.inr hmemB)
  intro c hc
  rcases mem_doubled.mp hc with rfl | hc
  · exact (h.linked₂ hA).typed_duplicate hmemB₂ (htyped₂ _ hmemB₂)
  · exact (h.linked₂ hA).typed_shared hmemB₂ hc (htyped₂ c hc)

/-- The contents of a copy do not change. -/
theorem bare₃ (hr : r ∈ p.validated) :
    (h.store.cells (s.next + r)).bare =
      { (s.cells r).bare with res := (s.cells.res r).map (s.next + ·) } := by
  have hlt := h.copy_lt hr
  rw [h.sharedB.old _ (lt_of_lt_of_le hlt next₂), h.sharedA.old _ hlt, h.contents r hr]

/-- The duplicate of an argument of the first call has its contents. -/
theorem bareA (hr : r ∈ cA.validated) :
    (h.store.cells (s₁.next + (s.next + r))).bare =
      (h.store.cells (s.next + r)).bare := by
  have hlt := h.copy_lt (mem_flatMap.mpr ⟨cA, h.memA, hr⟩)
  have hlt' : s₁.next + (s.next + r) < (store₂ s s₁ cA).next := Nat.add_lt_add_left hlt _
  rw [h.sharedB.old _ hlt', h.sharedA.copy _ (mem_results hr),
    h.sharedB.old _ (lt_of_lt_of_le hlt next₂), h.sharedA.old _ hlt]
  rfl

theorem bareB (hr : r ∈ cB.validated) :
    (h.store.cells ((store₂ s s₁ cA).next + (s.next + r))).bare =
      (h.store.cells (s.next + r)).bare := by
  have hlt := h.copy_lt (mem_flatMap.mpr ⟨cB, h.memB, hr⟩)
  rw [h.sharedB.copy _ (mem_results hr), h.sharedB.old _ (lt_of_lt_of_le hlt next₂)]
  rfl

/-- The arguments of the original program do not change. -/
theorem unchanged₃ {i : Id} (hi : i < s.next) :
    h.store.cells i = s.cells i := by
  have hnot : ∀ {c : Call}, c ∈ p.calls → ∀ a ∈ (copy s c).results,
      a < s₁.next ∧ s₁.cells.res a ≠ some i := by
    intro c hc a ha
    rw [(results_perm _).mem_iff, validated_rename] at ha
    obtain ⟨r, hr, rfl⟩ := mem_map.mp ha
    have hr' : r ∈ p.validated := mem_flatMap.mpr ⟨c, hc, hr⟩
    refine ⟨h.copy_lt hr', ?_⟩
    rw [h.res₁ hr']
    intro hres
    obtain ⟨y, -, rfl⟩ := Option.map_eq_some_iff.mp hres
    exact not_lt.mpr (le_add_right _ _) hi
  have hi₁ : i < s₁.next := lt_of_lt_of_le hi h.next
  rw [h.sharedB.same i (lt_of_lt_of_le hi₁ next₂) fun a ha => by
      rw [h.sharedA.res (hnot h.memB a ha).1]
      exact (hnot h.memB a ha).2,
    h.sharedA.same i hi₁ fun a ha => (hnot h.memA a ha).2, h.old i hi]

/-- The results of the program are results of the duplicated program. -/
theorem mem_validated (hr : r ∈ p.validated) : s.next + r ∈ h.prog.validated := by
  obtain ⟨c, hc, hr⟩ := mem_flatMap.mp hr
  refine mem_flatMap.mpr
    ⟨_, mem_doubled.mpr (.inr (h.mem_single.mpr (.inr (mem_map_of_mem hc)))), ?_⟩
  rw [validated_rename]
  exact mem_map_of_mem hr

/-- So are those of a duplicate. -/
theorem dup_validated {base : Id} (hr : r ∈ c.validated)
    (hc : ((copy s c).rename (base + ·)).setAsync true ∈ h.prog.calls) :
    base + (s.next + r) ∈ h.prog.validated := by
  refine mem_flatMap.mpr ⟨_, hc, ?_⟩
  show _ ∈ ((copy s c).rename (base + ·)).validated
  rw [validated_rename, validated_rename]
  exact mem_map_of_mem (mem_map_of_mem hr)

/-- **The two duplicates are kept, and the result is valid.** -/
theorem collision (htyped : (p.rename (s.next + ·)).Typed target s₁.cells false)
    (hA : cA.NoOwnReference s.cells) (hB : cB.NoOwnReference s.cells)
    (hsync : ∀ c ∈ before ++ cA :: between, c.props.async = false) :
    ∃ q s' g gA gB, validateAsyncCall h.store h.prog = .ok (q, s') ∧
      Collision target s p s' q g gA gB before cA between cB after := by
  have hlinked := h.linked₃ hA hB
  obtain ⟨s₄, hok, hlinked₄, -, hold, hcopy⟩ := hlinked.clone
  have htyped₄ := hlinked.typed_clone hlinked₄ hcopy (h.typed₃ hA htyped)
  have hbare : ∀ a ∈ h.prog.validated, (s₄.cells (h.store.next + a)).bare =
      { (h.store.cells a).bare with
        res := (h.store.cells.res a).map (h.store.next + ·) } := hcopy
  have hsameOf : ∀ {a b : Id}, a ∈ h.prog.validated → b ∈ h.prog.validated →
      (h.store.cells a).bare = (h.store.cells b).bare →
      (s₄.cells (h.store.next + a)).bare = (s₄.cells (h.store.next + b)).bare := by
    intro a b ha hb hab
    have hres : h.store.cells.res a = h.store.cells.res b := (ResultArg.of_bare hab).2.1
    rw [hbare a ha, hbare b hb, hab, hres]
  have hcontents : ∀ r ∈ p.validated,
      (s₄.cells (h.store.next + (s.next + r))).bare =
        { (s.cells r).bare with
          res := (s.cells.res r).map fun i => h.store.next + (s.next + i) } := by
    intro r hr
    have hres : h.store.cells.res (s.next + r) = (s.cells.res r).map (s.next + ·) :=
      congrArg ResultArg.res (h.bare₃ hr)
    rw [hbare _ (h.mem_validated hr), h.bare₃ hr, hres, Option.map_map]
    rfl
  have hsameA : ∀ r ∈ cA.validated,
      (s₄.cells (h.store.next + (s₁.next + (s.next + r)))).bare =
        (s₄.cells (h.store.next + (s.next + r))).bare := fun r hr =>
    hsameOf (h.dup_validated hr (mem_doubled.mpr (.inr (h.mem_single.mpr (.inl rfl)))))
      (h.mem_validated (mem_flatMap.mpr ⟨cA, h.memA, hr⟩)) (h.bareA hr)
  have hsameB : ∀ r ∈ cB.validated,
      (s₄.cells (h.store.next + ((store₂ s s₁ cA).next + (s.next + r)))).bare =
        (s₄.cells (h.store.next + (s.next + r))).bare := fun r hr =>
    hsameOf (h.dup_validated hr (mem_doubled.mpr (.inl rfl)))
      (h.mem_validated (mem_flatMap.mpr ⟨cB, h.memB, hr⟩)) (h.bareB hr)
  have hearlier : ∀ {pre : List Call} {c : Call} {post : List Call}, p.calls = pre ++ c :: post →
      c.NoOwnReference s.cells → ∀ r ∈ c.validated, ∀ y,
      s₄.cells.res (h.store.next + (s.next + r)) = some y →
      ∃ y₀ ∈ pre.flatMap Call.validated, y = h.store.next + (s.next + y₀) := by
    intro pre c post hsplit hown r hr y hy
    have hr' : r ∈ p.validated := mem_flatMap.mpr ⟨c, by rw [hsplit]; simp, hr⟩
    have hres : s₄.cells.res (h.store.next + (s.next + r)) =
        (s.cells.res r).map fun i => h.store.next + (s.next + i) :=
      congrArg ResultArg.res (hcontents r hr')
    rw [hres] at hy
    obtain ⟨y₀, hy₀, rfl⟩ := Option.map_eq_some_iff.mp hy
    exact ⟨y₀, (h.linked.res_before hsplit hr hy₀).resolve_right (hown r hr y₀ hy₀), rfl⟩
  have hkept := keepAsync_of_sync (h.prog.rename (h.store.next + ·)).calls 0
  refine ⟨_, s₄, fun i => h.store.next + (s.next + i),
    fun i => h.store.next + (s₁.next + (s.next + i)),
    fun i => h.store.next + ((store₂ s s₁ cA).next + (s.next + i)),
    validateAsyncCall_doubled.mpr ⟨_, hok, rfl⟩, ?_, ?_, hcontents, hsameA, hsameB, ?_, ?_, ?_⟩
  · exact (hlinked₄.of_sync hkept).validate (htyped₄.of_sync hkept)
  · have hcalls := @rename_doubled s s₁ before between after cA cB h.store.next
    rw [forall_mem_append, forall_mem_cons] at hsync
    have hmap : ∀ {l : List Call} {f : Id → Id}, (∀ c ∈ l, c.props.async = false) →
        ∀ c ∈ l.map (Call.rename f), c.props.async = false := by
      intro l f hl c hc
      obtain ⟨c', hc', rfl⟩ := mem_map.mp hc
      exact hl c' hc'
    have hcA' : (cA.rename fun i => h.store.next + (s.next + i)).props.async = false := hsync.2.1
    rw [hcalls, keepAsync_collided (hmap hsync.1) rfl hcA' (hmap hsync.2.2) rfl]
    simp only [map_map, map_cons]
    rfl
  · intro r hr y hy
    rw [show s₄.cells.res _ = _ from (ResultArg.of_bare (hsameA r hr)).2.1] at hy
    exact hearlier h.split hA r hr y hy
  · intro r hr y hy
    rw [show s₄.cells.res _ = _ from (ResultArg.of_bare (hsameB r hr)).2.1] at hy
    have hsplit : p.calls = (before ++ cA :: between) ++ cB :: after := by
      rw [h.split]
      simp
    exact hearlier hsplit hB r hr y hy
  · intro i hi
    have hi₃ : i < h.store.next :=
      lt_of_lt_of_le (lt_of_lt_of_le (lt_of_lt_of_le hi h.next) next₂) next₃
    rw [hold i hi₃, h.unchanged₃ hi]

end Doubling

/-! ## The transformation -/

section Transformation

variable {s s₁ : Store} {p : Prog} {before between after : List Call} {cA cB : Call}
  {positions : List Nat}

theorem take_length_append {α : Type} {l r : List α} : (l ++ r).take l.length = l := by simp

/-- The condition at the two positions. -/
theorem collidable_iff {cells : Cells} (hsplit : p.calls = before ++ cA :: (between ++ cB :: after))
    (hpos : ∀ k, k ∈ positions ↔ k = before.length ∨ k = before.length + 1 + between.length) :
    Collidable cells p positions ↔ (∀ c ∈ before ++ cA :: between, c.props.async = false) ∧
      cA.NoOwnReference cells ∧ cB.NoOwnReference cells := by
  have hsplit' : p.calls = (before ++ cA :: between) ++ cB :: after := by
    rw [hsplit]
    simp
  have hlen : before.length + 1 + between.length = (before ++ cA :: between).length := by
    rw [length_append, length_cons]
    omega
  have htakeA : p.calls.take before.length = before := hsplit ▸ take_length_append
  have htakeB : p.calls.take (before.length + 1 + between.length) = before ++ cA :: between := by
    rw [hlen, hsplit']
    exact take_length_append
  have hatA : p.calls[before.length]? = some cA := by
    rw [hsplit, getElem?_append_right (Nat.le_refl _), Nat.sub_self, getElem?_cons_zero]
  have hatB : p.calls[before.length + 1 + between.length]? = some cB := by
    rw [hlen, hsplit', getElem?_append_right (Nat.le_refl _), Nat.sub_self,
      getElem?_cons_zero]
  constructor
  · intro h
    have hA := (h _ ((hpos _).mpr (.inl rfl))).2
    have hB := h _ ((hpos _).mpr (.inr rfl))
    rw [htakeB] at hB
    exact ⟨hB.1, hA cA hatA, hB.2 cB hatB⟩
  · rintro ⟨hsync, hA, hB⟩ pos hmem
    rcases (hpos pos).mp hmem with rfl | rfl
    · rw [htakeA, hatA]
      refine ⟨fun c hc => hsync c (mem_append_left _ hc), ?_⟩
      rintro c ⟨⟩
      exact hA
    · rw [htakeB, hatB]
      refine ⟨hsync, ?_⟩
      rintro c ⟨⟩
      exact hB

/-- The clone that is duplicated. -/
theorem Prog.WellLinked.doubling (hlinked : p.WellLinked s)
    (hsplit : p.calls = before ++ cA :: (between ++ cB :: after)) :
    ∃ s₁, p.clone s = .ok (p.rename (s.next + ·), s₁) ∧
      Doubling s p before cA between cB after s₁ ∧
      ∀ target, p.Typed target s.cells false →
        (p.rename (s.next + ·)).Typed target s₁.cells false := by
  obtain ⟨s₁, hok, hlinked₁, -, hold, hcopy⟩ := hlinked.clone
  refine ⟨s₁, hok, ⟨hsplit, hlinked, hlinked₁, hold, hcopy, ?_⟩, fun target htyped =>
    hlinked.typed_clone hlinked₁ hcopy htyped⟩
  have hnext : s₁.next = s.next + s.next := Prog.clone_next hok
  exact hnext ▸ le_add_right _ _

/-- What `DupCallSchedCollide` returns. -/
theorem dupCallSchedCollide_doubled {perm : List Nat} {q₁ : Prog} {s₃ : Store}
    (h : Doubling s p before cA between cB after s₁)
    (hclone : p.clone s = .ok (p.rename (s.next + ·), s₁))
    (hpos : ∀ k, k ∈ perm.take concurrCallSize ↔
      k = before.length ∨ k = before.length + 1 + between.length)
    (hok : dupCallSchedCollide s p perm = .ok (q₁, s₃)) :
    q₁ = Doubling.doubled s s₁ before cA between cB after ∧
      s₃ = Doubling.store₃ s s₁ cA cB := by
  have hpos' : ∀ k, k ∈ perm.take concurrCallSize ↔
      k = (before.map (Call.rename (s.next + ·))).length ∨
      k = (before.map (Call.rename (s.next + ·))).length + 1 +
        (between.map (Call.rename (s.next + ·))).length := by
    rw [length_map, length_map]
    exact hpos
  unfold dupCallSchedCollide at hok
  split at hok
  · cases hok
  split at hok
  · cases hok
  · rw [hclone] at hok
    dsimp only at hok
    rw [h.split₁, duplicateCalls_two hpos'] at hok
    cases hok
    exact ⟨rfl, rfl⟩

/-- **The duplicates stay the only async calls exactly if the program is collidable
at the positions.** -/
theorem Doubling.schedCollided_iff {target : Target}
    (h : Doubling s p before cA between cB after s₁)
    (htyped : (p.rename (s.next + ·)).Typed target s₁.cells false)
    (hpos : ∀ k, k ∈ positions ↔ k = before.length ∨ k = before.length + 1 + between.length) :
    SchedCollided target s p positions
        (validateAsyncCall h.store h.prog) ↔
      Collidable s.cells p positions := by
  rw [collidable_iff h.split hpos]
  constructor
  · rintro ⟨before', cA', between', cB', after', hsplit', hpos', q, s', g, gA, gB, hok, hcol⟩
    -- the positions determine the split
    have hlenA : before'.length = before.length := by
      have h₁ := (hpos' before.length).mp ((hpos _).mpr (.inl rfl))
      have h₂ := (hpos before'.length).mp ((hpos' _).mpr (.inl rfl))
      omega
    have hlenB : between'.length = between.length := by
      have h₁ := (hpos' _).mp ((hpos _).mpr (.inr rfl))
      have h₂ := (hpos _).mp ((hpos' _).mpr (.inr rfl))
      omega
    obtain ⟨out, hclone, hout⟩ := validateAsyncCall_doubled.mp hok
    obtain ⟨hA, hB⟩ := h.own_of_clone hclone
    refine ⟨?_, hA, hB⟩
    obtain ⟨s₄, hclone', -⟩ := (h.linked₃ hA hB).clone
    rw [hclone] at hclone'
    obtain rfl := Except.ok.inj hclone'
    obtain ⟨rfl, rfl⟩ := Prod.mk.inj hout
    have hcalls := hcol.calls
    rw [rename_doubled] at hcalls
    have hfront : ∀ {l : List Call} {x y z : Call} {m r : List Call},
        l ++ x :: y :: (m ++ z :: r) = (l ++ x :: y :: m) ++ z :: r := by
      intros
      simp
    rw [hfront, hfront] at hcalls
    have hlt := countP_lt_of_keepAsync hcalls (by
      simp only [length_append, length_cons, length_map]
      omega) rfl
    have hmap : ∀ (l : List Call) (f : Id → Id),
        (l.map (Call.rename f)).countP (·.props.async) = l.countP (·.props.async) := by
      intro l f
      rw [countP_map]
      rfl
    rw [countP_append, countP_cons, countP_cons, hmap, hmap,
      if_pos (show ((cA.rename _).setAsync true).props.async = true from rfl)] at hlt
    rw [← countP_eq_zero_iff, countP_append, countP_cons]
    have hsame : (cA.rename fun i => h.store.next + (s.next + i)).props.async =
        cA.props.async := rfl
    rw [hsame] at hlt
    unfold concurrCallSize at hlt
    omega
  · rintro ⟨hsync, hA, hB⟩
    exact ⟨before, cA, between, cB, after, h.split, hpos, h.collision htyped hA hB hsync⟩

/-- **The program that is run is the collided one exactly if no call in front of a
drawn position is async and no drawn call refers to its own results.** -/
theorem schedCollide_iff (target : Target) (s : Store) (p : Prog) (perm : List Nat)
    (q₁ : Prog) (s₃ : Store) (hvalid : p.validate target s.cells = .ok ())
    (hlive : ∀ i ∈ p.ids, i < s.next) (hperm : perm.Perm (List.range p.calls.length))
    (hok : dupCallSchedCollide s p perm = .ok (q₁, s₃)) :
    SchedCollided target s p (perm.take concurrCallSize) (validateAsyncCall s₃ q₁) ↔
      Collidable s.cells p (perm.take concurrCallSize) := by
  obtain ⟨htyped, htree, -⟩ := validateWithOpts_eq_ok.mp hvalid
  obtain ⟨hlen, out, hclone⟩ :
      2 ≤ p.calls.length ∧ ∃ out, p.clone s = .ok out := by
    unfold dupCallSchedCollide at hok
    split at hok
    · cases hok
    rename_i hsmall
    refine ⟨not_lt.mp hsmall, ?_⟩
    split at hok
    · cases hok
    · cases hclone : p.clone s with
      | error panic =>
        rw [hclone] at hok
        cases hok
      | ok out => exact ⟨out, rfl⟩
  have hself : p.NoSelfReference s.cells :=
    Prog.res_ne_self_of_clone (p.validated_sublist_ids.nodup htree) hlive hclone
  have hlinked := Prog.wellLinked_of_validate hvalid hlive hself
  obtain ⟨a, b, hab, hb, hpos⟩ := take_two_perm hperm hlen
  obtain ⟨before, cA, between, cB, after, hsplit, rfl, rfl⟩ := exists_split_two hab hb
  obtain ⟨s₁, hclone₁, hdoubling, htyped₁⟩ := hlinked.doubling hsplit
  obtain ⟨rfl, rfl⟩ := dupCallSchedCollide_doubled hdoubling hclone₁ hpos hok
  exact hdoubling.schedCollided_iff (htyped₁ target htyped) hpos

end Transformation

namespace CollideSample

open AsyncSample

/-- Three calls that are not async. -/
def prog : Prog := ⟨List.replicate 3 getpid⟩

def getuid : Call := { getpid with syscall := { id := 1, name := "getuid", args := [], ret := none } }

/-- Two calls, the first of which is already async. -/
def asyncFirst : Prog := ⟨[getpid.setAsync true, getuid]⟩

end CollideSample

/-- Duplicates in front of the first and the last of three calls. -/
theorem schedCollide_three : ∃ q₁ s₃,
    CollideSample.prog.validate AsyncSample.target AsyncSample.store.cells = .ok () ∧
    dupCallSchedCollide AsyncSample.store CollideSample.prog [2, 0, 1] = .ok (q₁, s₃) ∧
    SchedCollided AsyncSample.target AsyncSample.store CollideSample.prog [2, 0]
      (validateAsyncCall s₃ q₁) :=
  ⟨_, _, rfl, rfl, (schedCollide_iff AsyncSample.target AsyncSample.store CollideSample.prog
    [2, 0, 1] _ _ rfl (by decide) (by decide) rfl).mpr (by decide)⟩

/-- **A call that is already async**: the duplicate of the call behind it is made
synchronous again. -/
theorem schedCollide_async_before : ∃ q₁ s₃,
    CollideSample.asyncFirst.validate AsyncSample.target AsyncSample.store.cells = .ok () ∧
    dupCallSchedCollide AsyncSample.store CollideSample.asyncFirst [0, 1] = .ok (q₁, s₃) ∧
    ∀ positions, ¬ SchedCollided AsyncSample.target AsyncSample.store CollideSample.asyncFirst
      positions (validateAsyncCall s₃ q₁) := by
  refine ⟨_, _, rfl, rfl, ?_⟩
  rintro positions ⟨before, cA, between, cB, after, hsplit, -, q, s', g, gA, gB, hok, hcol⟩
  have hlen : 2 = before.length + (1 + (between.length + (1 + after.length))) := by
    have h := congrArg List.length hsplit
    simp only [length_append, length_cons] at h
    have htwo : CollideSample.asyncFirst.calls.length = 2 := rfl
    omega
  obtain rfl : before = [] := length_eq_zero_iff.mp (by omega)
  obtain rfl : between = [] := length_eq_zero_iff.mp (by omega)
  obtain rfl : after = [] := length_eq_zero_iff.mp (by omega)
  have hflags : q.calls.map (·.props.async) = [true, false, true, false] := by
    rw [hcol.calls]
    rfl
  cases hok
  exact absurd hflags (by decide)

/-- **The clone of a valid program is valid**, and the program stays as it is. -/
theorem clone_validates {target : Target} {s : Store} {p : Prog}
    (hvalid : p.validate target s.cells = .ok ()) (hlive : ∀ i ∈ p.ids, i < s.next)
    (hself : p.NoSelfReference s.cells) : ∃ q s', p.clone s = .ok (q, s') ∧
      q.validate target s'.cells = .ok () ∧ ∀ i < s.next, s'.cells i = s.cells i := by
  have h := p.wellLinked_of_validate hvalid hlive hself
  obtain ⟨s', hclone, h', -, hold, hcopy⟩ := h.clone
  have htyped := h.typed_clone h' hcopy (validateWithOpts_eq_ok.mp hvalid).1
  obtain ⟨htree, hchecked, -⟩ := (wellLinked_iff_checked htyped h'.live).mp h'
  exact ⟨_, s', hclone, validateWithOpts_eq_ok.mpr ⟨htyped, htree, hchecked⟩, hold⟩

theorem clone_validates_three : ∃ q s', CollideSample.prog.clone AsyncSample.store = .ok (q, s') ∧
    q.validate AsyncSample.target s'.cells = .ok () :=
  (clone_validates rfl (by decide) (by decide)).imp fun _ h => h.imp fun _ h => ⟨h.1, h.2.1⟩

end Sect.Program
