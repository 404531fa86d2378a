import Mathlib

/-! # Kconfig dependencies

A parsed Kconfig is a tree of menus.  `walk` hands the `depends on` and `visible if`
expressions of every menu down to its elements and files the config entries by
name.  `DependsOn` collects the config names of an entry's expressions and those
that they depend on in turn; its result is computed once, under the entry's
`sync.Once`, which blocks when it is entered again by the computation it guards. -/

open List Function

namespace Sect.Kconfig

/-! ## Expressions -/

inductive BinOp
  | and | or | eq | ne | lt | le | gt | ge
  deriving DecidableEq, Repr

inductive Expr
  | shell (cmd : String)
  | not (ex : Expr)
  | ident (name : String)
  | string (val : String)
  | bin (op : BinOp) (lex rex : Expr)
  deriving DecidableEq, Repr

/-- A set of names is the list of its keys. -/
def addKey (deps : List String) (name : String) : List String :=
  if name ∈ deps then deps else deps ++ [name]

/-- Nothing is collected below a negation. -/
def Expr.collectDeps : Expr → List String → List String
  | .shell _, deps => deps
  | .not _, deps => deps
  | .ident name, deps => addKey deps name
  | .string _, deps => deps
  | .bin _ lex rex, deps => rex.collectDeps (lex.collectDeps deps)

def exprAnd : Option Expr → Option Expr → Option Expr
  | none, rex => rex
  | some lex, none => some lex
  | some lex, some rex => some (.bin .and lex rex)

/-- The names of an expression that may be absent. -/
def collect : Option Expr → List String → List String
  | none, deps => deps
  | some ex, deps => ex.collectDeps deps

/-! ## Menus -/

inductive MenuKind
  | config | group | choice | comment
  deriving DecidableEq, Repr

/-- A hierarchical menu or config, as the parser leaves it. -/
inductive Menu
  | mk (kind : MenuKind) (name : String) (dependsOn visibleIf : Option Expr) (elems : List Menu)

/-- A menu after `walk`, with the expressions of the menus above it. -/
structure Entry where
  kind : MenuKind
  name : String
  dependsOn : Option Expr
  visibleIf : Option Expr
  deriving DecidableEq, Repr

mutual

/-- The entries in the order in which they are walked. -/
def walk (dependsOn visibleIf : Option Expr) : Menu → List Entry
  | .mk kind name dep vis elems =>
    ⟨kind, name, exprAnd dependsOn dep, exprAnd visibleIf vis⟩ ::
      walkElems (exprAnd dependsOn dep) (exprAnd visibleIf vis) elems

def walkElems (dependsOn visibleIf : Option Expr) : List Menu → List Entry
  | [] => []
  | m :: elems => walk dependsOn visibleIf m ++ walkElems dependsOn visibleIf elems

end

/-- A parsed Kconfig, by its main menu. -/
structure KConfig where
  root : Menu

namespace KConfig

/-- The menus of the tree; an entry is named by its position. -/
def entries (k : KConfig) : List Entry := walk none none k.root

/-- `Configs[name]`: of several config entries of one name, the one walked last. -/
def config (k : KConfig) (name : String) : Option Nat :=
  (k.entries.zipIdx.filter fun e => e.1.kind = .config ∧ e.1.name = name).getLast?.map Prod.snd

/-- The names of an entry's own and inherited expressions. -/
def directDeps (k : KConfig) (m : Nat) : List String :=
  match k.entries[m]? with
  | none => []
  | some e => collect e.visibleIf (collect e.dependsOn [])

end KConfig

/-! ## DependsOn -/

/-- The order in which the code of an entry ranges over a map. -/
structure Order where
  range : Nat → List String → List String
  perm : ∀ m keys, (range m keys).Perm keys

/-- The state of an entry's `depsOnce`, with `deps` once it is done. -/
inductive Once
  | idle
  | running
  | done (deps : List String)
  deriving DecidableEq, Repr

abbrev Memo := Nat → Once

/-- Nothing has been computed yet. -/
def Memo.fresh : Memo := fun _ => .idle

/-- What becomes of a call: `blocks` if it waits forever. -/
inductive Outcome (α : Type)
  | returned (a : α)
  | blocks
  | outOfFuel
  deriving DecidableEq, Repr

namespace KConfig
variable (k : KConfig) (order : Order)

/-- The loop over the collected names: those that are no config are deleted, and the
dependencies of the others are gathered. -/
def rangeDeps (m : Nat) (call : Nat → Memo → Outcome (List String × Memo)) :
    List String → List String → List String → Memo →
      Outcome (List String × List String × Memo)
  | [], deps, indirect, memo => .returned (deps, indirect, memo)
  | cfg :: rest, deps, indirect, memo =>
    match k.config cfg with
    | none => rangeDeps m call rest (deps.filter (· ≠ cfg)) indirect memo
    | some dep =>
      match call dep memo with
      | .returned (deps1, memo) =>
        rangeDeps m call rest deps (indirect ++ order.range m deps1) memo
      | .blocks => .blocks
      | .outOfFuel => .outOfFuel

/-- `DependsOn` of entry `m`. -/
def dependsOnFuel : Nat → Nat → Memo → Outcome (List String × Memo)
  | 0, _, _ => .outOfFuel
  | fuel + 1, m, memo =>
    match memo m with
    | .done deps => .returned (deps, memo)
    -- `depsOnce.Do` inside its own function waits for itself
    | .running => .blocks
    | .idle =>
      match rangeDeps k order m (dependsOnFuel fuel) (order.range m (k.directDeps m))
          (k.directDeps m) [] (Function.update memo m .running) with
      | .returned (deps, indirect, memo) =>
        .returned (indirect.foldl addKey deps,
          Function.update memo m (.done (indirect.foldl addKey deps)))
      | .blocks => .blocks
      | .outOfFuel => .outOfFuel

/-- A call cannot be nested deeper than there are entries. -/
def dependsOn (m : Nat) (memo : Memo) : Outcome (List String × Memo) :=
  k.dependsOnFuel order (k.entries.length + 1) m memo

/-- Calls of `DependsOn` one after the other. -/
def calls : List (Fin k.entries.length) → Memo → Outcome Memo
  | [], memo => .returned memo
  | m :: rest, memo =>
    match k.dependsOn order m memo with
    | .returned (_, memo) => calls rest memo
    | .blocks => .blocks
    | .outOfFuel => .outOfFuel

end KConfig

/-! ## What an entry depends on -/

/-- A name occurs un-negated in an expression. -/
inductive Expr.Occurs (name : String) : Expr → Prop
  | ident : Occurs name (.ident name)
  | left {op lex rex} : Occurs name lex → Occurs name (.bin op lex rex)
  | right {op lex rex} : Occurs name rex → Occurs name (.bin op lex rex)

/-- A name occurs in the `depends on` or `visible if` expression of a menu itself. -/
def Menu.Mentions (name : String) : Menu → Prop
  | .mk _ _ dep vis _ => (∃ ex ∈ dep, ex.Occurs name) ∨ ∃ ex ∈ vis, ex.Occurs name

mutual

/-- Every menu of a tree, in the order of `walk`, with the menus it is in. -/
def Menu.chains (above : List Menu) : Menu → List (List Menu)
  | .mk kind name dep vis elems =>
    (.mk kind name dep vis elems :: above) ::
      chainsElems (.mk kind name dep vis elems :: above) elems

def chainsElems (above : List Menu) : List Menu → List (List Menu)
  | [] => []
  | m :: elems => m.chains above ++ chainsElems above elems

end

namespace KConfig
variable (k : KConfig)

/-- A declared config that occurs in an own or inherited expression of entry `m`. -/
def Needs (m : Nat) (name : String) : Prop :=
  (∃ chain ∈ (k.root.chains [])[m]?, ∃ menu ∈ chain, menu.Mentions name) ∧
    (k.config name).isSome

/-- One or more such steps, each from the entry of the config reached before. -/
inductive Reaches : Nat → String → Prop
  | step {m name} : k.Needs m name → Reaches m name
  | trans {m name dep name'} : k.Needs m name → k.config name = some dep →
      Reaches dep name' → Reaches m name'

/-- A config that depends on itself can be reached. -/
def CycleFrom (m : Nat) : Prop :=
  ∃ name dep, k.Reaches m name ∧ k.config name = some dep ∧ k.Reaches dep name

end KConfig

/-! ### The names that are collected -/

variable {x : String}

theorem mem_addKey {deps : List String} {name : String} :
    x ∈ addKey deps name ↔ x ∈ deps ∨ x = name := by
  rw [addKey]
  split
  · next h =>
      refine ⟨.inl, ?_⟩
      rintro (hx | rfl)
      · exact hx
      · exact h
  · rw [mem_append, mem_singleton]

theorem nodup_addKey {deps : List String} (h : deps.Nodup) (name : String) :
    (addKey deps name).Nodup := by
  rw [addKey]
  split
  · exact h
  · next hmem =>
      refine nodup_append.mpr ⟨h, nodup_singleton name, ?_⟩
      rintro a ha b hb rfl
      exact hmem (mem_singleton.mp hb ▸ ha)

theorem mem_foldl_addKey {names deps : List String} :
    x ∈ names.foldl addKey deps ↔ x ∈ deps ∨ x ∈ names := by
  induction names generalizing deps with
  | nil => simp
  | cons name names ih =>
    rw [foldl_cons, ih, mem_addKey, mem_cons]
    exact or_assoc

theorem mem_collectDeps {ex : Expr} {deps : List String} :
    x ∈ ex.collectDeps deps ↔ x ∈ deps ∨ ex.Occurs x := by
  induction ex generalizing deps with
  | shell cmd | not ex _ | string val => exact ⟨.inl, fun h => h.resolve_right (nomatch ·)⟩
  | ident name =>
    rw [Expr.collectDeps, mem_addKey]
    refine or_congr_right ⟨?_, ?_⟩
    · rintro rfl
      exact .ident
    · rintro ⟨⟩
      rfl
  | bin op lex rex ihl ihr =>
    rw [Expr.collectDeps, ihr, ihl, or_assoc]
    refine or_congr_right ⟨?_, ?_⟩
    · rintro (h | h)
      · exact .left h
      · exact .right h
    · rintro (_ | h | h)
      · exact .inl h
      · exact .inr h

theorem mem_collect {ex : Option Expr} {deps : List String} :
    x ∈ collect ex deps ↔ x ∈ deps ∨ ∃ e ∈ ex, e.Occurs x := by
  cases ex with
  | none => simp [collect]
  | some e =>
    rw [collect, mem_collectDeps]
    exact or_congr_right ⟨fun h => ⟨e, rfl, h⟩, fun ⟨e', he, h⟩ => Option.some.inj he ▸ h⟩

theorem occurs_exprAnd {lex rex : Option Expr} :
    (∃ e ∈ exprAnd lex rex, e.Occurs x) ↔
      (∃ e ∈ lex, e.Occurs x) ∨ ∃ e ∈ rex, e.Occurs x := by
  cases lex with
  | none => simp [exprAnd]
  | some l =>
    cases rex with
    | none => simp [exprAnd]
    | some r =>
      have hbin : (Expr.bin .and l r).Occurs x ↔ l.Occurs x ∨ r.Occurs x := by
        refine ⟨?_, fun h => h.elim .left .right⟩
        rintro (_ | h | h)
        · exact .inl h
        · exact .inr h
      simpa [exprAnd] using hbin

/-- An entry's expressions are those of the menus it is in. -/
structure Entry.Inherits (e : Entry) (chain : List Menu) : Prop where
  names : ∀ x, x ∈ collect e.visibleIf (collect e.dependsOn []) ↔
    ∃ menu ∈ chain, menu.Mentions x

theorem mem_collect_both {dep vis : Option Expr} :
    x ∈ collect vis (collect dep []) ↔ (∃ e ∈ dep, e.Occurs x) ∨ ∃ e ∈ vis, e.Occurs x := by
  rw [mem_collect, mem_collect]
  simp

mutual

theorem inherits_walk {above : List Menu} {dep vis : Option Expr}
    (h : ∀ x, x ∈ collect vis (collect dep []) ↔ ∃ menu ∈ above, menu.Mentions x) :
    ∀ m : Menu, List.Forall₂ Entry.Inherits (walk dep vis m) (m.chains above)
  | .mk kind name dep' vis' elems => by
    have hself : ∀ x, x ∈ collect (exprAnd vis vis') (collect (exprAnd dep dep') []) ↔
        ∃ menu ∈ Menu.mk kind name dep' vis' elems :: above, menu.Mentions x := by
      intro x
      have habove := h x
      rw [mem_collect_both] at habove ⊢
      rw [occurs_exprAnd, occurs_exprAnd, or_or_or_comm, habove, or_comm,
        exists_mem_cons_iff]
      rfl
    exact .cons ⟨hself⟩ (inherits_walkElems hself elems)

theorem inherits_walkElems {above : List Menu} {dep vis : Option Expr}
    (h : ∀ x, x ∈ collect vis (collect dep []) ↔ ∃ menu ∈ above, menu.Mentions x) :
    ∀ elems : List Menu,
      List.Forall₂ Entry.Inherits (walkElems dep vis elems) (chainsElems above elems)
  | [] => by
    exact .nil
  | m :: elems => by
    exact rel_append (inherits_walk h m) (inherits_walkElems h elems)

end

namespace KConfig
variable {k : KConfig} {order : Order}

variable {m : Nat} {name : String}

/-- **The names collected for an entry are those of the menus it is in.** -/
theorem mem_directDeps {x : String} :
    x ∈ k.directDeps m ↔
      ∃ chain ∈ (k.root.chains [])[m]?, ∃ menu ∈ chain, menu.Mentions x := by
  have hall : List.Forall₂ Entry.Inherits k.entries (k.root.chains []) :=
    inherits_walk (by simp [collect]) k.root
  rw [directDeps]
  cases hentry : k.entries[m]? with
  | none =>
    have hlen := getElem?_eq_none_iff.mp hentry
    rw [hall.length_eq] at hlen
    rw [getElem?_eq_none_iff.mpr hlen]
    simp
  | some e =>
    obtain ⟨hm, he⟩ := List.getElem?_eq_some_iff.mp hentry
    have hm' : m < (k.root.chains []).length := hall.length_eq ▸ hm
    have hinherits := hall.get hm hm'
    rw [getElem?_eq_getElem hm']
    have hnames := hinherits.names x
    rw [get_eq_getElem, get_eq_getElem, he] at hnames
    simpa using hnames

theorem needs_iff {x : String} : k.Needs m x ↔ x ∈ k.directDeps m ∧ (k.config x).isSome := by
  rw [Needs, mem_directDeps]

theorem config_lt (h : k.config name = some m) : m < k.entries.length := by
  rw [config, Option.map_eq_some_iff] at h
  obtain ⟨⟨e, i⟩, hlast, rfl⟩ := h
  have hmem := (List.mem_filter.mp (List.mem_of_getLast? hlast)).1
  exact (List.getElem?_eq_some_iff.mp (List.mem_zipIdx_iff_getElem?.mp hmem)).1

/-! ### Steps and cycles -/

theorem Reaches.append {dep : Nat} {name' : String} (h : k.Reaches m name)
    (hconf : k.config name = some dep) (h' : k.Reaches dep name') : k.Reaches m name' := by
  induction h with
  | step hneeds => exact .trans hneeds hconf h'
  | trans hneeds hconf' _ ih => exact .trans hneeds hconf' (ih hconf)

theorem CycleFrom.of_needs {dep : Nat} (hneeds : k.Needs m name) (hconf : k.config name = some dep)
    (h : k.CycleFrom dep) : k.CycleFrom m := by
  obtain ⟨name', dep', hreach, hconf', hback⟩ := h
  exact ⟨name', dep', .trans hneeds hconf hreach, hconf', hback⟩

/-- A cycle that an entry reaches is reached by one of the configs it needs. -/
theorem CycleFrom.needs (h : k.CycleFrom m) :
    ∃ name dep, k.Needs m name ∧ k.config name = some dep ∧ k.CycleFrom dep := by
  obtain ⟨name, dep, hreach, hconf, hback⟩ := h
  cases hreach with
  | step hneeds => exact ⟨name, dep, hneeds, hconf, name, dep, hback, hconf, hback⟩
  | trans hneeds hconf' hrest => exact ⟨_, _, hneeds, hconf', name, dep, hrest, hconf, hback⟩

theorem reaches_iff :
    k.Reaches m name ↔ k.Needs m name ∨
      ∃ cfg dep, k.Needs m cfg ∧ k.config cfg = some dep ∧ k.Reaches dep name := by
  constructor
  · rintro (hneeds | ⟨hneeds, hconf, hrest⟩)
    · exact .inl hneeds
    · exact .inr ⟨_, _, hneeds, hconf, hrest⟩
  · rintro (hneeds | ⟨cfg, dep, hneeds, hconf, hrest⟩)
    · exact .step hneeds
    · exact .trans hneeds hconf hrest

end KConfig

/-! ## The computation -/

namespace KConfig
variable {k : KConfig} {order : Order}

/-- What has been computed is exact, and was computed because it meets no cycle. -/
def Sound (k : KConfig) (memo : Memo) : Prop :=
  ∀ m deps, memo m = .done deps →
    (∀ name, name ∈ deps ↔ k.Reaches m name) ∧ ¬ k.CycleFrom m

/-- The entries that have not been entered. -/
def idleEntries (k : KConfig) (memo : Memo) : Finset Nat :=
  (Finset.range k.entries.length).filter fun m => memo m = .idle

theorem sound_fresh : k.Sound Memo.fresh := fun _ _ h => nomatch h

variable {memo memo' : Memo} {m : Nat} {indirect : List String}

theorem Sound.update_running (h : k.Sound memo) (m : Nat) :
    k.Sound (Function.update memo m .running) := by
  intro i deps hi
  rcases eq_or_ne i m with rfl | hne
  · rw [update_self] at hi
    cases hi
  · rw [update_of_ne hne] at hi
    exact h i deps hi

/-- The memo between two calls: what is running is unchanged, and no entry gets
idle again. -/
structure Extends (k : KConfig) (memo memo' : Memo) : Prop where
  sound : k.Sound memo'
  running : ∀ m, memo' m = .running ↔ memo m = .running
  idle : k.idleEntries memo' ⊆ k.idleEntries memo

theorem Extends.refl (h : k.Sound memo) : k.Extends memo memo :=
  ⟨h, fun _ => .rfl, subset_rfl⟩

theorem Extends.trans {memo'' : Memo} (h : k.Extends memo memo') (h' : k.Extends memo' memo'') :
    k.Extends memo memo'' :=
  ⟨h'.sound, fun m => (h'.running m).trans (h.running m), h'.idle.trans h.idle⟩

/-- What a call must guarantee about its outcome. -/
def Meets (k : KConfig) (m : Nat) (memo : Memo) : Outcome (List String × Memo) → Prop
  | .returned (deps, memo') => k.Extends memo memo' ∧ memo' m = .done deps
  | .blocks => k.CycleFrom m
  | .outOfFuel => False

/-- Every running entry waits for entry `m`. -/
def Waiting (k : KConfig) (memo : Memo) (m : Nat) : Prop :=
  ∀ r, memo r = .running → ∃ name, k.Reaches r name ∧ k.config name = some m

/-- What the loop over the names of entry `m` guarantees. -/
def LoopMeets (k : KConfig) (m : Nat) (names deps indirect : List String) (memo : Memo) :
    Outcome (List String × List String × Memo) → Prop
  | .returned (deps', indirect', memo') =>
    k.Extends memo memo' ∧
    (∀ x, x ∈ deps' ↔ x ∈ deps ∧ (x ∈ names → (k.config x).isSome)) ∧
    (∀ x, x ∈ indirect' ↔ x ∈ indirect ∨
      ∃ cfg ∈ names, ∃ dep, k.config cfg = some dep ∧ k.Reaches dep x) ∧
    ∀ cfg ∈ names, ∀ dep, k.config cfg = some dep → ¬ k.CycleFrom dep
  | .blocks => k.CycleFrom m
  | .outOfFuel => False

/-- A name that is no config is deleted. -/
theorem LoopMeets.undeclared {cfg : String} {rest deps : List String}
    {out : Outcome (List String × List String × Memo)} (hconf : k.config cfg = none)
    (h : k.LoopMeets m rest (deps.filter (· ≠ cfg)) indirect memo out) :
    k.LoopMeets m (cfg :: rest) deps indirect memo out := by
  match out, h with
  | .blocks, h => exact h
  | .returned (deps', indirect', memo'), ⟨hext, hdeps, hind, hcyc⟩ =>
    refine ⟨hext, fun x => ?_, fun x => ?_, fun c hc dep hdep => ?_⟩
    · rw [hdeps, mem_filter, mem_cons, decide_eq_true_eq]
      constructor
      · rintro ⟨⟨hx, hne⟩, hdecl⟩
        exact ⟨hx, fun hmem => hdecl (hmem.resolve_left hne)⟩
      rintro ⟨hx, hdecl⟩
      refine ⟨⟨hx, ?_⟩, fun hmem => hdecl (.inr hmem)⟩
      rintro rfl
      have hsome := hdecl (.inl rfl)
      rw [hconf] at hsome
      cases hsome
    · rw [hind, exists_mem_cons_iff, hconf]
      simp
    · rcases mem_cons.mp hc with rfl | hc
      · rw [hconf] at hdep
        cases hdep
      · exact hcyc c hc dep hdep

/-- The dependencies of a config are gathered. -/
theorem LoopMeets.declared {dep : Nat} {cfg : String} {rest deps deps1 : List String} {memo₁ : Memo}
    {out : Outcome (List String × List String × Memo)} (hconf : k.config cfg = some dep)
    (hext₁ : k.Extends memo memo₁) (hdone : memo₁ dep = .done deps1)
    (h : k.LoopMeets m rest deps (indirect ++ order.range m deps1) memo₁ out) :
    k.LoopMeets m (cfg :: rest) deps indirect memo out := by
  obtain ⟨hexact, hacyc⟩ := hext₁.sound dep deps1 hdone
  match out, h with
  | .blocks, h => exact h
  | .returned (deps', indirect', memo'), ⟨hext, hdeps, hind, hcyc⟩ =>
    refine ⟨hext₁.trans hext, fun x => ?_, fun x => ?_, fun c hc dep' hdep' => ?_⟩
    · rw [hdeps, mem_cons]
      refine and_congr_right fun _ => ⟨?_, fun hdecl hmem => hdecl (.inr hmem)⟩
      rintro hdecl (rfl | hmem)
      · rw [hconf]
        rfl
      · exact hdecl hmem
    · rw [hind, mem_append, (order.perm m deps1).mem_iff, hexact,
        exists_mem_cons_iff, hconf, or_assoc]
      simp
    · rcases mem_cons.mp hc with rfl | hc
      · rw [hconf] at hdep'
        exact Option.some.inj hdep' ▸ hacyc
      · exact hcyc c hc dep' hdep'

/-- The loop, if the calls it makes keep their guarantee. -/
theorem rangeDeps_meets {call : Nat → Memo → Outcome (List String × Memo)}
    {names deps : List String} (hsound : k.Sound memo)
    (hnames : ∀ cfg ∈ names, cfg ∈ k.directDeps m)
    (hcall : ∀ cfg ∈ names, ∀ dep memo', k.config cfg = some dep → k.Extends memo memo' →
      k.Meets dep memo' (call dep memo')) :
    k.LoopMeets m names deps indirect memo
      (k.rangeDeps order m call names deps indirect memo) := by
  induction names generalizing deps indirect memo with
  | nil => exact ⟨.refl hsound, by simp, by simp, by simp⟩
  | cons cfg rest ih =>
    obtain ⟨hcfg, hrest⟩ := forall_mem_cons.mp hnames
    rw [rangeDeps]
    cases hconf : k.config cfg with
    | none =>
      exact .undeclared hconf (ih hsound hrest fun c hc => hcall c (mem_cons_of_mem _ hc))
    | some dep =>
      have hmeets := hcall cfg mem_cons_self dep memo hconf (.refl hsound)
      have hneeds : k.Needs m cfg := needs_iff.mpr ⟨hcfg, by rw [hconf]; rfl⟩
      dsimp only
      generalize call dep memo = out at hmeets ⊢
      match out, hmeets with
      | .blocks, hmeets => exact hmeets.of_needs hneeds hconf
      | .returned (deps1, memo₁), ⟨hext₁, hdone⟩ =>
        exact .declared hconf hext₁ hdone (ih hext₁.sound hrest
          fun c hc dep' memo' hdep' hext' =>
            hcall c (mem_cons_of_mem _ hc) dep' memo' hdep' (hext₁.trans hext'))

/-- Entering an idle entry leaves fewer idle ones. -/
theorem card_idleEntries_running (hm : m < k.entries.length) (hidle : memo m = .idle) :
    (k.idleEntries (Function.update memo m .running)).card < (k.idleEntries memo).card := by
  refine Finset.card_lt_card (Finset.ssubset_iff_subset_ne.mpr ⟨fun i hi => ?_, fun heq => ?_⟩)
  · rw [idleEntries, Finset.mem_filter] at hi ⊢
    rcases eq_or_ne i m with rfl | hne
    · exact ⟨hi.1, hidle⟩
    · rwa [update_of_ne hne] at hi
  · have hmem : m ∈ k.idleEntries memo :=
      Finset.mem_filter.mpr ⟨Finset.mem_range.mpr hm, hidle⟩
    rw [← heq, idleEntries, Finset.mem_filter, update_self] at hmem
    exact nomatch hmem.2

/-- When the loop is over, the entry is done. -/
theorem LoopMeets.finish {names deps : List String} (hm : memo m = .idle)
    (hnames : ∀ x, x ∈ names ↔ x ∈ k.directDeps m)
    (h : k.LoopMeets m names (k.directDeps m) [] (Function.update memo m .running)
      (.returned (deps, indirect, memo'))) :
    k.Meets m memo (.returned (indirect.foldl addKey deps,
      Function.update memo' m (.done (indirect.foldl addKey deps)))) := by
  obtain ⟨hext, hdeps, hind, hcyc⟩ := h
  have hexact : ∀ x, x ∈ indirect.foldl addKey deps ↔ k.Reaches m x := by
    intro x
    rw [mem_foldl_addKey, hdeps, hind, reaches_iff, needs_iff, hnames]
    refine or_congr (and_congr_right fun hx => forall_prop_of_true hx) ?_
    simp only [not_mem_nil, false_or]
    constructor
    · rintro ⟨cfg, hcfg, dep, hdep, hreach⟩
      refine ⟨cfg, dep, needs_iff.mpr ⟨(hnames cfg).mp hcfg, by rw [hdep]; rfl⟩, hdep, hreach⟩
    · rintro ⟨cfg, dep, hneeds, hdep, hreach⟩
      exact ⟨cfg, (hnames cfg).mpr (needs_iff.mp hneeds).1, dep, hdep, hreach⟩
  have hacyc : ¬ k.CycleFrom m := by
    intro hcycle
    obtain ⟨name, dep, hneeds, hdep, hrest⟩ := hcycle.needs
    exact hcyc name ((hnames name).mpr (needs_iff.mp hneeds).1) dep hdep hrest
  refine ⟨⟨fun i deps' hi => ?_, fun i => ?_, fun i hi => ?_⟩, update_self ..⟩
  · rcases eq_or_ne i m with rfl | hne
    · rw [update_self] at hi
      cases hi
      exact ⟨hexact, hacyc⟩
    · rw [update_of_ne hne] at hi
      exact hext.sound i deps' hi
  · rcases eq_or_ne i m with rfl | hne
    · rw [update_self, hm]
      exact ⟨(nomatch ·), (nomatch ·)⟩
    · rw [update_of_ne hne, hext.running, update_of_ne hne]
  · rw [idleEntries, Finset.mem_filter] at hi ⊢
    rcases eq_or_ne i m with rfl | hne
    · exact ⟨hi.1, hm⟩
    · rw [update_of_ne hne] at hi
      have hidle := hext.idle (Finset.mem_filter.mpr hi)
      rwa [idleEntries, Finset.mem_filter, update_of_ne hne] at hidle

/-- **A call returns the exact closure, or blocks on a cycle it can reach.**  By
induction on the nesting of calls; the running entries are those it is nested in. -/
theorem dependsOnFuel_meets {fuel : Nat} (hm : m < k.entries.length) (hsound : k.Sound memo)
    (hwait : k.Waiting memo m) (hfuel : (k.idleEntries memo).card < fuel) :
    k.Meets m memo (k.dependsOnFuel order fuel m memo) := by
  induction fuel generalizing m memo with
  | zero => exact absurd hfuel (Nat.not_lt_zero _)
  | succ fuel ih =>
    rw [dependsOnFuel]
    cases hstate : memo m with
    | done deps => exact ⟨.refl hsound, hstate⟩
    | running =>
      obtain ⟨name, hreach, hconf⟩ := hwait m hstate
      exact ⟨name, m, hreach, hconf, hreach⟩
    | idle =>
      have hrange : ∀ x, x ∈ order.range m (k.directDeps m) ↔ x ∈ k.directDeps m :=
        fun x => (order.perm m _).mem_iff
      have hloop : k.LoopMeets m (order.range m (k.directDeps m)) (k.directDeps m) []
          (Function.update memo m .running)
          (k.rangeDeps order m (k.dependsOnFuel order fuel)
            (order.range m (k.directDeps m)) (k.directDeps m) []
            (Function.update memo m .running)) := by
        refine rangeDeps_meets (hsound.update_running m) (fun cfg hcfg => (hrange cfg).mp hcfg)
          fun cfg hcfg dep memo' hdep hext => ih (config_lt hdep) hext.sound ?_ ?_
        · -- what waited for `m` waits for `dep`, and so does `m`
          have hneeds : k.Needs m cfg :=
            needs_iff.mpr ⟨(hrange cfg).mp hcfg, by rw [hdep]; rfl⟩
          intro r hr
          rw [hext.running] at hr
          rcases eq_or_ne r m with rfl | hne
          · exact ⟨cfg, .step hneeds, hdep⟩
          · rw [update_of_ne hne] at hr
            obtain ⟨name, hreach, hconf⟩ := hwait r hr
            exact ⟨cfg, hreach.append hconf (.step hneeds), hdep⟩
        · have hless := card_idleEntries_running hm hstate
          have hle := Finset.card_le_card hext.idle
          omega
      generalize k.rangeDeps order m (k.dependsOnFuel order fuel)
        (order.range m (k.directDeps m)) (k.directDeps m) []
        (Function.update memo m .running) = out at hloop ⊢
      match out, hloop with
      | .blocks, hloop => exact hloop
      | .returned (deps, indirect, memo'), hloop => exact hloop.finish hstate hrange

/-- No call is under way. -/
def Quiet (memo : Memo) : Prop := ∀ m, memo m ≠ .running

theorem dependsOn_meets (hm : m < k.entries.length) (hsound : k.Sound memo) (hquiet : Quiet memo) :
    k.Meets m memo (k.dependsOn order m memo) := by
  refine dependsOnFuel_meets hm hsound (fun r hr => absurd hr (hquiet r)) ?_
  have hcard := Finset.card_filter_le (Finset.range k.entries.length) fun m => memo m = .idle
  rw [Finset.card_range] at hcard
  exact Nat.lt_succ_of_le hcard

/-- After calls that returned, what has been computed is exact. -/
theorem sound_of_calls {earlier : List (Fin k.entries.length)} (hsound : k.Sound memo)
    (hquiet : Quiet memo) (h : k.calls order earlier memo = .returned memo') :
    k.Sound memo' ∧ Quiet memo' := by
  induction earlier generalizing memo with
  | nil =>
    cases h
    exact ⟨hsound, hquiet⟩
  | cons m rest ih =>
    have hmeets : k.Meets m memo (k.dependsOn order m memo) :=
      dependsOn_meets m.isLt hsound hquiet
    rw [calls] at h
    generalize k.dependsOn order m memo = out at h hmeets
    match out, h, hmeets with
    | .returned (deps, memo₁), h, ⟨hext, _⟩ =>
      exact ih hext.sound (fun i hi => hquiet i ((hext.running i).mp hi)) h

/-- **The dependency closure.**  After any calls that returned, and for every order in
which maps are ranged over, `DependsOn` of an entry returns exactly the configs it
reaches if and only if it reaches no config that depends on itself. -/
theorem dependsOn_exact_iff (k : KConfig) (order : Order)
    (earlier : List (Fin k.entries.length)) (memo : Memo)
    (hearlier : k.calls order earlier Memo.fresh = .returned memo) (m : Fin k.entries.length) :
    (∃ deps memo', k.dependsOn order m memo = .returned (deps, memo') ∧
      ∀ name, name ∈ deps ↔ k.Reaches m name) ↔ ¬ k.CycleFrom m := by
  obtain ⟨hsound, hquiet⟩ := sound_of_calls sound_fresh (fun _ => (nomatch ·)) hearlier
  have hmeets : k.Meets m memo (k.dependsOn order m memo) := dependsOn_meets m.isLt hsound hquiet
  constructor
  · rintro ⟨deps, memo', hret, -⟩
    rw [hret] at hmeets
    obtain ⟨hext, hdone⟩ := hmeets
    exact (hext.sound m deps hdone).2
  · intro hacyc
    generalize k.dependsOn order m memo = out at hmeets ⊢
    match out, hmeets with
    | .blocks, hmeets => exact absurd hmeets hacyc
    | .returned (deps, memo'), ⟨hext, hdone⟩ =>
      exact ⟨deps, memo', rfl, (hext.sound m deps hdone).1⟩

/-- A call that returns has met no cycle. -/
theorem not_cycleFrom_of_returned {deps : List String} (hm : m < k.entries.length)
    (h : k.dependsOn order m Memo.fresh = .returned (deps, memo)) : ¬ k.CycleFrom m := by
  have hmeets : k.Meets m .fresh (k.dependsOn order m .fresh) :=
    dependsOn_meets hm sound_fresh fun _ => (nomatch ·)
  rw [h] at hmeets
  exact (hmeets.1.sound m deps hmeets.2).2

end KConfig

/-- Maps ranged over in the order in which the keys were added. -/
def Order.asAdded : Order := ⟨fun _ keys => keys, fun _ _ => .refl _⟩

/-- The configs of a call that returns. -/
def Outcome.deps {α : Type} : Outcome (List String × α) → Option (List String)
  | .returned (deps, _) => some deps
  | .blocks => none
  | .outOfFuel => none

/-- `if NET`, `config USB`, `depends on PCI && !WIFI`, `endif` and `config NET`,
`depends on PCI`, without a config `PCI`. -/
def usbMenu : KConfig where
  root := .mk .config "" none none [
    .mk .group "" none (some (.ident "NET")) [
      .mk .config "USB" (some (.bin .and (.ident "PCI") (.not (.ident "WIFI")))) none []],
    .mk .config "NET" (some (.ident "PCI")) none []]

theorem dependsOn_exact_usb :
    ∃ memo, usbMenu.calls .asAdded [⟨3, by decide⟩] Memo.fresh = .returned memo ∧
      ∃ deps memo', usbMenu.dependsOn .asAdded 2 memo = .returned (deps, memo') ∧
        ∀ name, name ∈ deps ↔ usbMenu.Reaches 2 name := by
  have hrun : (usbMenu.dependsOn .asAdded 2 .fresh).deps = some ["NET"] := by decide +kernel
  have hacyc : ¬ usbMenu.CycleFrom 2 := by
    cases hout : usbMenu.dependsOn .asAdded 2 .fresh with
    | returned r => exact KConfig.not_cycleFrom_of_returned (by decide) hout
    | blocks | outOfFuel => rw [hout] at hrun; cases hrun
  have hcalls : usbMenu.calls .asAdded [⟨3, by decide⟩] .fresh =
      .returned (Function.update (Function.update Memo.fresh 3 .running) 3 (.done [])) := rfl
  exact ⟨_, hcalls, (KConfig.dependsOn_exact_iff usbMenu .asAdded _ _ hcalls
    ⟨2, by decide⟩).mpr hacyc⟩

/-- `config A`, `depends on B` and `config B`, `depends on A`. -/
def cyclicMenu : KConfig where
  root := .mk .config "" none none [
    .mk .config "A" (some (.ident "B")) none [],
    .mk .config "B" (some (.ident "A")) none []]

/-- **`DependsOn` waits for itself forever.** -/
theorem dependsOn_blocks_on_cycle :
    cyclicMenu.calls .asAdded [] Memo.fresh = .returned Memo.fresh ∧
      cyclicMenu.dependsOn .asAdded 1 Memo.fresh = .blocks ∧
      ¬ ∃ deps memo', cyclicMenu.dependsOn .asAdded 1 Memo.fresh = .returned (deps, memo') ∧
        ∀ name, name ∈ deps ↔ cyclicMenu.Reaches 1 name := by
  have hblocks : cyclicMenu.dependsOn .asAdded 1 .fresh = .blocks := rfl
  refine ⟨rfl, hblocks, ?_⟩
  rintro ⟨deps, memo', hret, -⟩
  cases hret

end Sect.Kconfig
