import SectProof.KconfigDeps
import SectProof.SliceMinimize

/-! # Kernel config minimization

`Minimize` looks for the options that make a predicate true for a full config, but
not for a base config.  Of the options that are `y` in full and not set in base it
takes the leaves, those that no other of them depends on, and bisects their list;
a candidate is the base config with some leaves, what they depend on and the options
of full that are no tristate. -/

namespace Sect.Kconfig

/-! ## Config files -/

/-- The value of an option, with the comments above it. -/
structure Config where
  value : String
  comments : List String
  deriving DecidableEq, Repr

/-- A parsed .config file. -/
structure ConfigFile where
  configs : Table String Config
  comments : List String

def yes : String := "y"

def mod : String := "m"

def no : String := "---===[[[is not set]]]===---"

namespace ConfigFile

/-- The value of an option, or `no` if it is not present at all. -/
def value (cf : ConfigFile) (name : String) : String :=
  match cf.configs.lookup name with
  | none => no
  | some cfg => cfg.value

/-- Changes the value of an option, or adds it if it is not yet present. -/
def set (cf : ConfigFile) (name val : String) : ConfigFile where
  configs := match cf.configs.lookup name with
    | none => cf.configs.insert name ⟨val, cf.comments⟩
    | some cfg => cf.configs.insert name ⟨val, cfg.comments ++ cf.comments⟩
  comments := []

/-- Options set one after the other. -/
def setAll (cf : ConfigFile) (cfgs : List (String × String)) : ConfigFile :=
  cfgs.foldl (fun cf cfg => cf.set cfg.1 cfg.2) cf

theorem value_set (cf : ConfigFile) (name val x : String) :
    (cf.set name val).value x = if x = name then val else cf.value x := by
  rw [value, set, value]
  cases cf.configs.lookup name with
  | none | some cfg =>
    rw [Table.lookup_insert]
    by_cases hx : x = name
    · rw [if_pos hx, if_pos hx]
    · rw [if_neg hx, if_neg hx]

variable {cfgs : List (String × String)} {x : String}

theorem value_setAll_of_notMem (h : ∀ cfg ∈ cfgs, cfg.1 ≠ x) (cf : ConfigFile) :
    (cf.setAll cfgs).value x = cf.value x := by
  induction cfgs generalizing cf with
  | nil => rfl
  | cons cfg cfgs ih =>
    obtain ⟨hcfg, hcfgs⟩ := List.forall_mem_cons.mp h
    exact (ih hcfgs _).trans ((value_set ..).trans (if_neg (Ne.symm hcfg)))

/-- An option that is set to one value only has this value. -/
theorem value_setAll_of_mem {val : String} (hmem : ∃ cfg ∈ cfgs, cfg.1 = x)
    (hval : ∀ cfg ∈ cfgs, cfg.1 = x → cfg.2 = val) (cf : ConfigFile) :
    (cf.setAll cfgs).value x = val := by
  induction cfgs generalizing cf with
  | nil =>
    obtain ⟨cfg, hcfg, -⟩ := hmem
    cases hcfg
  | cons cfg cfgs ih =>
    obtain ⟨hcfg, hcfgs⟩ := List.forall_mem_cons.mp hval
    by_cases hlater : ∃ c ∈ cfgs, c.1 = x
    · exact ih hlater hcfgs _
    push Not at hlater
    have hx : cfg.1 = x := by
      obtain ⟨c, hc, hcx⟩ := hmem
      rcases List.mem_cons.mp hc with rfl | hc
      · exact hcx
      · exact absurd hcx (hlater c hc)
    refine (value_setAll_of_notMem hlater _).trans ((value_set ..).trans ?_)
    rw [if_pos hx.symm]
    exact hcfg hx

end ConfigFile

/-! ## The difference of two configs -/

section Difference
variable (base full : ConfigFile)

/-- `sort.Strings`. -/
def sortStrings (names : List String) : List String := names.insertionSort (· ≤ ·)

theorem mem_sortStrings {names : List String} {x : String} : x ∈ sortStrings names ↔ x ∈ names :=
  (List.perm_insertionSort (· ≤ ·) names).mem_iff

/-- The options that are `y` in full and not set in base. -/
def missingTristate : List String :=
  sortStrings ((full.configs.entries.filter fun cfg =>
    cfg.2.value = yes && base.value cfg.1 = no).map Prod.fst)

/-- The options of full with another value than `y`, `m` and not set. -/
def missingOther : List (String × String) :=
  (full.configs.entries.filter fun cfg =>
    !(cfg.2.value = yes && base.value cfg.1 = no) &&
      (cfg.2.value ≠ no && cfg.2.value ≠ yes && cfg.2.value ≠ mod)).map
    fun cfg => (cfg.1, cfg.2.value)

-- `DependsOn` of the entry of a config, or nothing if it has none
variable (deps : String → List String)

/-- The closure of the options, by what is set in full and not in base. -/
def closeOver (closure : List String) (cfg : String) : List String :=
  (deps cfg).foldl (fun closure dep =>
    if full.value dep ≠ no ∧ base.value dep = no then addKey closure dep else closure)
    (addKey closure cfg)

def addDependencies (configs : List String) : List String :=
  sortStrings (configs.foldl (closeOver base full deps) [])

/-- What an option of the difference needs besides itself. -/
def neededBy (config : String) : List String :=
  (addDependencies base full deps [config]).filter (· ≠ config)

/-- The options of the difference no other of them depends upon. -/
def missingLeafConfigs : List String :=
  (missingTristate base full).filter fun key =>
    !((missingTristate base full).flatMap (neededBy base full deps)).contains key

/-- The candidate config of some leaves. -/
def diffToConfig (part : List String) : ConfigFile :=
  if part.isEmpty then base
  else (base.setAll (missingOther base full)).setAll
    ((addDependencies base full deps part).map fun cfg => (cfg, yes))

/-- `Minimize`; `none` if the bisection does not end. -/
def minimize {ε : Type} (log2Exceeds : Nat → Int → Bool) (pred : ConfigFile → Except ε Bool)
    (maxSteps : Int) : Option (Except (Minimize.Error ε) ConfigFile) :=
  match Minimize.slice log2Exceeds
      ⟨fun diffs => pred (diffToConfig base full deps diffs), maxSteps, 0⟩
      (missingLeafConfigs base full deps) with
  | none => none
  | some (_, some e, _) => some (.error e)
  | some (result, none, _) => some (.ok (diffToConfig base full deps result))

end Difference

/-! ## Kconfigs without cycles -/

/-- A parsed Kconfig in which no config depends on itself. -/
structure AcyclicKConfig extends KConfig where
  acyclic : ∀ name dep, toKConfig.config name = some dep → ¬ toKConfig.Reaches dep name

namespace AcyclicKConfig
variable (k : AcyclicKConfig) (order : Order)

theorem not_cycleFrom (m : Nat) : ¬ k.CycleFrom m := by
  rintro ⟨name, dep, -, hconf, hback⟩
  exact k.acyclic name dep hconf hback

/-- `DependsOn` of the entry of a config, as the memo stands. -/
def depsIn (memo : Memo) (name : String) : List String :=
  match k.config name with
  | none => []
  | some m => (k.dependsOn order m memo).deps.getD []

/-- The dependencies of a config. -/
def deps (name : String) : List String := k.depsIn order Memo.fresh name

/-- One config depends on another one. -/
def DependsOn (a b : String) : Prop := ∃ m, k.config a = some m ∧ k.Reaches m b

variable {k order}

theorem mem_depsIn {memo : Memo} (hsound : k.Sound memo) (hquiet : KConfig.Quiet memo)
    {a b : String} : b ∈ k.depsIn order memo a ↔ k.DependsOn a b := by
  rw [depsIn, DependsOn]
  cases hconf : k.config a with
  | none => simp
  | some m =>
    have hmeets : k.Meets m memo (k.dependsOn order m memo) :=
      KConfig.dependsOn_meets (KConfig.config_lt hconf) hsound hquiet
    dsimp only
    generalize k.dependsOn order m memo = out at hmeets ⊢
    match out, hmeets with
    | .blocks, hmeets => exact absurd hmeets (k.not_cycleFrom m)
    | .returned (deps, memo'), ⟨hext, hdone⟩ =>
      have hexact := (hext.sound m deps hdone).1 b
      simpa [Outcome.deps] using hexact

theorem mem_deps {a b : String} : b ∈ k.deps order a ↔ k.DependsOn a b :=
  mem_depsIn KConfig.sound_fresh fun _ => (nomatch ·)

theorem DependsOn.trans {a b c : String} (hab : k.DependsOn a b) (hbc : k.DependsOn b c) :
    k.DependsOn a c := by
  obtain ⟨m, hm, hreach⟩ := hab
  obtain ⟨m', hm', hreach'⟩ := hbc
  exact ⟨m, hm, hreach.append hm' hreach'⟩

theorem DependsOn.irrefl (a : String) : ¬ k.DependsOn a a := fun ⟨m, hm, hreach⟩ =>
  k.acyclic a m hm hreach

end AcyclicKConfig

/-! ## Leaves -/

section Leaves
variable {base full : ConfigFile} {deps deps' : String → List String}

variable {x : String}

theorem mem_closeOver {closure : List String} {cfg : String} :
    x ∈ closeOver base full deps closure cfg ↔ x ∈ closure ∨ x = cfg ∨
      x ∈ deps cfg ∧ full.value x ≠ no ∧ base.value x = no := by
  have hfold : ∀ (l closure : List String), x ∈ l.foldl (fun closure dep =>
      if full.value dep ≠ no ∧ base.value dep = no then addKey closure dep else closure) closure ↔
      x ∈ closure ∨ x ∈ l ∧ full.value x ≠ no ∧ base.value x = no := by
    intro l
    induction l with
    | nil => simp
    | cons dep l ih =>
      intro closure
      rw [List.foldl_cons, ih, List.mem_cons]
      split
      · next hset =>
          rw [mem_addKey]
          constructor
          · rintro ((h | rfl) | ⟨hl, hx⟩)
            · exact .inl h
            · exact .inr ⟨.inl rfl, hset⟩
            · exact .inr ⟨.inr hl, hx⟩
          · rintro (h | ⟨rfl | hl, hx⟩)
            · exact .inl (.inl h)
            · exact .inl (.inr rfl)
            · exact .inr ⟨hl, hx⟩
      · next hset =>
          constructor
          · rintro (h | ⟨hl, hx⟩)
            · exact .inl h
            · exact .inr ⟨.inr hl, hx⟩
          · rintro (h | ⟨rfl | hl, hx⟩)
            · exact .inl h
            · exact absurd hx hset
            · exact .inr ⟨hl, hx⟩
  rw [closeOver, hfold, mem_addKey, or_assoc]

theorem mem_addDependencies {configs : List String} :
    x ∈ addDependencies base full deps configs ↔ x ∈ configs ∨
      ∃ cfg ∈ configs, x ∈ deps cfg ∧ full.value x ≠ no ∧ base.value x = no := by
  have hfold : ∀ closure : List String, x ∈ configs.foldl (closeOver base full deps) closure ↔
      x ∈ closure ∨ x ∈ configs ∨
        ∃ cfg ∈ configs, x ∈ deps cfg ∧ full.value x ≠ no ∧ base.value x = no := by
    induction configs with
    | nil => simp
    | cons cfg configs ih =>
      intro closure
      rw [List.foldl_cons, ih, mem_closeOver, List.mem_cons, List.exists_mem_cons_iff]
      tauto
  rw [addDependencies, mem_sortStrings, hfold]
  simp

theorem mem_missingTristate :
    x ∈ missingTristate base full ↔ full.value x = yes ∧ base.value x = no := by
  rw [missingTristate, mem_sortStrings, List.mem_map, ConfigFile.value]
  constructor
  · rintro ⟨⟨name, cfg⟩, hcfg, rfl⟩
    rw [List.mem_filter, Table.mem_entries_iff] at hcfg
    rw [hcfg.1]
    simpa using hcfg.2
  · rintro ⟨hfull, hbase⟩
    cases hlookup : full.configs.lookup x with
    | none =>
      rw [hlookup] at hfull
      exact absurd hfull (by decide)
    | some cfg =>
      rw [hlookup] at hfull
      refine ⟨(x, cfg), List.mem_filter.mpr ⟨Table.mem_entries_iff.mpr hlookup, ?_⟩, rfl⟩
      simpa using ⟨hfull, hbase⟩

/-- An option that is copied from full without being minimized is not `y` there. -/
theorem value_of_mem_missingOther {cfg : String × String} (h : cfg ∈ missingOther base full) :
    full.value cfg.1 ≠ yes := by
  rw [missingOther, List.mem_map] at h
  obtain ⟨⟨name, c⟩, hc, rfl⟩ := h
  rw [List.mem_filter, Table.mem_entries_iff] at hc
  rw [ConfigFile.value, hc.1]
  intro heq
  simp [heq] at hc

theorem mem_missingLeafConfigs :
    x ∈ missingLeafConfigs base full deps ↔ x ∈ missingTristate base full ∧
      ∀ y ∈ missingTristate base full, y ≠ x → x ∉ addDependencies base full deps [y] := by
  rw [missingLeafConfigs, List.mem_filter]
  refine and_congr_right fun _ => ?_
  simp only [Bool.not_eq_true', ← Bool.not_eq_true, List.contains_iff_mem, List.mem_flatMap,
    neededBy, List.mem_filter, decide_eq_true_eq]
  constructor
  · exact fun h y hy hne hmem => h ⟨y, hy, hmem, Ne.symm hne⟩
  · rintro h ⟨y, hy, hmem, hne⟩
    exact h y hy (Ne.symm hne) hmem

/-- What has been computed before does not matter: the sorted closure is determined by
the members of the dependencies. -/
theorem addDependencies_congr (h : ∀ cfg x, x ∈ deps cfg ↔ x ∈ deps' cfg) (configs : List String) :
    addDependencies base full deps configs = addDependencies base full deps' configs := by
  have hnodup : ∀ d : String → List String,
      (configs.foldl (closeOver base full d) []).Nodup := by
    intro d
    have hcfg : ∀ (cfg : String) (closure : List String), closure.Nodup →
        (closeOver base full d closure cfg).Nodup := by
      intro cfg closure hclosure
      refine List.foldlRecOn (motive := List.Nodup) _ _ (nodup_addKey hclosure cfg)
        fun c hc dep _ => ?_
      split
      · exact nodup_addKey hc dep
      · exact hc
    exact List.foldlRecOn (motive := List.Nodup) _ _ List.nodup_nil
      fun c hc cfg _ => hcfg cfg c hc
  have hperm : (configs.foldl (closeOver base full deps) []).Perm
      (configs.foldl (closeOver base full deps') []) := by
    refine (List.perm_ext_iff_of_nodup (hnodup deps) (hnodup deps')).mpr fun x => ?_
    have hx : x ∈ addDependencies base full deps configs ↔
        x ∈ addDependencies base full deps' configs := by
      rw [mem_addDependencies, mem_addDependencies]
      simp only [h]
    rwa [addDependencies, addDependencies, mem_sortStrings, mem_sortStrings] at hx
  have hsorted := ((List.perm_insertionSort (· ≤ ·) _).trans hperm).trans
    (List.perm_insertionSort (· ≤ ·) _).symm
  exact hsorted.eq_of_pairwise' (List.pairwise_insertionSort _ _) (List.pairwise_insertionSort _ _)

/-- An option of the difference is in the config of the leaves that include it. -/
theorem value_diffToConfig_of_mem {part : List String}
    (h : x ∈ addDependencies base full deps part) :
    (diffToConfig base full deps part).value x = yes := by
  have hpart : part.isEmpty = false := by
    cases part with
    | nil =>
      rw [mem_addDependencies] at h
      simp at h
    | cons cfg part => rfl
  rw [diffToConfig, hpart]
  refine ConfigFile.value_setAll_of_mem ⟨(x, yes), List.mem_map.mpr ⟨x, h, rfl⟩, rfl⟩ ?_ _
  rintro cfg hcfg -
  obtain ⟨name, -, rfl⟩ := List.mem_map.mp hcfg
  rfl

/-- An option of the difference that the leaves do not include is lost. -/
theorem value_diffToConfig_of_notMem {part : List String} (hdiff : x ∈ missingTristate base full)
    (h : x ∉ addDependencies base full deps part) :
    (diffToConfig base full deps part).value x = no := by
  obtain ⟨hfull, hbase⟩ := mem_missingTristate.mp hdiff
  rw [diffToConfig]
  split
  · exact hbase
  refine (ConfigFile.value_setAll_of_notMem ?_ _).trans
    ((ConfigFile.value_setAll_of_notMem ?_ _).trans hbase)
  · intro cfg hcfg heq
    obtain ⟨name, hname, rfl⟩ := List.mem_map.mp hcfg
    exact h (heq ▸ hname)
  · rintro cfg hcfg rfl
    exact value_of_mem_missingOther hcfg hfull

end Leaves

namespace AcyclicKConfig
variable {k : AcyclicKConfig} {order : Order} {base full : ConfigFile}

/-- **Minimization depends neither on earlier calls of `DependsOn`**, whose results are
kept, **nor on the orders in which maps are ranged over.** -/
theorem minimize_after_calls {ε : Type} {earlier : List (Fin k.entries.length)} {memo : Memo}
    (h : k.calls order earlier Memo.fresh = .returned memo) (order' : Order)
    (log2Exceeds : Nat → Int → Bool) (pred : ConfigFile → Except ε Bool) (maxSteps : Int) :
    minimize base full (k.depsIn order memo) log2Exceeds pred maxSteps =
      minimize base full (k.deps order') log2Exceeds pred maxSteps := by
  obtain ⟨hsound, hquiet⟩ :=
    KConfig.sound_of_calls KConfig.sound_fresh (fun _ => (nomatch ·)) h
  have hclosure : addDependencies base full (k.depsIn order memo) =
      addDependencies base full (k.deps order') :=
    funext (addDependencies_congr fun cfg x => by rw [mem_depsIn hsound hquiet, mem_deps])
  have hneeded : neededBy base full (k.depsIn order memo) = neededBy base full (k.deps order') :=
    funext fun cfg => by rw [neededBy, neededBy, hclosure]
  simp only [minimize, missingLeafConfigs, diffToConfig, hneeded, hclosure]

theorem mem_addDependencies_singleton {x y : String} :
    x ∈ addDependencies base full (k.deps order) [y] ↔
      x = y ∨ k.DependsOn y x ∧ full.value x ≠ no ∧ base.value x = no := by
  rw [mem_addDependencies]
  simp [mem_deps]

/-- **Every option of the difference is a leaf or a dependency of one.**  By induction
on how many other options of the difference depend on it. -/
theorem exists_leaf (k : AcyclicKConfig) (order : Order) {x : String}
    (h : x ∈ missingTristate base full) :
    ∃ leaf ∈ missingLeafConfigs base full (k.deps order), x = leaf ∨ k.DependsOn leaf x := by
  let above (a b : {y // y ∈ missingTristate base full}) : Prop := k.DependsOn a b
  have htrans : IsTrans _ above := ⟨fun _ _ _ hab hbc => hab.trans hbc⟩
  have hirrefl : Std.Irrefl above := ⟨fun a => DependsOn.irrefl a.1⟩
  have hwf : WellFounded above := Finite.wellFounded_of_trans_of_irrefl above
  refine hwf.induction (C := fun y => ∃ leaf ∈ missingLeafConfigs base full (k.deps order),
    y.1 = leaf ∨ k.DependsOn leaf y.1) ⟨x, h⟩ fun y ih => ?_
  by_cases hleaf : y.1 ∈ missingLeafConfigs base full (k.deps order)
  · exact ⟨y.1, hleaf, .inl rfl⟩
  rw [mem_missingLeafConfigs] at hleaf
  push Not at hleaf
  obtain ⟨z, hz, hne, hmem⟩ := hleaf y.2
  have hdep : k.DependsOn z y.1 :=
    ((mem_addDependencies_singleton.mp hmem).resolve_left (Ne.symm hne)).1
  obtain ⟨leaf, hleaf, hz' | hz'⟩ := ih ⟨z, hz⟩ hdep
  · exact ⟨leaf, hleaf, .inr (hz' ▸ hdep)⟩
  · exact ⟨leaf, hleaf, .inr (hz'.trans hdep)⟩

end AcyclicKConfig

/-! ## What minimization guarantees -/

section Results
variable (k : AcyclicKConfig) (order : Order) (base full : ConfigFile)

/-- **Minimization keeps the predicate true** if it is true for the config of all
leaves: the minimization returns, and without error its config is one for which the
predicate is true. -/
theorem minimize_equivalent {ε : Type} (log2Exceeds : Nat → Int → Bool)
    (pred : ConfigFile → Except ε Bool) (maxSteps : Int)
    (htrue : pred (diffToConfig base full (k.deps order)
      (missingLeafConfigs base full (k.deps order))) = .ok true) :
    ∃ r, minimize base full (k.deps order) log2Exceeds pred maxSteps = some r ∧
      ∀ config, r = .ok config → pred config = .ok true := by
  obtain ⟨⟨result, err, st⟩, hslice, hret⟩ := Minimize.slice_returned log2Exceeds
    ⟨fun diffs => pred (diffToConfig base full (k.deps order) diffs), maxSteps, 0⟩
    (missingLeafConfigs base full (k.deps order)) htrue
  rw [minimize, hslice]
  cases err with
  | some e => exact ⟨_, rfl, fun config heq => nomatch heq⟩
  | none =>
    refine ⟨_, rfl, fun config heq => ?_⟩
    cases heq
    exact (hret.minimized rfl).holds

end Results

/-- A Kconfig all of whose calls return has no cycle. -/
theorem acyclic_of_returns (k : KConfig) (order : Order)
    (h : ∀ m < k.entries.length, (k.dependsOn order m Memo.fresh).deps.isSome) (name : String)
    (dep : Nat) (hconf : k.config name = some dep) : ¬ k.Reaches dep name := by
  intro hback
  have hlt := KConfig.config_lt hconf
  have hdeps := h dep hlt
  cases hout : k.dependsOn order dep Memo.fresh with
  | returned r =>
    exact KConfig.not_cycleFrom_of_returned hlt hout ⟨name, dep, hback, hconf, hback⟩
  | blocks | outOfFuel => rw [hout] at hdeps; cases hdeps

/-- `config DEBUG`, `config NET`, and `config USB` that depends on `NET`. -/
def debugRoot : Menu :=
  .mk .config "" none none [
    .mk .config "DEBUG" none none [],
    .mk .config "NET" none none [],
    .mk .config "USB" (some (.ident "NET")) none []]

def debugMenu : AcyclicKConfig where
  root := debugRoot
  acyclic := acyclic_of_returns ⟨debugRoot⟩ .asAdded (by decide +kernel)

/-- A config file with the given options. -/
def configOf (cfgs : List (String × String)) : ConfigFile :=
  (ConfigFile.mk .empty []).setAll cfgs

/-- A predicate that needs `USB`. -/
def needsUsb (config : ConfigFile) : Except Unit Bool := .ok (config.value "USB" = yes)

/-- After a call of `DependsOn` for `USB`. -/
theorem minimize_after_calls_usb : ∃ memo,
    debugMenu.calls .asAdded [⟨3, by decide⟩] Memo.fresh = .returned memo ∧ ∀ base full,
    minimize base full (debugMenu.depsIn .asAdded memo) (fun _ _ => false) needsUsb 0 =
      minimize base full (debugMenu.deps .asAdded) (fun _ _ => false) needsUsb 0 := by
  have h : debugMenu.calls .asAdded [⟨3, by decide⟩] Memo.fresh = .returned _ := rfl
  exact ⟨_, h, fun _ _ => AcyclicKConfig.minimize_after_calls h .asAdded _ needsUsb 0⟩

theorem minimize_equivalent_usb :
    needsUsb (diffToConfig (configOf [("DEBUG", yes)])
      (configOf [("DEBUG", yes), ("NET", yes), ("USB", yes)]) (debugMenu.deps .asAdded)
      (missingLeafConfigs (configOf [("DEBUG", yes)])
        (configOf [("DEBUG", yes), ("NET", yes), ("USB", yes)]) (debugMenu.deps .asAdded))) =
        .ok true ∧
    ∃ r, minimize (configOf [("DEBUG", yes)])
      (configOf [("DEBUG", yes), ("NET", yes), ("USB", yes)]) (debugMenu.deps .asAdded)
      (fun _ _ => false) needsUsb 0 = some r ∧
      ∀ config, r = .ok config → needsUsb config = .ok true :=
  ⟨by decide +kernel, minimize_equivalent debugMenu .asAdded _ _ _ needsUsb 0
    (by decide +kernel)⟩

/-- A predicate that needs `USB`, and `DEBUG` disabled. -/
def needsUsbWithoutDebug (config : ConfigFile) : Except Unit Bool :=
  .ok (config.value "USB" = yes && config.value "DEBUG" = no)

/-- **The config of all leaves is never tested**: with an option that full disables, a
predicate that is true for full is false for the config that is returned. -/
theorem minimize_not_equivalent :
    needsUsbWithoutDebug (configOf [("DEBUG", no), ("NET", yes), ("USB", yes)]) = .ok true ∧
    ∃ config, minimize (configOf [("DEBUG", yes)])
      (configOf [("DEBUG", no), ("NET", yes), ("USB", yes)]) (debugMenu.deps .asAdded)
      (fun _ _ => false) needsUsbWithoutDebug 0 = some (.ok config) ∧
      needsUsbWithoutDebug config = .ok false := by
  have hrun : (minimize (configOf [("DEBUG", yes)])
      (configOf [("DEBUG", no), ("NET", yes), ("USB", yes)]) (debugMenu.deps .asAdded)
      (fun _ _ => false) needsUsbWithoutDebug 0).map
        (fun r => r.toOption.map needsUsbWithoutDebug) = some (some (.ok false)) := by
    decide +kernel
  obtain ⟨r, hr, hres⟩ := Option.map_eq_some_iff.mp hrun
  obtain ⟨config, hconfig, hpred⟩ := Option.map_eq_some_iff.mp hres
  cases r with
  | error e => cases hconfig
  | ok c =>
    cases hconfig
    exact ⟨by decide +kernel, config, hr, hpred⟩

end Sect.Kconfig
