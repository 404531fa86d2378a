import SectProof.CorpusSignals
import SectProof.KeyedTable

/-!
# Canonical addresses of coverage

Kernel modules are loaded at different addresses in different instances, so the
manager converts the PCs of an instance to the addresses of the first instance
that connected, and back.  `pkg/cover/canonicalizer.go` keeps for each direction
the sorted start addresses of one list of modules and a table, keyed by start
addresses, that is filled from the instance's modules.

The two directions do not treat modules alike: the table that leads back has no
entry for a canonical module that the instance lacks, and a module that is
missing in the canonical list is filed under address 0.  The round trip
therefore depends on the table entry that is consulted for a PC.
-/

open List Nat Option UInt32

namespace Sect.Cover
open Sect.Fuzzer (sortSearch sortSearch_spec)

/-- `host.KernelModule`. -/
structure KernelModule where
  name : String
  addr : Nat
  size : Nat
  deriving DecidableEq, Repr

/-- The signal elements of a `signal.Serial` with their priorities. -/
abbrev Serial := List (UInt32 × Int8)

/-- The offset and final address of a module, and whether its coverage is
discarded. -/
structure CanonicalizerModule where
  offset : Int
  endAddr : UInt32
  discard : Bool
  deriving DecidableEq, Repr

structure Convert where
  conversionHash : Table UInt32 CanonicalizerModule
  moduleKeys : List UInt32

/-- The canonical modules by name and their sorted addresses; `none` is nil. -/
structure Canonicalizer where
  modules : Table String KernelModule
  moduleKeys : Option (List UInt32)

structure CanonicalizerInstance where
  canonical : Canonicalizer
  canonicalize : Convert
  decanonicalize : Convert

/-- A 64-bit address or size truncated to `uint32`. -/
def uint32 (n : Nat) : UInt32 := UInt32.ofNat n

def setModuleKeys (modules : List KernelModule) : List UInt32 :=
  (modules.map fun m => uint32 m.addr).insertionSort (· ≤ ·)

def newCanonicalizer (modules : List KernelModule) (flagSignal : Bool) : Canonicalizer :=
  if modules.length = 0 ∨ flagSignal = false then ⟨.empty, none⟩
  else ⟨modules.foldl (fun t m => t.insert m.name m) .empty, some (setModuleKeys modules)⟩

namespace Canonicalizer
variable (can : Canonicalizer)

/-- The canonical address of an instance module, 0 when it has none. -/
def canonicalAddr (m : KernelModule) : UInt32 :=
  match can.modules.lookup m.name with
  | some c => uint32 c.addr
  | none => 0

/-- The module is missing in the canonical list or has another size there. -/
def discards (m : KernelModule) : Bool :=
  match can.modules.lookup m.name with
  | some c => c.size ≠ m.size
  | none => true

/-- The entry that leads from the instance to the canonical addresses. -/
def instToCanonical (m : KernelModule) : CanonicalizerModule where
  offset := (can.canonicalAddr m).toNat - (uint32 m.addr).toNat
  endAddr := uint32 m.size + uint32 m.addr
  discard := can.discards m

/-- The entry that leads back. -/
def canonicalToInst (m : KernelModule) : CanonicalizerModule where
  offset := (uint32 m.addr).toNat - (can.canonicalAddr m).toNat
  endAddr := uint32 m.size + can.canonicalAddr m
  discard := can.discards m

def newInstance (modules : List KernelModule) : CanonicalizerInstance :=
  match can.moduleKeys with
  | none => ⟨⟨.empty, none⟩, ⟨.empty, []⟩, ⟨.empty, []⟩⟩
  | some keys =>
    { canonical := can
      canonicalize :=
        { conversionHash := modules.foldl
            (fun t m => t.insert (uint32 m.addr) (can.instToCanonical m)) .empty
          moduleKeys := setModuleKeys modules }
      decanonicalize :=
        { conversionHash := modules.foldl
            (fun t m => t.insert (can.canonicalAddr m) (can.canonicalToInst m)) .empty
          moduleKeys := keys } }

end Canonicalizer

/-- The index of the last module that starts at or below the PC; -1 if there is
none.  `sort.Find` returns the index above it. -/
def findModule (pc : UInt32) (moduleKeys : List UInt32) : Int :=
  (sortSearch moduleKeys.length fun i => pc < moduleKeys.getD i 0 : Nat) - 1

/-- What the entry of a module does to a PC. -/
def CanonicalizerModule.apply (m : CanonicalizerModule) (pc : UInt32) : Option UInt32 :=
  if pc < m.endAddr then
    if m.discard then none else some (UInt32.ofInt (pc.toNat + m.offset))
  else some pc

namespace CanonicalizerModule
variable {m : CanonicalizerModule} {pc : UInt32}

theorem apply_discard (hlt : pc.toNat < m.endAddr.toNat) (hdiscard : m.discard = true) :
    m.apply pc = none := by
  rw [apply, if_pos (lt_iff_toNat_lt.mpr hlt), if_pos hdiscard]

theorem apply_move (hlt : pc.toNat < m.endAddr.toNat) (hkeep : m.discard = false) :
    m.apply pc = some (UInt32.ofInt (pc.toNat + m.offset)) := by
  rw [apply, if_pos (lt_iff_toNat_lt.mpr hlt), hkeep, if_neg Bool.false_ne_true]

theorem apply_above (hge : m.endAddr.toNat ≤ pc.toNat) : m.apply pc = some pc := by
  rw [apply, if_neg]
  exact Nat.not_lt_of_le hge

end CanonicalizerModule

namespace Convert
variable (convert : Convert)

/-- `none` when the PC is discarded. -/
def convertPC (pc : UInt32) : Option UInt32 :=
  if 0 ≤ findModule pc convert.moduleKeys then
    match convert.conversionHash.lookup
        (convert.moduleKeys.getD (findModule pc convert.moduleKeys).toNat 0) with
    | none => none
    | some m => m.apply pc
  else some pc

def convertPCs (cov : List UInt32) (sign : Serial) : List UInt32 × Serial :=
  (cov.filterMap convert.convertPC,
    sign.filterMap fun e => (convert.convertPC e.1).map fun pc => (pc, e.2))

end Convert

namespace CanonicalizerInstance
variable (ci : CanonicalizerInstance)

def canonicalizePCs (cov : List UInt32) (sign : Serial) : List UInt32 × Serial :=
  if ci.canonical.moduleKeys = none then (cov, sign) else ci.canonicalize.convertPCs cov sign

def decanonicalizePCs (cov : List UInt32) (sign : Serial) : List UInt32 × Serial :=
  if ci.canonical.moduleKeys = none then (cov, sign) else ci.decanonicalize.convertPCs cov sign

end CanonicalizerInstance

/-! ## Which entry is consulted -/

/-- `key` is the last of the keys that is not above the PC. -/
structure KeyFor (keys : List UInt32) (pc key : UInt32) : Prop where
  mem : key ∈ keys
  le : key ≤ pc
  last : ∀ k ∈ keys, k ≤ pc → k ≤ key

section Keys
variable {keys : List UInt32} {pc key : UInt32}

theorem sorted_setModuleKeys (modules : List KernelModule) :
    (setModuleKeys modules).Pairwise (· ≤ ·) := by
  have : Std.Total (fun a b : UInt32 => a ≤ b) := ⟨fun a b => UInt32.le_total a b⟩
  have : IsTrans UInt32 (fun a b : UInt32 => a ≤ b) := ⟨fun a b c => UInt32.le_trans⟩
  exact pairwise_insertionSort _ _

theorem mem_setModuleKeys {modules : List KernelModule} {key : UInt32} :
    key ∈ setModuleKeys modules ↔ ∃ m ∈ modules, uint32 m.addr = key := by
  rw [setModuleKeys, mem_insertionSort, List.mem_map]

/-- The search finds the number of keys that are not above the PC. -/
theorem search_spec (pc : UInt32) (hsorted : keys.Pairwise (· ≤ ·)) :
    (sortSearch keys.length fun i => pc < keys.getD i 0) ≤ keys.length ∧
      (∀ k, k < (sortSearch keys.length fun i => pc < keys.getD i 0) → keys.getD k 0 ≤ pc) ∧
      ∀ k, (sortSearch keys.length fun i => pc < keys.getD i 0) ≤ k → k < keys.length →
        pc < keys.getD k 0 := by
  have hmono : ∀ i j, i ≤ j → j < keys.length → decide (pc < keys.getD i 0) = true →
      decide (pc < keys.getD j 0) = true := by
    intro i j hij hj hpc
    rw [decide_eq_true_eq] at hpc ⊢
    rcases lt_or_eq_of_le hij with hlt | rfl
    · have hle := pairwise_iff_getElem.mp hsorted i j (by omega) hj hlt
      rw [getD_eq_getElem _ _ hj]
      rw [getD_eq_getElem _ _ (by omega)] at hpc
      exact UInt32.lt_of_lt_of_le hpc hle
    · exact hpc
  obtain ⟨hle, hlow, hhigh⟩ := sortSearch_spec hmono
  refine ⟨hle, ?_, ?_⟩
  · intro k hk
    exact UInt32.not_lt.mp (of_decide_eq_false (hlow k hk))
  · intro k hk hkn
    exact of_decide_eq_true (hhigh k hk hkn)

/-- A PC below all keys stays; otherwise the entry of the last key that is not above
the PC decides. -/
theorem convertPC_cases (convert : Convert) (hsorted : convert.moduleKeys.Pairwise (· ≤ ·))
    (pc : UInt32) :
    ((∀ k ∈ convert.moduleKeys, pc < k) ∧ convert.convertPC pc = some pc) ∨
      ∃ key, KeyFor convert.moduleKeys pc key ∧
        convert.convertPC pc = (convert.conversionHash.lookup key).bind fun m => m.apply pc := by
  obtain ⟨hle, hlow, hhigh⟩ := search_spec pc hsorted
  rw [Convert.convertPC, findModule]
  generalize (sortSearch convert.moduleKeys.length
    fun i => pc < convert.moduleKeys.getD i 0) = n at *
  cases n with
  | zero =>
    refine .inl ⟨fun k hk => ?_, if_neg (by decide)⟩
    obtain ⟨i, hi, rfl⟩ := getElem_of_mem hk
    rw [← getD_eq_getElem _ 0 hi]
    exact hhigh i (zero_le i) hi
  | succ n =>
    have hn : convert.moduleKeys.getD n 0 = convert.moduleKeys[n] := getD_eq_getElem _ _ hle
    refine .inr ⟨convert.moduleKeys[n], ⟨getElem_mem _, hn ▸ hlow n n.lt_succ_self, ?_⟩, ?_⟩
    · intro k hk hkpc
      obtain ⟨i, hi, rfl⟩ := getElem_of_mem hk
      have hin : i ≤ n := by
        by_contra hgt
        have habove := hhigh i (by omega) hi
        rw [getD_eq_getElem _ _ hi] at habove
        exact UInt32.not_lt.mpr hkpc habove
      rcases lt_or_eq_of_le hin with hlt | rfl
      · exact pairwise_iff_getElem.mp hsorted i n hi hle hlt
      · exact UInt32.le_refl _
    · rw [cast_succ, add_sub_cancel_right, if_pos (Int.natCast_nonneg _), Int.toNat_natCast, hn]
      cases convert.conversionHash.lookup convert.moduleKeys[n] <;> rfl

end Keys

/-! ## Lists of modules -/

/-- The PC is in the address range of the module. -/
def KernelModule.Contains (m : KernelModule) (pc : UInt32) : Prop :=
  m.addr ≤ pc.toNat ∧ pc.toNat < m.addr + m.size

instance (m : KernelModule) (pc : UInt32) : Decidable (m.Contains pc) :=
  inferInstanceAs (Decidable (_ ∧ _))

/-- Names are distinct, ranges start at distinct addresses and do not overlap, and
all addresses and ends fit in 32 bits. -/
structure ValidModules (modules : List KernelModule) : Prop where
  names : modules.Pairwise fun a b => a.name ≠ b.name
  ranges : modules.Pairwise fun a b =>
    a.addr ≠ b.addr ∧ (a.addr + a.size ≤ b.addr ∨ b.addr + b.size ≤ a.addr)
  fits : ∀ m ∈ modules, m.addr + m.size < 2 ^ 32

/-- `m` is the module with the highest address that is not above the PC. -/
def Highest (modules : List KernelModule) (pc : UInt32) (m : KernelModule) : Prop :=
  m.addr ≤ pc.toNat ∧ ∀ m' ∈ modules, m'.addr ≤ pc.toNat → m'.addr ≤ m.addr

namespace ValidModules
variable {modules : List KernelModule} {m m' : KernelModule} {pc : UInt32}
  (h : ValidModules modules)

include h

theorem toNat_addr (hm : m ∈ modules) : (uint32 m.addr).toNat = m.addr := by
  have hfits := h.fits m hm
  exact mod_eq_of_lt (by omega)

theorem eq_of_name (hm : m ∈ modules) (hm' : m' ∈ modules) (hname : m.name = m'.name) : m = m' := by
  have : Std.Symm fun a b : KernelModule => a.name ≠ b.name := ⟨fun a b => .symm⟩
  by_contra hne
  exact h.names.forall hm hm' hne hname

theorem disjoint (hm : m ∈ modules) (hm' : m' ∈ modules) (hne : m ≠ m') :
    m.addr ≠ m'.addr ∧ (m.addr + m.size ≤ m'.addr ∨ m'.addr + m'.size ≤ m.addr) := by
  have : Std.Symm fun a b : KernelModule =>
      a.addr ≠ b.addr ∧ (a.addr + a.size ≤ b.addr ∨ b.addr + b.size ≤ a.addr) :=
    ⟨fun a b hab => ⟨hab.1.symm, hab.2.symm⟩⟩
  exact h.ranges.forall hm hm' hne

theorem eq_of_addr (hm : m ∈ modules) (hm' : m' ∈ modules) (haddr : m.addr = m'.addr) : m = m' := by
  by_contra hne
  exact (h.disjoint hm hm' hne).1 haddr

/-- The module of a PC is the highest one below it. -/
theorem highest_of_contains (hm : m ∈ modules) (hpc : m.Contains pc) : Highest modules pc m := by
  refine ⟨hpc.1, fun m' hm' hle => ?_⟩
  by_cases hsame : m = m'
  · rw [hsame]
  · have hdisjoint := (h.disjoint hm hm' hsame).2
    have hin := hpc.2
    omega

theorem eq_of_highest (hm : m ∈ modules) (hm' : m' ∈ modules) (hhigh : Highest modules pc m)
    (hhigh' : Highest modules pc m') : m = m' :=
  h.eq_of_addr hm hm' (le_antisymm (hhigh'.2 m hm hhigh.1) (hhigh.2 m' hm' hhigh'.1))

/-- A PC below all modules stays; otherwise the entry under the address of the highest
module below it decides. -/
theorem convertPC_cases (convert : Convert) (hkeys : convert.moduleKeys = setModuleKeys modules)
    (pc : UInt32) :
    ((∀ m ∈ modules, pc.toNat < m.addr) ∧ convert.convertPC pc = some pc) ∨
      ∃ m ∈ modules, Highest modules pc m ∧ convert.convertPC pc =
        (convert.conversionHash.lookup (uint32 m.addr)).bind fun e => e.apply pc := by
  rcases Cover.convertPC_cases convert (hkeys ▸ sorted_setModuleKeys modules) pc with
    ⟨hbelow, heq⟩ | ⟨key, hkey, heq⟩
  · refine .inl ⟨fun m hm => ?_, heq⟩
    have hlt := hbelow _ (hkeys ▸ mem_setModuleKeys.mpr ⟨m, hm, rfl⟩)
    rwa [lt_iff_toNat_lt, h.toNat_addr hm] at hlt
  obtain ⟨hmem, hle, hlast⟩ := hkey
  rw [hkeys] at hmem hlast
  obtain ⟨m, hm, rfl⟩ := mem_setModuleKeys.mp hmem
  rw [le_iff_toNat_le, h.toNat_addr hm] at hle
  refine .inr ⟨m, hm, ⟨hle, fun m' hm' hle' => ?_⟩, heq⟩
  have hbound := hlast _ (mem_setModuleKeys.mpr ⟨m', hm', rfl⟩)
  rw [le_iff_toNat_le, le_iff_toNat_le, h.toNat_addr hm', h.toNat_addr hm] at hbound
  exact hbound hle'

theorem convertPC_highest {convert : Convert} (hkeys : convert.moduleKeys = setModuleKeys modules)
    (hm : m ∈ modules) (hhigh : Highest modules pc m) : convert.convertPC pc =
      (convert.conversionHash.lookup (uint32 m.addr)).bind fun e => e.apply pc := by
  rcases h.convertPC_cases convert hkeys pc with ⟨hbelow, -⟩ | ⟨m', hm', hhigh', heq⟩
  · exact absurd hhigh.1 (Nat.not_le_of_lt (hbelow m hm))
  · rw [heq, h.eq_of_highest hm hm' hhigh hhigh']

end ValidModules

/-! ## What is converted, and what comes back -/

/-- The PC is in an instance module with the same name and size in the canonical
list, or in no module of either list. -/
def Convertible (canonical inst : List KernelModule) (pc : UInt32) : Prop :=
  (∃ m ∈ inst, m.Contains pc ∧ ∃ c ∈ canonical, c.name = m.name ∧ c.size = m.size) ∨
    ∀ m ∈ canonical ++ inst, ¬ m.Contains pc

/-- The table that leads back files the instance module under the address of the
canonical module `c`: it has the name of `c`, or it is missing in the canonical
list and `c` is at address 0. -/
def FiledUnder (canonical : List KernelModule) (c m : KernelModule) : Prop :=
  m.name = c.name ∨ c.addr = 0 ∧ ∀ c' ∈ canonical, c'.name ≠ m.name

instance (canonical : List KernelModule) (c m : KernelModule) :
    Decidable (FiledUnder canonical c m) :=
  inferInstanceAs (Decidable (_ ∨ _))

/-- The last instance module that is filed under the address of `c`. -/
def lastFiled (canonical inst : List KernelModule) (c : KernelModule) : Option KernelModule :=
  inst.reverse.find? fun m => FiledUnder canonical c m

/-- What the lists have to be for the PC to come back. -/
structure Recoverable (canonical inst : List KernelModule) (pc : UInt32) : Prop where
  inside : ∀ m ∈ inst, m.Contains pc → ∀ c ∈ canonical, c.name = m.name →
    ∀ l, lastFiled canonical inst c = some l → l = m ∨ m.addr = c.addr ∧ l.size ≤ pc.toNat
  outside : (∀ m ∈ inst, ¬ m.Contains pc) → ∀ c ∈ canonical, Highest canonical pc c →
    ∃ l, lastFiled canonical inst c = some l ∧ (l.size + c.addr) % 2 ^ 32 ≤ pc.toNat

instance (canonical inst : List KernelModule) (pc : UInt32) :
    Decidable (Convertible canonical inst pc) :=
  inferInstanceAs (Decidable (_ ∨ _))

instance (modules : List KernelModule) (pc : UInt32) (m : KernelModule) :
    Decidable (Highest modules pc m) :=
  inferInstanceAs (Decidable (_ ∧ _))

theorem recoverable_iff (canonical inst : List KernelModule) (pc : UInt32) :
    ((∀ m ∈ inst, m.Contains pc → ∀ c ∈ canonical, c.name = m.name →
        ∀ l ∈ (lastFiled canonical inst c).toList,
          l = m ∨ m.addr = c.addr ∧ l.size ≤ pc.toNat) ∧
      ((∀ m ∈ inst, ¬ m.Contains pc) → ∀ c ∈ canonical, Highest canonical pc c →
        ∃ l ∈ (lastFiled canonical inst c).toList,
          (l.size + c.addr) % 2 ^ 32 ≤ pc.toNat)) ↔ Recoverable canonical inst pc := by
  simp only [mem_toList]
  exact ⟨fun h => ⟨h.1, h.2⟩, fun h => ⟨h.inside, h.outside⟩⟩

instance (canonical inst : List KernelModule) (pc : UInt32) :
    Decidable (Recoverable canonical inst pc) :=
  decidable_of_iff _ (recoverable_iff canonical inst pc)

section Conversion
variable {canonical inst : List KernelModule} {m c : KernelModule} {pc : UInt32}

/-- The canonicalizer of a non-empty list. -/
def canonicalizerOf (canonical : List KernelModule) : Canonicalizer :=
  ⟨canonical.foldl (fun t m => t.insert m.name m) .empty, some (setModuleKeys canonical)⟩

/-- The conversion of a PC to the canonical addresses. -/
def toCanonical (canonical inst : List KernelModule) : UInt32 → Option UInt32 :=
  ((canonicalizerOf canonical).newInstance inst).canonicalize.convertPC

/-- The conversion back. -/
def toInst (canonical inst : List KernelModule) : UInt32 → Option UInt32 :=
  ((canonicalizerOf canonical).newInstance inst).decanonicalize.convertPC

theorem lookup_canonical_none (h : ∀ c ∈ canonical, c.name ≠ m.name) :
    (canonicalizerOf canonical).modules.lookup m.name = none := by
  have hlookup := Table.lookup_foldl_insert KernelModule.name id canonical Table.empty m.name
  have hnone : (canonical.reverse.find? fun a => a.name = m.name) = none := by
    rw [find?_eq_none]
    intro c hc
    simpa using h c (mem_reverse.mp hc)
  refine hlookup.trans ?_
  rw [hnone]
  rfl

theorem lastFiled_spec {l : KernelModule} (h : lastFiled canonical inst c = some l) :
    l ∈ inst ∧ FiledUnder canonical c l := by
  have hfiled := find?_some h
  exact ⟨mem_reverse.mp (mem_of_find?_eq_some h), of_decide_eq_true hfiled⟩

theorem toNat_ofInt {x : Int} (h0 : 0 ≤ x) (hlt : x < 2 ^ 32) :
    (UInt32.ofInt x).toNat = x.toNat := by
  simp [UInt32.ofInt]
  omega

section Entries
variable (hI : ValidModules inst)
include hI

/-- The end of an entry, as a `uint32`. -/
theorem toNat_endAddr (hm : m ∈ inst) (start : UInt32) :
    (uint32 m.size + start).toNat = (m.size + start.toNat) % 2 ^ 32 := by
  have hfits := hI.fits m hm
  have hsize : (uint32 m.size).toNat = m.size := by
    exact mod_eq_of_lt (by omega)
  rw [UInt32.toNat_add, hsize]

/-- The entry of an instance module ends where the module does. -/
theorem toNat_instEnd (hm : m ∈ inst) :
    ((canonicalizerOf canonical).instToCanonical m).endAddr.toNat = m.size + m.addr := by
  have hfits := hI.fits m hm
  rw [Canonicalizer.instToCanonical, toNat_endAddr hI hm, hI.toNat_addr hm,
    mod_eq_of_lt (by omega)]

/-- The entry of the highest module below the PC in the first table. -/
theorem toCanonical_highest (hm : m ∈ inst) (hhigh : Highest inst pc m) :
    toCanonical canonical inst pc = ((canonicalizerOf canonical).instToCanonical m).apply pc := by
  have hlookup : ((canonicalizerOf canonical).newInstance inst).canonicalize.conversionHash.lookup
      (uint32 m.addr) = some ((canonicalizerOf canonical).instToCanonical m) := by
    refine Table.lookup_foldl_insert_of_mem (fun m : KernelModule => uint32 m.addr)
      (canonicalizerOf canonical).instToCanonical hm ?_ Table.empty
    intro m' hm' hkey
    rw [← UInt32.toNat_inj, hI.toNat_addr hm', hI.toNat_addr hm] at hkey
    exact hI.eq_of_addr hm' hm hkey
  rw [toCanonical, hI.convertPC_highest rfl hm hhigh, hlookup, bind_some]

/-- A PC of no module stays. -/
theorem toCanonical_outside (hpc : ∀ m ∈ inst, ¬ m.Contains pc) :
    toCanonical canonical inst pc = some pc := by
  rcases hI.convertPC_cases ((canonicalizerOf canonical).newInstance inst).canonicalize rfl pc with
    ⟨-, heq⟩ | ⟨m, hm, hhigh, -⟩
  · exact heq
  · have hout := hpc m hm
    have hlow := hhigh.1
    rw [KernelModule.Contains] at hout
    rw [toCanonical_highest hI hm hhigh]
    exact CanonicalizerModule.apply_above (by rw [toNat_instEnd hI hm]; omega)

end Entries

section Valid
variable (hC : ValidModules canonical)
include hC

theorem lookup_canonical (hc : c ∈ canonical) :
    (canonicalizerOf canonical).modules.lookup c.name = some c := by
  refine Table.lookup_foldl_insert_of_mem KernelModule.name id hc ?_ Table.empty
  exact fun c' hc' hname => hC.eq_of_name hc' hc hname

theorem canonicalAddr_eq (hc : c ∈ canonical) (hname : c.name = m.name) :
    (canonicalizerOf canonical).canonicalAddr m = uint32 c.addr := by
  rw [Canonicalizer.canonicalAddr, ← hname, lookup_canonical hC hc]

/-- The key under which a module is filed is the address of `c` exactly if it is
filed under `c`. -/
theorem canonicalAddr_iff (hc : c ∈ canonical) :
    (canonicalizerOf canonical).canonicalAddr m = uint32 c.addr ↔ FiledUnder canonical c m := by
  by_cases hfound : ∃ c' ∈ canonical, c'.name = m.name
  · obtain ⟨c', hc', hname⟩ := hfound
    rw [canonicalAddr_eq hC hc' hname, ← UInt32.toNat_inj, hC.toNat_addr hc', hC.toNat_addr hc]
    constructor
    · intro haddr
      exact .inl (hname.symm.trans (congrArg KernelModule.name (hC.eq_of_addr hc' hc haddr)))
    · rintro (hsame | ⟨-, hmissing⟩)
      · rw [hC.eq_of_name hc' hc (hname.trans hsame)]
      · exact absurd hname (hmissing c' hc')
  · have hmissing : ∀ c' ∈ canonical, c'.name ≠ m.name :=
      fun c' hc' hname => hfound ⟨c', hc', hname⟩
    rw [Canonicalizer.canonicalAddr, lookup_canonical_none hmissing, ← UInt32.toNat_inj,
      hC.toNat_addr hc]
    constructor
    · exact fun hzero => .inr ⟨hzero.symm, hmissing⟩
    · rintro (hsame | ⟨hzero, -⟩)
      · exact absurd hsame.symm (hmissing c hc)
      · exact hzero.symm

/-- The last entry under the address of the highest canonical module below the PC. -/
theorem toInst_highest (hc : c ∈ canonical) (hhigh : Highest canonical pc c) :
    toInst canonical inst pc = (lastFiled canonical inst c).bind fun l =>
      ((canonicalizerOf canonical).canonicalToInst l).apply pc := by
  have hlookup : ((canonicalizerOf canonical).newInstance inst).decanonicalize.conversionHash.lookup
      (uint32 c.addr) =
        (lastFiled canonical inst c).map (canonicalizerOf canonical).canonicalToInst := by
    refine (Table.lookup_foldl_insert (canonicalizerOf canonical).canonicalAddr
      (canonicalizerOf canonical).canonicalToInst inst Table.empty (uint32 c.addr)).trans ?_
    have hsame : (fun m => decide ((canonicalizerOf canonical).canonicalAddr m = uint32 c.addr)) =
        fun m => decide (FiledUnder canonical c m) :=
      funext fun m => decide_eq_decide.mpr (canonicalAddr_iff hC hc)
    rw [hsame, Table.lookup_empty, or_none]
    rfl
  rw [toInst, hC.convertPC_highest rfl hc hhigh, hlookup, bind_map]
  rfl

theorem discards_eq_false (hc : c ∈ canonical) (hname : c.name = m.name) (hsize : c.size = m.size) :
    (canonicalizerOf canonical).discards m = false := by
  rw [Canonicalizer.discards, ← hname, lookup_canonical hC hc]
  simp [hsize]

/-- A module that is not discarded has its name and size in the canonical list. -/
theorem of_discards_eq_false (h : (canonicalizerOf canonical).discards m = false) :
    ∃ c ∈ canonical, c.name = m.name ∧ c.size = m.size := by
  by_cases hfound : ∃ c ∈ canonical, c.name = m.name
  · obtain ⟨c, hc, hname⟩ := hfound
    refine ⟨c, hc, hname, ?_⟩
    rw [Canonicalizer.discards, ← hname, lookup_canonical hC hc] at h
    simpa using h
  · have hmissing : ∀ c ∈ canonical, c.name ≠ m.name :=
      fun c hc hname => hfound ⟨c, hc, hname⟩
    rw [Canonicalizer.discards, lookup_canonical_none hmissing] at h
    cases h

variable (hI : ValidModules inst)
include hI

/-- **A PC of a matching module moves to the canonical module.** -/
theorem toCanonical_inside (hm : m ∈ inst) (hpc : m.Contains pc) (hc : c ∈ canonical)
    (hname : c.name = m.name) (hsize : c.size = m.size) :
    ∃ r, toCanonical canonical inst pc = some r ∧ r.toNat + m.addr = pc.toNat + c.addr := by
  have hfits' := hC.fits c hc
  have hin := hpc
  rw [KernelModule.Contains] at hin
  have hlt : pc.toNat < ((canonicalizerOf canonical).instToCanonical m).endAddr.toNat := by
    rw [toNat_instEnd hI hm]
    omega
  have hkeep := discards_eq_false hC hc hname hsize
  rw [toCanonical_highest hI hm (hI.highest_of_contains hm hpc)]
  refine ⟨_, CanonicalizerModule.apply_move hlt hkeep, ?_⟩
  have hoffset : ((canonicalizerOf canonical).instToCanonical m).offset =
      (c.addr : Int) - m.addr := by
    rw [Canonicalizer.instToCanonical, canonicalAddr_eq hC hc hname, hI.toNat_addr hm,
      hC.toNat_addr hc]
  rw [hoffset, toNat_ofInt (by omega) (by omega)]
  omega

variable {l : KernelModule} {r : UInt32}

/-- The end of the entry that is filed last under the address of `c`. -/
theorem toNat_filedEnd (hc : c ∈ canonical) (hl : lastFiled canonical inst c = some l) :
    ((canonicalizerOf canonical).canonicalToInst l).endAddr.toNat =
      (l.size + c.addr) % 2 ^ 32 := by
  obtain ⟨hmem, hfiled⟩ := lastFiled_spec hl
  rw [Canonicalizer.canonicalToInst, toNat_endAddr hI hmem, (canonicalAddr_iff hC hc).mpr hfiled,
    hC.toNat_addr hc]

/-- **The way back for a PC of a matching module.** -/
theorem toInst_inside (hm : m ∈ inst) (hpc : m.Contains pc) (hc : c ∈ canonical)
    (hname : c.name = m.name) (hsize : c.size = m.size)
    (hr : r.toNat + m.addr = pc.toNat + c.addr) :
    toInst canonical inst r = some pc ↔
      ∀ l, lastFiled canonical inst c = some l → l = m ∨ m.addr = c.addr ∧ l.size ≤ pc.toNat := by
  have hin := hpc
  rw [KernelModule.Contains] at hin
  have hcontains : c.Contains r := by
    rw [KernelModule.Contains]
    omega
  -- the module itself is filed under its canonical address, so there is a last one
  have hsome : (lastFiled canonical inst c).isSome :=
    find?_isSome.mpr ⟨m, mem_reverse.mpr hm, decide_eq_true (.inl hname.symm)⟩
  obtain ⟨l, hl⟩ := isSome_iff_exists.mp hsome
  have hend := toNat_filedEnd hC hI hc hl
  obtain ⟨hmem, hfiled⟩ := lastFiled_spec hl
  have hfits := hI.fits l hmem
  have hfits' := hC.fits c hc
  rw [toInst_highest hC hc (hC.highest_of_contains hc hcontains), hl, bind_some]
  by_cases hsame : l = m
  · subst hsame
    have hlt : r.toNat < ((canonicalizerOf canonical).canonicalToInst l).endAddr.toNat := by
      omega
    have hoffset : ((canonicalizerOf canonical).canonicalToInst l).offset =
        (l.addr : Int) - c.addr := by
      rw [Canonicalizer.canonicalToInst, canonicalAddr_eq hC hc hname, hI.toNat_addr hmem,
        hC.toNat_addr hc]
    have hback : UInt32.ofInt (r.toNat + ((l.addr : Int) - c.addr)) = pc := by
      rw [← UInt32.toNat_inj, toNat_ofInt (by omega) (by omega)]
      omega
    have happly := CanonicalizerModule.apply_move hlt (discards_eq_false hC hc hname hsize)
    rw [hoffset, hback] at happly
    exact ⟨fun _ l' hl' => .inl (some.inj hl').symm, fun _ => happly⟩
  · -- another module is filed last, so it is missing and the address is 0
    have hmissing : c.addr = 0 ∧ ∀ c' ∈ canonical, c'.name ≠ l.name := by
      rcases hfiled with hlname | hmissing
      · exact absurd (hI.eq_of_name hmem hm (hlname.trans hname)) hsame
      · exact hmissing
    have hdiscard : ((canonicalizerOf canonical).canonicalToInst l).discard = true := by
      show (canonicalizerOf canonical).discards l = true
      rw [Canonicalizer.discards, lookup_canonical_none hmissing.2]
    rw [hmissing.1, add_zero, mod_eq_of_lt (by omega)] at hend
    constructor
    · intro h l' hl'
      cases hl'
      by_cases hlt : r.toNat < l.size
      · rw [CanonicalizerModule.apply_discard (hend ▸ hlt) hdiscard] at h
        cases h
      · rw [CanonicalizerModule.apply_above (by omega)] at h
        have heq := congrArg UInt32.toNat (some.inj h)
        exact .inr ⟨by omega, by omega⟩
    · intro h
      obtain heq | ⟨haddr, hle⟩ := h l rfl
      · exact absurd heq hsame
      · have hrpc : r = pc := UInt32.toNat_inj.mp (by omega)
        rw [hrpc]
        exact CanonicalizerModule.apply_above (by omega)

/-- The last entry under the highest module below a PC of no module leaves the PC alone
exactly if it ends at or below it. -/
theorem apply_filed (hc : c ∈ canonical) (hhigh : Highest canonical pc c) (hout : ¬ c.Contains pc)
    (hl : lastFiled canonical inst c = some l) :
    ((canonicalizerOf canonical).canonicalToInst l).apply pc = some pc ↔
      (l.size + c.addr) % 2 ^ 32 ≤ pc.toNat := by
  have hend := toNat_filedEnd hC hI hc hl
  by_cases hlt : pc.toNat < (l.size + c.addr) % 2 ^ 32
  · -- a PC below the end of an entry that is not discarded is in the module
    have hdiscard : ((canonicalizerOf canonical).canonicalToInst l).discard = true := by
      by_contra hkeep
      obtain ⟨c', hc', hname, hsize⟩ := of_discards_eq_false hC (Bool.eq_false_iff.mpr hkeep)
      have haddr := canonicalAddr_eq hC hc' hname
      rw [(canonicalAddr_iff hC hc).mpr (lastFiled_spec hl).2, ← UInt32.toNat_inj,
        hC.toNat_addr hc, hC.toNat_addr hc'] at haddr
      obtain rfl := hC.eq_of_addr hc hc' haddr
      have hfits := hC.fits c hc
      exact hout ⟨hhigh.1, by omega⟩
    rw [CanonicalizerModule.apply_discard (hend ▸ hlt) hdiscard]
    exact ⟨fun h => (by cases h), fun h => (by omega)⟩
  · rw [CanonicalizerModule.apply_above (by omega)]
    exact ⟨fun _ => (by omega), fun _ => rfl⟩

/-- **The way back for a PC of no module.** -/
theorem toInst_outside (hpc : ∀ c ∈ canonical, ¬ c.Contains pc) :
    toInst canonical inst pc = some pc ↔
      ∀ c ∈ canonical, Highest canonical pc c →
        ∃ l, lastFiled canonical inst c = some l ∧ (l.size + c.addr) % 2 ^ 32 ≤ pc.toNat := by
  rcases hC.convertPC_cases ((canonicalizerOf canonical).newInstance inst).decanonicalize rfl pc with
    ⟨hbelow, heq⟩ | ⟨c, hc, hhigh, -⟩
  · exact ⟨fun _ c hc hhigh => absurd hhigh.1 (Nat.not_le_of_lt (hbelow c hc)), fun _ => heq⟩
  rw [toInst_highest hC hc hhigh, bind_eq_some_iff]
  constructor
  · rintro ⟨l, hl, happly⟩ c' hc' hhigh'
    rw [hC.eq_of_highest hc' hc hhigh' hhigh]
    exact ⟨l, hl, (apply_filed hC hI hc hhigh (hpc c hc) hl).mp happly⟩
  · intro h
    obtain ⟨l, hl, hle⟩ := h c hc hhigh
    exact ⟨l, hl, (apply_filed hC hI hc hhigh (hpc c hc) hl).mpr hle⟩

/-- Where a convertible PC goes: into the canonical module of its module, or
nowhere if it has none. -/
theorem toCanonical_image (hpc : Convertible canonical inst pc) :
    ∃ r, toCanonical canonical inst pc = some r ∧
      ((∃ m ∈ inst, ∃ c ∈ canonical, c.name = m.name ∧ c.Contains r ∧
        r.toNat + m.addr = pc.toNat + c.addr) ∨ r = pc ∧ ∀ c ∈ canonical, ¬ c.Contains r) := by
  rcases hpc with ⟨m, hm, hin, c, hc, hname, hsize⟩ | hout
  · obtain ⟨r, hr, hmoved⟩ := toCanonical_inside hC hI hm hin hc hname hsize
    refine ⟨r, hr, .inl ⟨m, hm, c, hc, hname, ?_, hmoved⟩⟩
    rw [KernelModule.Contains] at hin ⊢
    omega
  · exact ⟨pc, toCanonical_outside hI fun m hm => hout m (mem_append_right _ hm),
      .inr ⟨rfl, fun c hc => hout c (mem_append_left _ hc)⟩⟩

/-- **A convertible PC comes back exactly if it is recoverable.** -/
theorem toInst_iff (hpc : Convertible canonical inst pc)
    (hr : toCanonical canonical inst pc = some r) :
    toInst canonical inst r = some pc ↔ Recoverable canonical inst pc := by
  rcases hpc with ⟨m, hm, hin, c, hc, hname, hsize⟩ | hout
  · obtain ⟨r', hr', hmoved⟩ := toCanonical_inside hC hI hm hin hc hname hsize
    obtain rfl := some.inj (hr.symm.trans hr')
    rw [toInst_inside hC hI hm hin hc hname hsize hmoved]
    constructor
    · intro h
      refine ⟨fun m' hm' hin' c' hc' hname' => ?_, fun hnone => absurd hin (hnone m hm)⟩
      -- the module of the PC and its canonical module are the only ones
      obtain rfl := hI.eq_of_highest hm' hm (hI.highest_of_contains hm' hin')
        (hI.highest_of_contains hm hin)
      rw [hC.eq_of_name hc' hc (hname'.trans hname.symm)]
      exact h
    · exact fun h => h.inside m hm hin c hc hname
  · have hnoInst : ∀ m ∈ inst, ¬ m.Contains pc :=
      fun m hm => hout m (mem_append_right _ hm)
    rw [toCanonical_outside hI hnoInst] at hr
    cases hr
    rw [toInst_outside hC hI fun c hc => hout c (mem_append_left _ hc)]
    constructor
    · exact fun h => ⟨fun m hm hin => absurd hin (hnoInst m hm), fun _ => h⟩
    · exact fun h => h.outside hnoInst

/-- **Different convertible PCs stay different.** -/
theorem toCanonical_injective {pc' : UInt32} (hpc : Convertible canonical inst pc)
    (hpc' : Convertible canonical inst pc')
    (heq : toCanonical canonical inst pc = toCanonical canonical inst pc') : pc = pc' := by
  obtain ⟨r, hr, hfrom⟩ := toCanonical_image hC hI hpc
  obtain ⟨r', hr', hfrom'⟩ := toCanonical_image hC hI hpc'
  obtain rfl := Option.some.inj (hr.symm.trans (heq.trans hr'))
  rcases hfrom with ⟨m, hm, c, hc, hname, hin, hmoved⟩ | ⟨rfl, hout⟩
  · rcases hfrom' with ⟨m', hm', c', hc', hname', hin', hmoved'⟩ | ⟨-, hout'⟩
    · -- both come from the module with the name of the canonical module
      obtain rfl := hC.eq_of_highest hc hc' (hC.highest_of_contains hc hin)
        (hC.highest_of_contains hc' hin')
      obtain rfl := hI.eq_of_name hm hm' (hname.symm.trans hname')
      exact UInt32.toNat_inj.mp (by omega)
    · exact absurd hin (hout' c hc)
  · rcases hfrom' with ⟨m', hm', c', hc', hname', hin', hmoved'⟩ | ⟨hsame, -⟩
    · exact absurd hin' (hout c' hc')
    · exact hsame

end Valid

end Conversion

/-! ## Coverage and signal -/

/-- The round trip of coverage and signal: everything is kept with its priority,
different PCs stay different, and the way back gives what there was. -/
structure RoundTrip (ci : CanonicalizerInstance) (cov : List UInt32) (sign : Serial) : Prop where
  kept : ∃ f : UInt32 → UInt32,
    ci.canonicalizePCs cov sign = (cov.map f, sign.map fun e => (f e.1, e.2)) ∧
      ∀ p ∈ cov ++ sign.map Prod.fst, ∀ q ∈ cov ++ sign.map Prod.fst, f p = f q → p = q
  back : ci.decanonicalizePCs (ci.canonicalizePCs cov sign).1 (ci.canonicalizePCs cov sign).2 =
    (cov, sign)

theorem filterMap_eq_map {A B : Type} {g : A → Option B} {f : A → B} {l : List A}
    (h : ∀ a ∈ l, g a = some (f a)) : l.filterMap g = l.map f := by
  rw [← List.filterMap_eq_map]
  exact List.filterMap_congr h

/-- A list that a partial function gives back is given back element by element. -/
theorem filterMap_eq_self_iff {A : Type} {g : A → Option A} {l : List A} :
    l.filterMap g = l ↔ ∀ a ∈ l, g a = some a := by
  constructor
  · intro h
    induction l with
    | nil => exact fun a ha => absurd ha not_mem_nil
    | cons b l ih =>
      cases hg : g b with
      | none =>
        rw [filterMap_cons_none hg] at h
        have hle := length_filterMap_le g l
        rw [h, length_cons] at hle
        omega
      | some b' =>
        rw [filterMap_cons_some hg] at h
        obtain ⟨rfl, hl⟩ := List.cons.inj h
        intro a ha
        rcases mem_cons.mp ha with rfl | ha
        · exact hg
        · exact ih hl a ha
  · intro h
    rw [filterMap_eq_map (f := id) h, List.map_id]

/-- Without canonicalization nothing is converted. -/
theorem roundTrip_off {ci : CanonicalizerInstance} (h : ci.canonical.moduleKeys = none)
    (cov : List UInt32) (sign : Serial) : RoundTrip ci cov sign := by
  have hsame : ci.canonicalizePCs cov sign = (cov, sign) := if_pos h
  refine ⟨⟨id, ?_, fun p _ q _ hpq => hpq⟩, ?_⟩
  · rw [hsame, List.map_id]
    exact congrArg _ (map_id sign).symm
  · rw [hsame]
    exact if_pos h

theorem recoverable_nil (inst : List KernelModule) (pc : UInt32) : Recoverable [] inst pc where
  inside := fun _ _ _ _ hc => absurd hc not_mem_nil
  outside := fun _ _ hc => absurd hc not_mem_nil

section On
variable {canonical inst : List KernelModule}

/-- A conversion gives the PCs of moved coverage and signal back exactly if it
gives each of them back. -/
theorem convertPCs_map_iff (convert : Convert) (f : UInt32 → UInt32) (cov : List UInt32)
    (sign : Serial) :
    convert.convertPCs (cov.map f) (sign.map fun e => (f e.1, e.2)) = (cov, sign) ↔
      ∀ pc ∈ cov ++ sign.map Prod.fst, convert.convertPC (f pc) = some pc := by
  rw [Convert.convertPCs, filterMap_map, filterMap_map, Prod.mk.injEq,
    filterMap_eq_self_iff, filterMap_eq_self_iff, forall_mem_append, List.forall_mem_map]
  refine and_congr_right fun _ => forall_congr' fun e => forall_congr' fun _ => ?_
  show (convert.convertPC (f e.1)).map (fun pc => (pc, e.2)) = some e ↔ _
  cases convert.convertPC (f e.1) with
  | none => exact ⟨fun h => (by cases h), fun h => (by cases h)⟩
  | some pc => simp [Prod.ext_iff]

/-- Both conversions of a list are the conversions of its elements. -/
theorem roundTrip_on_iff (hC : ValidModules canonical) (hI : ValidModules inst)
    {cov : List UInt32} {sign : Serial}
    (hpcs : ∀ pc ∈ cov ++ sign.map Prod.fst, Convertible canonical inst pc) :
    RoundTrip ((canonicalizerOf canonical).newInstance inst) cov sign ↔
      ∀ pc ∈ cov ++ sign.map Prod.fst, Recoverable canonical inst pc := by
  obtain ⟨f, hf⟩ : ∃ f : UInt32 → UInt32, f = fun pc => (toCanonical canonical inst pc).getD pc :=
    ⟨_, rfl⟩
  have hsome : ∀ pc ∈ cov ++ sign.map Prod.fst, toCanonical canonical inst pc = some (f pc) := by
    intro pc hpc
    obtain ⟨r, hr, -⟩ := toCanonical_image hC hI (hpcs pc hpc)
    rw [hf]
    dsimp only
    rw [hr, getD_some]
  have hcanonical : ((canonicalizerOf canonical).newInstance inst).canonicalizePCs cov sign =
      (cov.map f, sign.map fun e => (f e.1, e.2)) := by
    refine Prod.ext (filterMap_eq_map fun pc hpc => hsome pc (mem_append_left _ hpc)) ?_
    refine filterMap_eq_map fun e he => ?_
    show (toCanonical canonical inst e.1).map (fun pc => (pc, e.2)) = _
    rw [hsome e.1 (mem_append_right _ (mem_map_of_mem he))]
    rfl
  have hreturn : ((canonicalizerOf canonical).newInstance inst).decanonicalizePCs (cov.map f)
        (sign.map fun e => (f e.1, e.2)) = (cov, sign) ↔
      ∀ pc ∈ cov ++ sign.map Prod.fst, Recoverable canonical inst pc :=
    (convertPCs_map_iff _ f cov sign).trans (forall_congr' fun pc => forall_congr' fun hpc =>
      toInst_iff hC hI (hpcs pc hpc) (hsome pc hpc))
  constructor
  · intro h
    have hb := h.back
    rw [hcanonical] at hb
    exact hreturn.mp hb
  · intro h
    refine ⟨⟨f, hcanonical, ?_⟩, ?_⟩
    · intro p hp q hq hpq
      refine toCanonical_injective hC hI (hpcs p hp) (hpcs q hq) ?_
      rw [hsome p hp, hsome q hq, hpq]
    · rw [hcanonical]
      exact hreturn.mpr h

end On

/-- **Canonicalization round trip.**  For convertible coverage and signal it holds
exactly if every PC is recoverable (or canonicalization is off). -/
theorem canonicalize_roundTrip_iff (canonical inst : List KernelModule) (flagSignal : Bool)
    (hC : ValidModules canonical) (hI : ValidModules inst) (cov : List UInt32) (sign : Serial)
    (hpcs : ∀ pc ∈ cov ++ sign.map Prod.fst, Convertible canonical inst pc) :
    RoundTrip ((newCanonicalizer canonical flagSignal).newInstance inst) cov sign ↔
      (flagSignal = true →
        ∀ pc ∈ cov ++ sign.map Prod.fst, Recoverable canonical inst pc) := by
  by_cases hoff : canonical.length = 0 ∨ flagSignal = false
  · have hround : RoundTrip ((newCanonicalizer canonical flagSignal).newInstance inst) cov sign := by
      rw [newCanonicalizer, if_pos hoff]
      exact roundTrip_off rfl cov sign
    refine ⟨fun _ hon pc _ => ?_, fun _ => hround⟩
    rcases hoff with hnil | hflag
    · rw [length_eq_zero_iff.mp hnil]
      exact recoverable_nil inst pc
    · rw [hon] at hflag
      cases hflag
  · have hon : flagSignal = true := by
      cases flagSignal
      · exact absurd (.inr rfl) hoff
      · rfl
    rw [newCanonicalizer, if_neg hoff]
    change RoundTrip ((canonicalizerOf canonical).newInstance inst) cov sign ↔ _
    rw [roundTrip_on_iff hC hI hpcs]
    exact ⟨fun h _ => h, fun h => h hon⟩

/-- The vendor and the network driver of a first instance. -/
def firstModules : List KernelModule := [⟨"vendor", 0x1000, 0x500⟩, ⟨"net", 0x3000, 0x500⟩]

theorem firstModules_valid : ValidModules firstModules :=
  ⟨by decide, by decide, by decide⟩

/-- The same modules, swapped. -/
def swappedModules : List KernelModule := [⟨"net", 0x1000, 0x500⟩, ⟨"vendor", 0x3000, 0x500⟩]

theorem swappedModules_valid : ValidModules swappedModules :=
  ⟨by decide, by decide, by decide⟩

/-- PCs of both modules and of none come back. -/
theorem canonicalize_roundTrip_swapped :
    RoundTrip ((newCanonicalizer firstModules true).newInstance swappedModules)
      [0x1100, 0x3100, 0x9000] [(0x1100, 2)] := by
  refine (canonicalize_roundTrip_iff firstModules swappedModules true firstModules_valid
    swappedModules_valid [0x1100, 0x3100, 0x9000] [(0x1100, 2)] ?_).mpr ?_
  · intro pc hpc
    simp only [map_cons, map_nil, cons_append, nil_append, mem_cons,
      not_mem_nil, or_false] at hpc
    rcases hpc with rfl | rfl | rfl | rfl <;> decide +kernel
  · intro _ pc hpc
    simp only [map_cons, map_nil, cons_append, nil_append, mem_cons,
      not_mem_nil, or_false] at hpc
    rcases hpc with rfl | rfl | rfl | rfl <;> decide +kernel

/-- **A PC above a canonical module that the instance lacks is lost.**  The PC is
in no module, it is kept on the way to the canonical addresses, and discarded on
the way back. -/
theorem decanonicalize_lost :
    ValidModules firstModules ∧ ValidModules [⟨"vendor", 0x1000, 0x500⟩] ∧
      Convertible firstModules [⟨"vendor", 0x1000, 0x500⟩] 0x9000 ∧
      ¬ RoundTrip ((newCanonicalizer firstModules true).newInstance
        [⟨"vendor", 0x1000, 0x500⟩]) [0x9000] [] := by
  refine ⟨firstModules_valid, ⟨by decide, by decide, by decide⟩, by decide +kernel, ?_⟩
  intro h
  have hback := h.back
  have hlost : (((newCanonicalizer firstModules true).newInstance
      [⟨"vendor", 0x1000, 0x500⟩]).decanonicalizePCs [0x9000] []).1 = [] := by decide +kernel
  have hkept : ((newCanonicalizer firstModules true).newInstance
      [⟨"vendor", 0x1000, 0x500⟩]).canonicalizePCs [0x9000] [] = ([0x9000], []) := by
    decide +kernel
  have hcov := congrArg Prod.fst hback
  cases hcov

end Sect.Cover
