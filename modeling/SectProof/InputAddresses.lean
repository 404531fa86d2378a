import SectProof.ManagerServer

/-! # The addresses of inputs that are sent to fuzzers

The server stores inputs in canonical addresses, and a fuzzer has to receive them
in its own.  `Poll` takes a batch of inputs from the queue of the fuzzer and ends
with a loop that converts them, but the loop variable is a copy: the inputs are
sent as they were queued.

So **a reply is in the addresses of the fuzzer exactly when the conversion leaves
every PC of the batch in place** (`reply_inAddresses_iff`), that is when no PC is
in a module that the instance has at another address, with another size or not
at all.
-/

namespace Sect.Cover

/-- **The conversion leaves the PC in place**: it is below all modules, or the entry of
the last module at or below it ends before it or does not move it. -/
def Convert.InPlace (convert : Convert) (pc : UInt32) : Prop :=
  findModule pc convert.moduleKeys < 0 ∨
    ∃ m, convert.conversionHash.lookup
        (convert.moduleKeys.getD (findModule pc convert.moduleKeys).toNat 0) = some m ∧
      (m.endAddr ≤ pc ∨ m.discard = false ∧ (2 ^ 32 : Int) ∣ m.offset)

/-- Adding an offset to a 32-bit address gives the address back iff it is a multiple
of `2 ^ 32`. -/
theorem ofInt_add_eq_iff (pc : UInt32) (offset : Int) :
    UInt32.ofInt (pc.toNat + offset) = pc ↔ (2 ^ 32 : Int) ∣ offset := by
  have hpc := pc.toNat_lt
  have hnat : (UInt32.ofInt (pc.toNat + offset)).toNat = ((pc.toNat + offset) % 2 ^ 32).toNat := by
    rw [UInt32.ofInt, UInt32.toNat_ofNat', Nat.mod_eq_of_lt]
    omega
  rw [← UInt32.toNat_inj, hnat]
  omega

theorem CanonicalizerModule.apply_eq_some_self_iff {m : CanonicalizerModule} {pc : UInt32} :
    m.apply pc = some pc ↔ m.endAddr ≤ pc ∨ m.discard = false ∧ (2 ^ 32 : Int) ∣ m.offset := by
  rw [apply]
  by_cases hlt : pc < m.endAddr
  · have hnot : ¬ m.endAddr ≤ pc := UInt32.not_le.mpr hlt
    rw [if_pos hlt, or_iff_right hnot]
    cases m.discard with
    | true => simp
    | false =>
      rw [if_neg Bool.false_ne_true, Option.some.injEq, ofInt_add_eq_iff]
      simp
  · simp [hlt, UInt32.not_lt.mp hlt]

theorem Convert.convertPC_eq_some_self_iff {convert : Convert} {pc : UInt32} :
    convert.convertPC pc = some pc ↔ convert.InPlace pc := by
  rw [convertPC, InPlace]
  by_cases hfound : 0 ≤ findModule pc convert.moduleKeys
  · rw [if_pos hfound, or_iff_right (not_lt.mpr hfound)]
    cases hm : convert.conversionHash.lookup
        (convert.moduleKeys.getD (findModule pc convert.moduleKeys).toNat 0) with
    | none => simp
    | some m => simp [CanonicalizerModule.apply_eq_some_self_iff]
  · simp [hfound, not_le.mp hfound]

/-- The conversion to instance addresses leaves coverage and signal as they are iff
it is off or leaves every PC in place. -/
theorem decanonicalizePCs_eq_self_iff (ci : CanonicalizerInstance) (cov : List UInt32)
    (sign : Serial) :
    ci.decanonicalizePCs cov sign = (cov, sign) ↔
      ci.canonical.moduleKeys = none ∨
        ∀ pc ∈ cov ++ sign.map Prod.fst, ci.decanonicalize.InPlace pc := by
  rw [CanonicalizerInstance.decanonicalizePCs]
  split
  · simp [*]
  rename_i hon
  have hpcs := convertPCs_map_iff ci.decanonicalize id cov sign
  rw [List.map_id, show (fun e : UInt32 × Int8 => (id e.1, e.2)) = id from rfl,
    List.map_id] at hpcs
  rw [hpcs, or_iff_right hon]
  exact forall_congr' fun pc => forall_congr' fun _ => Convert.convertPC_eq_some_self_iff

end Sect.Cover

namespace Sect.Rpc
open Sect.Fuzzer (Signal)
variable {P H : Type} [DecidableEq H]

/-- The input in the addresses of the fuzzer. -/
def Fuzzer.decanonicalize {P : Type} (f : Fuzzer P) (inp : Input P) : Input P :=
  { inp with
    cover := (f.instModules.decanonicalizePCs inp.cover inp.signal).1
    signal := (f.instModules.decanonicalizePCs inp.cover inp.signal).2 }

/-- **The reply of a poll is in the addresses of the fuzzer**: its inputs are those
taken from the queue, with coverage and signal decanonicalized. -/
def InAddresses (cfg : Config) (order : Signal.RangeOrder) (a : PollArgs) (serv : Server P H)
    (f : Fuzzer P) : Prop :=
  (serv.poll cfg order a).2.newInputs =
    (Server.pollInputs cfg a serv.mgr f).1.map f.decanonicalize

omit [DecidableEq H] in
instance [DecidableEq P] (cfg : Config) (order : Signal.RangeOrder) (a : PollArgs)
    (serv : Server P H) (f : Fuzzer P) : Decidable (InAddresses cfg order a serv f) :=
  inferInstanceAs (Decidable (_ = _))

theorem Fuzzer.decanonicalize_eq_self_iff {P : Type} (f : Fuzzer P) (inp : Input P) :
    f.decanonicalize inp = inp ↔
      f.instModules.decanonicalizePCs inp.cover inp.signal = (inp.cover, inp.signal) := by
  obtain ⟨call, prog, signal, cover, callID, rawCover⟩ := inp
  simp only [Fuzzer.decanonicalize, Input.mk.injEq, true_and, and_true, Prod.ext_iff]
  exact and_comm

omit [DecidableEq H] in
/-- **The inputs of a reply are in the addresses of the fuzzer iff canonicalization is
off for it or leaves every PC of the inputs that the poll takes in place**, in every
state of the server. -/
theorem reply_inAddresses_iff (cfg : Config) (order : Signal.RangeOrder) (a : PollArgs)
    {serv : Server P H} {f : Fuzzer P} (hf : serv.fuzzers.lookup a.name = some f)
    (hrot : f.rotated = false) :
    InAddresses cfg order a serv f ↔
      f.instModules.canonical.moduleKeys = none ∨
        ∀ inp ∈ (Server.pollInputs cfg a serv.mgr f).1,
          ∀ pc ∈ inp.cover ++ inp.signal.map Prod.fst,
            f.instModules.decanonicalize.InPlace pc := by
  rw [InAddresses, poll_newInputs hf hrot]
  have hmap : ∀ l : List (Input P), l = l.map f.decanonicalize ↔
      ∀ inp ∈ l, f.decanonicalize inp = inp := by
    intro l
    rw [eq_comm]
    nth_rewrite 2 [← List.map_id l]
    exact List.map_inj_left
  rw [hmap]
  by_cases hoff : f.instModules.canonical.moduleKeys = none
  · simp [hoff, Fuzzer.decanonicalize_eq_self_iff, Cover.decanonicalizePCs_eq_self_iff]
  · simp [hoff, Fuzzer.decanonicalize_eq_self_iff, Cover.decanonicalizePCs_eq_self_iff]

/-- A module at one address in the first instance and at another in the second, and
an input found in it by the first fuzzer. -/
def moduleAt (addr : Nat) : List (Op Nat Nat) :=
  [connectPlain 0 "vm-0" [⟨"net", 0x1000, 0x500⟩], connectPlain 1 "vm-1" [⟨"net", addr, 0x500⟩],
    .newInput inOrder ⟨"vm-0", ⟨"open", 3, [(0x1100, 1)], [0x1100], 0, []⟩⟩]

/-- Whether the second fuzzer is rotated, has canonicalization on, and polls an input in
its own addresses. -/
def polledInAddresses (addr : Nat) : Option (Bool × Bool × Bool) :=
  (StepRuns.run (Server.logged numbered plainConfig) (Server.start emptyManager, [])
    (moduleAt addr)).bind fun s =>
      (s.1.fuzzers.lookup "vm-1").map fun f =>
        (f.rotated, f.instModules.canonical.moduleKeys.isSome,
          decide (InAddresses plainConfig inOrder ⟨"vm-1", false, [], true⟩ s.1 f))

/-- With the module in place nothing has to be converted. -/
theorem reply_inAddresses_samePlace :
    ∃ serv h f, StepRuns.run (Server.logged numbered plainConfig)
        (Server.start emptyManager, []) (moduleAt 0x1000) = some (serv, h) ∧
      serv.fuzzers.lookup "vm-1" = some f ∧ f.rotated = false ∧
      (f.instModules.canonical.moduleKeys = none ∨
        ∀ inp ∈ (Server.pollInputs plainConfig ⟨"vm-1", false, [], true⟩ serv.mgr f).1,
          ∀ pc ∈ inp.cover ++ inp.signal.map Prod.fst,
            f.instModules.decanonicalize.InPlace pc) := by
  have hrun : polledInAddresses 0x1000 = some (false, true, true) := by decide +kernel
  obtain ⟨⟨serv, h⟩, hserv, hlookup⟩ := Option.bind_eq_some_iff.mp hrun
  obtain ⟨f, hf, hpolled⟩ := Option.map_eq_some_iff.mp hlookup
  obtain ⟨hrot, hpolled⟩ := Prod.mk.inj hpolled
  obtain ⟨-, hin⟩ := Prod.mk.inj hpolled
  exact ⟨serv, h, f, hserv, hf, hrot,
    (reply_inAddresses_iff plainConfig inOrder ⟨"vm-1", false, [], true⟩ hf hrot).mp
      (of_decide_eq_true hin)⟩

/-- With the module at another address the second fuzzer is sent addresses of the
first one. -/
theorem reply_canonical :
    ∃ serv h f, StepRuns.run (Server.logged numbered plainConfig)
        (Server.start emptyManager, []) (moduleAt 0x2000) = some (serv, h) ∧
      serv.fuzzers.lookup "vm-1" = some f ∧ f.rotated = false ∧
      f.instModules.canonical.moduleKeys.isSome = true ∧
      ¬ InAddresses plainConfig inOrder ⟨"vm-1", false, [], true⟩ serv f := by
  have hrun : polledInAddresses 0x2000 = some (false, true, false) := by decide +kernel
  obtain ⟨⟨serv, h⟩, hserv, hlookup⟩ := Option.bind_eq_some_iff.mp hrun
  obtain ⟨f, hf, hpolled⟩ := Option.map_eq_some_iff.mp hlookup
  obtain ⟨hrot, hpolled⟩ := Prod.mk.inj hpolled
  obtain ⟨hon, hin⟩ := Prod.mk.inj hpolled
  exact ⟨serv, h, f, hserv, hf, hrot, hon, of_decide_eq_false hin⟩

end Sect.Rpc
