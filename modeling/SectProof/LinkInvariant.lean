import SectProof.ProgClone
import SectProof.ReplaceArg

/-! # The resource links of a program are an invariant

Every operation that edits programs keeps them well linked.  `replaceArg` does so
exactly if the pointees it overwrites have no links to the rest of the program;
its callers detach a pointee with `removeArg` before they replace the pointer.
-/

namespace Sect.Program

/-- **The editing operations keep a program well linked**, `replaceArg` under the
condition that nothing crosses the border of the pointees it overwrites. -/
theorem wellLinked_operations (target : Target) {s : Store} {p : Prog} (h : p.WellLinked s) :
    (∃ s', p.clone s = .ok (p.rename (s.next + ·), s') ∧
      (p.rename (s.next + ·)).WellLinked s' ∧
      (∀ i ∈ (p.rename (s.next + ·)).ids, i ∉ p.ids) ∧
      (∀ i < s.next, s'.cells i = s.cells i) ∧
      ∀ a ∈ p.validated, { s'.cells (s.next + a) with uses := [] } =
        { s.cells a with res := (s.cells.res a).map (s.next + ·), uses := [] }) ∧
    (∀ idx < p.calls.length, ∃ cells',
      p.removeCall target s.cells idx = .ok (⟨p.calls.eraseIdx idx⟩, cells') ∧
      Prog.WellLinked ⟨cells', s.next⟩ ⟨p.calls.eraseIdx idx⟩) ∧
    (∀ (k : Place) (arg : Arg) (p' : Prog), k.fill arg = p → k.detach = some p' →
      ∃ cells', removeArg target s.cells arg = .ok cells' ∧ p'.WellLinked ⟨cells', s.next⟩) ∧
    (∀ (idx : Nat) (calls : List Call) (s' : Store),
      Generated s s' ((p.calls.take idx).flatMap Call.validated)
        (calls.flatMap Call.validated) (calls.flatMap Call.ids) →
      (∀ c ∈ calls, ∀ r ∈ c.ret, s'.cells.res r = none) →
      (p.insertBefore idx calls).WellLinked s') ∧
    ∀ (k : Place) (arg arg1 : Arg) (s' : Store), k.fill arg = p →
      Generated s s' k.pre arg1.results arg1.ids →
      (∀ f ∈ arg1.results, ∀ z, z ∉ s'.cells.uses f) → arg.sameKind target arg1 = true →
      ∃ cells', replaceArg target s'.cells arg arg1 = .ok (arg.replaced arg1, cells') ∧
        ((k.fill (arg.replaced arg1)).WellLinked ⟨cells', s'.next⟩ ↔
          Isolated s.cells (arg.lost arg1) (arg.dropped arg1) k.post) := by
  refine ⟨?_, fun idx hidx => h.removeCall target hidx, ?_, ?_, ?_⟩
  · obtain ⟨s', hok, hlinked, hfresh, hold, hcopy⟩ := h.clone
    refine ⟨s', hok, hlinked, ?_, hold, hcopy⟩
    intro i hi hi'
    exact Nat.not_lt.mpr (hfresh i hi) (h.live i hi')
  · rintro k arg p' rfl hp'
    exact h.detach target hp'
  · intro idx calls s' hgen hret
    exact h.insertBefore idx hgen hret
  · rintro k arg arg1 s' rfl hgen hunused hkind
    exact Replacement.wellLinked_iff ⟨h, hgen, hunused, hkind⟩

/-! ## A pointee that a later call uses -/

namespace Sample

/-- A target with one resource type (0) and a pointer type to it (1). -/
def target : Target where
  types := fun ref => if ref = 0 then .resource { typeName := "fd", typeSize := 4 } .native 0
    else .ptr { typeName := "ptr", typeSize := 8 } 0 .dirOut
  any := ⟨2, 3, 4⟩
  pageSize := 4096
  numPages := 1
  specialPointers := [0]
  escapingFilename := fun _ => false

def pointer : Arg := .pointer 0 ⟨1, .dirIn⟩ 0 0 (.result 1)

def producer : Call where
  syscall := { id := 0, name := "pipe", args := [{ name := "fd", type := 1 }], ret := none }
  args := [pointer]
  ret := none

def consumer : Call where
  syscall := { id := 1, name := "close", args := [{ name := "fd", type := 0 }], ret := none }
  args := [.result 2]
  ret := none

/-- The first call writes a resource behind a pointer, the second one uses it. -/
def place : Place := ⟨[], producer, [], .hole, [], [consumer]⟩

/-- The new pointer. -/
def null : Arg := .address 3 ⟨1, .dirIn⟩ 0 0

def cells : Cells := fun i =>
  if i = 1 then { ref := 0, dir := .dirOut, uses := [2] }
  else { ref := 0, dir := .dirIn, res := if i = 2 then some 1 else none }

def store : Store := ⟨cells, 3⟩

end Sample

/-- The operations on the two calls; the whole pointee is detached from its pointer. -/
theorem wellLinked_operations_sample :
    (Sample.place.fill Sample.pointer).WellLinked Sample.store ∧
      ∃ cells', removeArg Sample.target Sample.cells (.result 1) = .ok cells' ∧
        (Sample.place.fill (.address 0 ⟨1, .dirIn⟩ 0 0)).WellLinked ⟨cells', 3⟩ :=
  have h : (Sample.place.fill Sample.pointer).WellLinked Sample.store := by decide +kernel
  ⟨h, (wellLinked_operations Sample.target h).2.2.1
    ⟨[], Sample.producer, [], .pointer 0 ⟨1, .dirIn⟩ 0 0 .hole, [], [Sample.consumer]⟩
    (.result 1) _ rfl rfl⟩

/-- **A pointer replaced without detaching its pointee** leaves the later call with
a reference to a result that is not in the program. -/
theorem replaceArg_breaks_links :
    (Sample.place.fill Sample.pointer).WellLinked Sample.store ∧
      Generated Sample.store ⟨Sample.cells, 4⟩ Sample.place.pre (Arg.results Sample.null)
        (Arg.ids Sample.null) ∧
      Sample.pointer.sameKind Sample.target Sample.null = true ∧
      ∃ cells', replaceArg Sample.target Sample.cells Sample.pointer Sample.null =
          .ok (Sample.pointer.replaced Sample.null, cells') ∧
        ¬ (Sample.place.fill (Sample.pointer.replaced Sample.null)).WellLinked ⟨cells', 4⟩ := by
  refine ⟨by decide +kernel, ?_, rfl, Sample.cells, rfl, by decide +kernel⟩
  refine ⟨by decide, by decide, by decide, by decide, by decide, fun _ _ => rfl, ?_,
    fun _ hy => by cases hy⟩
  intro i _ x
  exact ⟨.inl, fun hx => hx.resolve_right fun hx => absurd hx.1 (by simp [Sample.null])⟩

end Sect.Program
