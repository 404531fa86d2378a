import Mathlib

/-! # Doubly linked references

Every node may refer to one other node (`res`) and keeps the list of the nodes
that refer to it (`uses`).  `Consistent` says that the two directions agree on a
set of nodes and mention nothing outside of it; `Linked` adds that every
reference points backwards in a list of the nodes.  The lemmas say what removing
a node, redirecting one, adding nodes, renaming and dropping nodes keep.
-/

open List

namespace RefGraph

variable {α β : Type*}

/-- The references and their reverse agree on `S` and do not leave it. -/
structure Consistent (res : α → Option α) (uses : α → List α) (S : Set α) : Prop where
  fwd : ∀ x ∈ S, ∀ y, res x = some y → y ∈ S ∧ x ∈ uses y
  bwd : ∀ y ∈ S, ∀ x ∈ uses y, x ∈ S ∧ res x = some y
  irrefl : ∀ x ∈ S, res x ≠ some x

/-- Consistent, and every node comes after the node it refers to. -/
structure Linked (res : α → Option α) (uses : α → List α) (order : List α) : Prop where
  consistent : Consistent res uses {x | x ∈ order}
  before : ∀ x ∈ order, ∀ y, res x = some y → [y, x].Sublist order

namespace Consistent

variable {res res' : α → Option α} {uses uses' : α → List α} {S T : Set α}

/-- Without the links to and from `a` the other nodes are consistent. -/
theorem remove (h : Consistent res uses S) {a : α}
    (hres : ∀ x ∈ S, x ≠ a → ∀ y, res' x = some y ↔ res x = some y ∧ y ≠ a)
    (huses : ∀ y ∈ S, y ≠ a → ∀ x, x ∈ uses' y ↔ x ∈ uses y ∧ x ≠ a) :
    Consistent res' uses' (S \ {a}) := by
  refine ⟨?_, ?_, ?_⟩
  · rintro x ⟨hx, hxa⟩ y hxy
    obtain ⟨hxy, hya⟩ := (hres x hx hxa y).mp hxy
    obtain ⟨hy, hmem⟩ := h.fwd x hx y hxy
    exact ⟨⟨hy, hya⟩, (huses y hy hya x).mpr ⟨hmem, hxa⟩⟩
  · rintro y ⟨hy, hya⟩ x hxy
    obtain ⟨hxy, hxa⟩ := (huses y hy hya x).mp hxy
    obtain ⟨hx, hres'⟩ := h.bwd y hy x hxy
    exact ⟨⟨hx, hxa⟩, (hres x hx hxa y).mpr ⟨hres', hya⟩⟩
  · rintro x ⟨hx, hxa⟩ hxx
    exact h.irrefl x hx ((hres x hx hxa x).mp hxx).1

/-- `a` takes over the reference of an unused node `f`. -/
theorem retarget (h : Consistent res uses S) {a f : α} (ha : a ∈ S) (hf : f ∈ S) (haf : a ≠ f)
    (hunused : ∀ x, x ∉ uses f) (hfa : res f ≠ some a)
    (hres : ∀ x ∈ S, x ≠ f → ∀ y, res' x = some y ↔
      (x = a ∧ res f = some y) ∨ (x ≠ a ∧ res x = some y))
    (huses : ∀ y ∈ S, y ≠ f → ∀ x, x ∈ uses' y ↔
      (x = a ∧ res f = some y) ∨ (x ≠ a ∧ x ≠ f ∧ x ∈ uses y)) :
    Consistent res' uses' (S \ {f}) := by
  have hnot : ∀ x ∈ S, res x ≠ some f := fun x hx hxf => hunused x (h.fwd x hx f hxf).2
  refine ⟨?_, ?_, ?_⟩
  · rintro x ⟨hx, hxf⟩ y hxy
    rcases (hres x hx hxf y).mp hxy with ⟨rfl, hfy⟩ | ⟨hxa, hxy⟩
    · have hy := (h.fwd f hf y hfy).1
      have hyf : y ≠ f := by
        rintro rfl
        exact hnot y hf hfy
      exact ⟨⟨hy, hyf⟩, (huses y hy hyf x).mpr (.inl ⟨rfl, hfy⟩)⟩
    · obtain ⟨hy, hmem⟩ := h.fwd x hx y hxy
      have hyf : y ≠ f := by
        rintro rfl
        exact hnot x hx hxy
      exact ⟨⟨hy, hyf⟩, (huses y hy hyf x).mpr (.inr ⟨hxa, hxf, hmem⟩)⟩
  · rintro y ⟨hy, hyf⟩ x hxy
    rcases (huses y hy hyf x).mp hxy with ⟨rfl, hfy⟩ | ⟨hxa, hxf, hxy⟩
    · exact ⟨⟨ha, haf⟩, (hres x ha haf y).mpr (.inl ⟨rfl, hfy⟩)⟩
    · obtain ⟨hx, hxy⟩ := h.bwd y hy x hxy
      exact ⟨⟨hx, hxf⟩, (hres x hx hxf y).mpr (.inr ⟨hxa, hxy⟩)⟩
  · rintro x ⟨hx, hxf⟩ hxx
    rcases (hres x hx hxf x).mp hxx with ⟨rfl, hfx⟩ | ⟨-, hxx⟩
    · exact hfa hfx
    · exact h.irrefl x hx hxx

/-- New nodes `T` that refer to old nodes or to each other. -/
theorem extend (h : Consistent res uses S)
    (hres : ∀ x ∈ S, res' x = res x) (hnew : ∀ x ∈ T, ∀ y, res' x = some y → y ∈ S ∨ y ∈ T)
    (hself : ∀ x ∈ T, res' x ≠ some x)
    (huses : ∀ y ∈ S, ∀ x, x ∈ uses' y ↔ x ∈ uses y ∨ (x ∈ T ∧ res' x = some y))
    (huses' : ∀ y ∈ T, ∀ x, x ∈ uses' y ↔ x ∈ T ∧ res' x = some y) :
    Consistent res' uses' (S ∪ T) := by
  refine ⟨?_, ?_, ?_⟩
  · rintro x (hx | hx) y hxy
    · rw [hres x hx] at hxy
      obtain ⟨hy, hmem⟩ := h.fwd x hx y hxy
      exact ⟨.inl hy, (huses y hy x).mpr (.inl hmem)⟩
    · rcases hnew x hx y hxy with hy | hy
      · exact ⟨.inl hy, (huses y hy x).mpr (.inr ⟨hx, hxy⟩)⟩
      · exact ⟨.inr hy, (huses' y hy x).mpr ⟨hx, hxy⟩⟩
  · rintro y (hy | hy) x hxy
    · rcases (huses y hy x).mp hxy with hmem | ⟨hx, hxy⟩
      · obtain ⟨hx, hxy⟩ := h.bwd y hy x hmem
        exact ⟨.inl hx, (hres x hx).trans hxy⟩
      · exact ⟨.inr hx, hxy⟩
    · obtain ⟨hx, hxy⟩ := (huses' y hy x).mp hxy
      exact ⟨.inr hx, hxy⟩
  · rintro x (hx | hx)
    · rw [hres x hx]
      exact h.irrefl x hx
    · exact hself x hx

/-- **Nodes can be dropped exactly if no link crosses** between them and the rest. -/
theorem diff_iff (h : Consistent res uses S) (T : Set α) :
    Consistent res uses (S \ T) ↔
      (∀ x ∈ S, x ∈ T → ∀ y, res x = some y → y ∈ T) ∧
      ∀ x ∈ S, x ∉ T → ∀ y, res x = some y → y ∉ T := by
  constructor
  · intro hdiff
    constructor
    · intro x hx hxT y hxy
      by_contra hyT
      obtain ⟨hy, hmem⟩ := h.fwd x hx y hxy
      exact (hdiff.bwd y ⟨hy, hyT⟩ x hmem).1.2 hxT
    · intro x hx hxT y hxy
      exact (hdiff.fwd x ⟨hx, hxT⟩ y hxy).1.2
  · rintro ⟨hin, hout⟩
    refine ⟨?_, ?_, fun x hx => h.irrefl x hx.1⟩
    · rintro x ⟨hx, hxT⟩ y hxy
      obtain ⟨hy, hmem⟩ := h.fwd x hx y hxy
      exact ⟨⟨hy, hout x hx hxT y hxy⟩, hmem⟩
    · rintro y ⟨hy, hyT⟩ x hmem
      obtain ⟨hx, hxy⟩ := h.bwd y hy x hmem
      refine ⟨⟨hx, ?_⟩, hxy⟩
      intro hxT
      exact hyT (hin x hx hxT y hxy)

/-- A copy of the nodes under new names. -/
theorem image {f : α → β} {res' : β → Option β} {uses' : β → List β} (h : Consistent res uses S)
    (hf : Function.Injective f) (hres : ∀ x ∈ S, res' (f x) = (res x).map f)
    (huses : ∀ y ∈ S, ∀ z, z ∈ uses' (f y) ↔ ∃ x ∈ S, res x = some y ∧ z = f x) :
    Consistent res' uses' (f '' S) := by
  refine ⟨?_, ?_, ?_⟩
  · rintro _ ⟨x, hx, rfl⟩ z hxz
    rw [hres x hx, Option.map_eq_some_iff] at hxz
    obtain ⟨y, hxy, rfl⟩ := hxz
    obtain ⟨hy, hmem⟩ := h.fwd x hx y hxy
    exact ⟨⟨y, hy, rfl⟩, (huses y hy _).mpr ⟨x, hx, hxy, rfl⟩⟩
  · rintro _ ⟨y, hy, rfl⟩ z hz
    obtain ⟨x, hx, hxy, rfl⟩ := (huses y hy z).mp hz
    exact ⟨⟨x, hx, rfl⟩, by rw [hres x hx, hxy]; rfl⟩
  · rintro _ ⟨x, hx, rfl⟩ hxx
    rw [hres x hx, Option.map_eq_some_iff] at hxx
    obtain ⟨y, hxy, hyx⟩ := hxx
    exact h.irrefl x hx (hf hyx ▸ hxy)

end Consistent

/-! ## Order -/

variable {l₁ l₂ : List α} {x y : α}

theorem pair_sublist_left (h : [y, x].Sublist (l₁ ++ l₂)) (hx : x ∉ l₂) : [y, x].Sublist l₁ := by
  obtain ⟨k₁, k₂, heq, h₁, h₂⟩ := sublist_append_iff.mp h
  rcases eq_nil_or_concat k₂ with rfl | ⟨k, z, rfl⟩
  · rwa [heq, append_nil]
  · rw [concat_eq_append, ← append_assoc] at heq
    have hsplit : [y] ++ [x] = k₁ ++ k ++ [z] := heq
    have hz : [x] = [z] := (append_inj' hsplit rfl).2
    rw [singleton_inj.mp hz] at hx
    exact absurd (h₂.subset (by simp)) hx

theorem pair_sublist_right (h : [y, x].Sublist (l₁ ++ l₂)) (hy : y ∉ l₁) : [y, x].Sublist l₂ := by
  obtain ⟨k₁, k₂, heq, h₁, h₂⟩ := sublist_append_iff.mp h
  cases k₁ with
  | nil => rwa [heq]
  | cons z k₁ =>
    rw [(List.cons.inj heq).1] at hy
    exact absurd (h₁.subset mem_cons_self) hy

/-- In a list without repetitions, the elements before `x` are those on its left. -/
theorem pair_sublist_split (hnodup : (l₁ ++ x :: l₂).Nodup) :
    [y, x].Sublist (l₁ ++ x :: l₂) ↔ y ∈ l₁ := by
  constructor
  · intro h
    have hne : y ≠ x := by
      have := h.nodup hnodup
      simpa using this
    rw [append_cons] at h hnodup
    have hx : x ∉ l₂ := fun hx => (nodup_append.mp hnodup).2.2 x (by simp) x hx rfl
    have hy : y ∈ l₁ ++ [x] := (pair_sublist_left h hx).subset (by simp)
    rcases mem_append.mp hy with hy | hy
    · exact hy
    · exact absurd (mem_singleton.mp hy) hne
  · intro hy
    exact (singleton_sublist.mpr hy).append (singleton_sublist.mpr mem_cons_self)

theorem pair_sublist_of_sublist {l l' : List α} (hsub : l'.Sublist l) (hnodup : l.Nodup)
    (hx : x ∈ l') (hy : y ∈ l') (h : [y, x].Sublist l) : [y, x].Sublist l' := by
  induction hsub with
  | slnil => exact h
  | cons a hsub ih =>
    rw [nodup_cons] at hnodup
    cases h with
    | cons _ h => exact ih hnodup.2 hx hy h
    | cons_cons _ _ => exact absurd (hsub.subset hy) hnodup.1
  | cons_cons a hsub ih =>
    rw [nodup_cons] at hnodup
    cases h with
    | cons _ h =>
      have hxl : x ∈ _ := h.subset (by simp)
      have hyl : y ∈ _ := h.subset (by simp)
      rcases mem_cons.mp hx with rfl | hx
      · exact absurd hxl hnodup.1
      rcases mem_cons.mp hy with rfl | hy
      · exact absurd hyl hnodup.1
      exact (ih hnodup.2 hx hy h).trans (sublist_cons_self _ _)
    | cons_cons _ h =>
      rcases mem_cons.mp hx with rfl | hx
      · exact absurd (singleton_sublist.mp h) hnodup.1
      · exact (singleton_sublist.mpr hx).cons_cons _

namespace Linked

variable {res res' : α → Option α} {uses uses' : α → List α}

variable {order pre post : List α}

/-- `Linked` as a condition on the nodes of the list one by one. -/
theorem iff_forall :
    Linked res uses order ↔
    (∀ x ∈ order, ∀ y ∈ res x, y ≠ x ∧ x ∈ uses y ∧ [y, x].Sublist order) ∧
      ∀ y ∈ order, ∀ x ∈ uses y, x ∈ order ∧ y ∈ res x := by
  constructor
  · intro h
    refine ⟨?_, h.consistent.bwd⟩
    intro x hx y hxy
    refine ⟨?_, (h.consistent.fwd x hx y hxy).2, h.before x hx y hxy⟩
    rintro rfl
    exact h.consistent.irrefl y hx hxy
  · rintro ⟨hfwd, hbwd⟩
    refine ⟨⟨?_, hbwd, ?_⟩, fun x hx y hxy => (hfwd x hx y hxy).2.2⟩
    · intro x hx y hxy
      obtain ⟨-, hmem, hbefore⟩ := hfwd x hx y hxy
      exact ⟨hbefore.subset (by simp), hmem⟩
    · intro x hx hxx
      exact (hfwd x hx x hxx).1 rfl

instance [DecidableEq α] {order : List α} : Decidable (Linked res uses order) :=
  decidable_of_iff' _ iff_forall

/-- A middle part whose references all point before it can be exchanged. -/
theorem of_middle {middle middle' : List α} (h : Linked res uses (pre ++ middle ++ post))
    (hnodup : (pre ++ middle ++ post).Nodup)
    (hcons : Consistent res' uses' {x | x ∈ pre ++ middle' ++ post})
    (hpre : ∀ x ∈ pre, ∀ y, res' x = some y → res x = some y)
    (hmiddle : ∀ x ∈ middle', ∀ y, res' x = some y → y ∈ pre)
    (hpost : ∀ x ∈ post, ∀ y, res' x = some y → res x = some y) :
    Linked res' uses' (pre ++ middle' ++ post) := by
  refine ⟨hcons, ?_⟩
  intro x hx y hxy
  have hy : y ∈ pre ++ middle' ++ post := (hcons.fwd x hx y hxy).1
  rcases mem_append.mp hx with hx | hx
  · rcases mem_append.mp hx with hx | hx
    · have hold := h.before x (by simp [hx]) y (hpre x hx y hxy)
      rw [append_assoc] at hold hnodup ⊢
      refine (pair_sublist_left hold ?_).trans (sublist_append_left _ _)
      intro hx'
      exact (nodup_append.mp hnodup).2.2 x hx x hx' rfl
    · have hy := hmiddle x hx y hxy
      rw [append_assoc]
      exact (singleton_sublist.mpr hy).append
        ((singleton_sublist.mpr hx).trans (sublist_append_left _ _))
  · rcases mem_append.mp hy with hy | hy
    · exact (singleton_sublist.mpr hy).append (singleton_sublist.mpr hx)
    · have hold := h.before x (by simp [hx]) y (hpost x hx y hxy)
      refine (pair_sublist_right hold ?_).trans (sublist_append_right _ _)
      intro hy'
      exact (nodup_append.mp hnodup).2.2 y hy' y hy rfl

/-- Nodes are removed from the order. -/
theorem of_sublist {order' : List α} (h : Linked res uses order) (hsub : order'.Sublist order)
    (hnodup : order.Nodup) (hcons : Consistent res' uses' {x | x ∈ order'})
    (hres : ∀ x ∈ order', ∀ y, res' x = some y → res x = some y) : Linked res' uses' order' := by
  refine ⟨hcons, ?_⟩
  intro x hx y hxy
  have hy : y ∈ order' := (hcons.fwd x hx y hxy).1
  exact pair_sublist_of_sublist hsub hnodup hx hy
    (h.before x (hsub.subset hx) y (hres x hx y hxy))

/-- New nodes that refer to nodes before them are inserted. -/
theorem insert {block : List α} (h : Linked res uses (pre ++ post))
    (hcons : Consistent res' uses' {x | x ∈ pre ++ block ++ post})
    (hold : ∀ x ∈ pre ++ post, res' x = res x)
    (hblock : ∀ x ∈ block, ∀ y, res' x = some y → y ∈ pre ∨ [y, x].Sublist block) :
    Linked res' uses' (pre ++ block ++ post) := by
  refine ⟨hcons, ?_⟩
  intro x hx y hxy
  have hsub : (pre ++ post).Sublist (pre ++ block ++ post) :=
    (sublist_append_left _ _).append (.refl _)
  by_cases hx' : x ∈ pre ++ post
  · rw [hold x hx'] at hxy
    exact (h.before x hx' y hxy).trans hsub
  have hxb : x ∈ block := by
    simp only [mem_append, not_or] at hx hx'
    rcases hx with (hx | hx) | hx
    · exact absurd hx hx'.1
    · exact hx
    · exact absurd hx hx'.2
  rcases hblock x hxb y hxy with hy | hpair
  · exact ((singleton_sublist.mpr hy).append (singleton_sublist.mpr hxb)).trans
      (sublist_append_left _ _)
  · exact (hpair.trans (sublist_append_right _ _)).trans (sublist_append_left _ _)

/-- A copy of the nodes under new names, in the same order. -/
theorem image {f : α → β} {res' : β → Option β} {uses' : β → List β} (h : Linked res uses order)
    (hf : Function.Injective f) (hres : ∀ x ∈ order, res' (f x) = (res x).map f)
    (huses : ∀ y ∈ order, ∀ z, z ∈ uses' (f y) ↔ ∃ x ∈ order, res x = some y ∧ z = f x) :
    Linked res' uses' (order.map f) := by
  constructor
  · have hset : {z | z ∈ order.map f} = f '' {x | x ∈ order} := by
      ext z
      simp [mem_map]
    rw [hset]
    exact h.consistent.image hf hres huses
  · intro z hz w hzw
    obtain ⟨x, hx, rfl⟩ := mem_map.mp hz
    rw [hres x hx, Option.map_eq_some_iff] at hzw
    obtain ⟨y, hxy, rfl⟩ := hzw
    exact (h.before x hx y hxy).map f

end Linked

end RefGraph
