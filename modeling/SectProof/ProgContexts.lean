import SectProof.ProgArgs

/-! # Places in a program

A place is a program with a hole for one argument.  Filling the hole puts an
argument there; detaching it takes the argument out of the group or from behind
the pointer that holds it.
-/

namespace Sect.Program

/-- An argument with a hole. -/
inductive ArgPlace
  | hole
  | pointer (id : Id) (common : ArgCommon) (address vmaSize : UInt64) (res : ArgPlace)
  | group (id : Id) (common : ArgCommon) (before : List Arg) (elem : ArgPlace) (after : List Arg)
  | union (id : Id) (common : ArgCommon) (option : ArgPlace) (index : Nat) (transient : Bool)

namespace ArgPlace

def fill (a : Arg) : ArgPlace → Arg
  | hole => a
  | pointer id c addr n k => .pointer id c addr n (k.fill a)
  | group id c before k after => .group id c (before ++ k.fill a :: after)
  | union id c k index transient => .union id c (k.fill a) index transient

/-- The argument without what is in the hole, if anything is left of it. -/
def detach : ArgPlace → Option Arg
  | hole => none
  | pointer id c addr n k =>
    match k.detach with
    | none => some (.address id c addr n)
    | some res => some (.pointer id c addr n res)
  | group id c before k after =>
    match k.detach with
    | none => some (.group id c (before ++ after))
    | some elem => some (.group id c (before ++ elem :: after))
  | union id c k index transient => k.detach.map fun option => .union id c option index transient

/-- The results visited before the hole. -/
def pre : ArgPlace → List Id
  | hole => []
  | pointer _ _ _ _ k | union _ _ k _ _ => k.pre
  | group _ _ before k _ => before.flatMap Arg.results ++ k.pre

/-- The results visited after the hole. -/
def post : ArgPlace → List Id
  | hole => []
  | pointer _ _ _ _ k | union _ _ k _ _ => k.post
  | group _ _ _ k after => k.post ++ after.flatMap Arg.results

def idsPre : ArgPlace → List Id
  | hole => []
  | pointer id _ _ _ k | union id _ k _ _ => id :: k.idsPre
  | group id _ before k _ => id :: (before.flatMap Arg.ids ++ k.idsPre)

def idsPost : ArgPlace → List Id
  | hole => []
  | pointer _ _ _ _ k | union _ _ k _ _ => k.idsPost
  | group _ _ _ k after => k.idsPost ++ after.flatMap Arg.ids

theorem results_fill (k : ArgPlace) (a : Arg) :
    (k.fill a).results = k.pre ++ a.results ++ k.post := by
  induction k with
  | hole => simp [fill, pre, post]
  | pointer _ _ _ _ k ih => simpa [fill, pre, post] using ih
  | group _ _ before k after ih => simp [fill, pre, post, ih]
  | union _ _ k _ _ ih => simpa [fill, pre, post] using ih

theorem ids_fill (k : ArgPlace) (a : Arg) : (k.fill a).ids = k.idsPre ++ a.ids ++ k.idsPost := by
  induction k with
  | hole => simp [fill, idsPre, idsPost]
  | pointer _ _ _ _ k ih => simpa [fill, idsPre, idsPost] using ih
  | group _ _ before k after ih => simp [fill, idsPre, idsPost, ih]
  | union _ _ k _ _ ih => simpa [fill, idsPre, idsPost] using ih

/-- What is left without the hole has the results and objects around it. -/
theorem detach_spec (k : ArgPlace) :
    (k.detach = none → k.pre = [] ∧ k.post = []) ∧
      ∀ b, k.detach = some b → b.results = k.pre ++ k.post ∧
        b.ids.Sublist (k.idsPre ++ k.idsPost) := by
  induction k with
  | hole =>
    refine ⟨fun _ => ⟨rfl, rfl⟩, ?_⟩
    intro b hb
    cases hb
  | pointer id c addr n k ih =>
    obtain ⟨hnone, hsome⟩ := ih
    unfold detach
    cases hk : k.detach with
    | none =>
      obtain ⟨hpre, hpost⟩ := hnone hk
      refine ⟨nofun, ?_⟩
      rintro b ⟨⟩
      refine ⟨by simp [pre, post, hpre, hpost], ?_⟩
      simp [idsPre]
    | some res =>
      obtain ⟨hres, hids⟩ := hsome res hk
      refine ⟨nofun, ?_⟩
      rintro b ⟨⟩
      refine ⟨by simp [pre, post, hres], ?_⟩
      exact hids.cons_cons id
  | group id c before k after ih =>
    obtain ⟨hnone, hsome⟩ := ih
    unfold detach
    cases hk : k.detach with
    | none =>
      obtain ⟨hpre, hpost⟩ := hnone hk
      refine ⟨nofun, ?_⟩
      rintro b ⟨⟩
      refine ⟨by simp [pre, post, hpre, hpost], ?_⟩
      rw [Arg.ids_group, List.flatMap_append]
      refine .cons_cons id ?_
      exact (List.sublist_append_left _ _).append (List.sublist_append_right _ _)
    | some elem =>
      obtain ⟨hres, hids⟩ := hsome elem hk
      refine ⟨nofun, ?_⟩
      rintro b ⟨⟩
      refine ⟨by simp [pre, post, hres], ?_⟩
      have hids' : (group id c before k after).idsPre ++ (group id c before k after).idsPost =
          id :: (before.flatMap Arg.ids ++ ((k.idsPre ++ k.idsPost) ++ after.flatMap Arg.ids)) := by
        simp [idsPre, idsPost]
      rw [Arg.ids_group, List.flatMap_append, List.flatMap_cons, hids']
      refine .cons_cons id ?_
      exact (List.Sublist.refl _).append (hids.append (List.Sublist.refl _))
  | union id c k index transient ih =>
    obtain ⟨hnone, hsome⟩ := ih
    unfold detach
    cases hk : k.detach with
    | none =>
      refine ⟨fun _ => hnone hk, ?_⟩
      intro b hb
      cases hb
    | some option =>
      obtain ⟨hres, hids⟩ := hsome option hk
      refine ⟨nofun, ?_⟩
      rintro b ⟨⟩
      refine ⟨by simp [pre, post, hres], ?_⟩
      exact hids.cons_cons id

end ArgPlace

/-- A program with a hole in one of the arguments of one of its calls. -/
structure Place where
  before : List Call
  call : Call
  argsBefore : List Arg
  arg : ArgPlace
  argsAfter : List Arg
  after : List Call

namespace Place

/-- The program with the arguments `args` of its call in the place of the hole. -/
def withArgs (k : Place) (args : List Arg) : Prog :=
  ⟨k.before ++ { k.call with args := k.argsBefore ++ args ++ k.argsAfter } :: k.after⟩

def fill (k : Place) (a : Arg) : Prog := k.withArgs [k.arg.fill a]

/-- The program without the argument; `none` for a whole argument of the call. -/
def detach (k : Place) : Option Prog := k.arg.detach.map fun b => k.withArgs [b]

def pre (k : Place) : List Id :=
  k.before.flatMap Call.validated ++ k.argsBefore.flatMap Arg.results ++ k.arg.pre

def post (k : Place) : List Id :=
  k.arg.post ++ k.argsAfter.flatMap Arg.results ++ k.call.ret.toList ++
    k.after.flatMap Call.validated

def idsPre (k : Place) : List Id :=
  k.before.flatMap Call.ids ++ k.argsBefore.flatMap Arg.ids ++ k.arg.idsPre

def idsPost (k : Place) : List Id :=
  k.arg.idsPost ++ k.argsAfter.flatMap Arg.ids ++ k.call.ret.toList ++ k.after.flatMap Call.ids

theorem validated_fill (k : Place) (a : Arg) :
    (k.fill a).validated = k.pre ++ a.results ++ k.post := by
  simp [fill, withArgs, Prog.validated, Call.validated, Call.argResults, pre, post,
    ArgPlace.results_fill]

theorem ids_fill (k : Place) (a : Arg) : (k.fill a).ids = k.idsPre ++ a.ids ++ k.idsPost := by
  simp [fill, withArgs, Prog.ids, Call.ids, idsPre, idsPost, ArgPlace.ids_fill]

theorem validated_detach {k : Place} {p : Prog} (h : k.detach = some p) :
    p.validated = k.pre ++ k.post := by
  obtain ⟨b, hb, rfl⟩ := Option.map_eq_some_iff.mp h
  obtain ⟨hres, -⟩ := k.arg.detach_spec.2 b hb
  simp [withArgs, Prog.validated, Call.validated, Call.argResults, pre, post, hres]

theorem ids_detach {k : Place} {p : Prog} (h : k.detach = some p) :
    p.ids.Sublist (k.idsPre ++ k.idsPost) := by
  obtain ⟨b, hb, rfl⟩ := Option.map_eq_some_iff.mp h
  obtain ⟨-, hids⟩ := k.arg.detach_spec.2 b hb
  have hleft : (k.withArgs [b]).ids = (k.before.flatMap Call.ids ++ k.argsBefore.flatMap Arg.ids) ++
      (b.ids ++ (k.argsAfter.flatMap Arg.ids ++ k.call.ret.toList ++ k.after.flatMap Call.ids)) := by
    simp [withArgs, Prog.ids, Call.ids]
  have hright : k.idsPre ++ k.idsPost =
      (k.before.flatMap Call.ids ++ k.argsBefore.flatMap Arg.ids) ++
      ((k.arg.idsPre ++ k.arg.idsPost) ++
        (k.argsAfter.flatMap Arg.ids ++ k.call.ret.toList ++ k.after.flatMap Call.ids)) := by
    simp [idsPre, idsPost]
  rw [hleft, hright]
  exact (List.Sublist.refl _).append (hids.append (List.Sublist.refl _))

end Place

end Sect.Program
