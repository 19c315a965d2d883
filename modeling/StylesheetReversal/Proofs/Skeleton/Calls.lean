import Mathlib.Data.List.Forall2
import StylesheetReversal.Proofs.Skeleton
/-!
# What a factory is asked for

Which paths have a skeleton can be seen from their steps alone (`Skeleton.Supported`), however these are joined
(`Skeleton.Joins`), and so can the names of its elements (`Skeleton.Elements`).  For such a path a factory is asked for
one element after the other, each to be linked below the one before; for any other path it is asked for nothing
(`Skeleton.make_receives`).  What it is asked for is seen by a ghost beside its state (`Factory.traced`), which makes no
difference to anything else.
-/
namespace StylesheetReversal

open StylesheetReversal.Path

/-! ## Tracing -/

namespace Factory

/-- A call that a factory receives, with the element that it makes. -/
inductive Call (ε : Type)
  | create (name : String) (made : ε)
  | append (parent child : ε)
  deriving DecidableEq, Repr

/-- The factory, which writes down what it is asked for. -/
def traced {σ ε : Type} (f : Factory σ ε) : Factory (σ × List (Call ε)) ε where
  create name d :=
    let (made, s) := f.create name d.1
    (made, s, d.2 ++ [.create name made])
  append parent child d := (f.append parent child d.1, d.2 ++ [.append parent child])

end Factory

namespace Skeleton

/-! ## The steps of paths with a skeleton -/

/-- The path joins these steps from left to right, in one way or another. -/
inductive Joins : List Expr → Expr → Prop
  | step {t : Expr} : (∀ left right, t ≠ .join left right) → Joins [t] t
  | join {ls rs : List Expr} {left right : Expr} : Joins ls left → Joins rs right → Joins (ls ++ rs) (.join left right)

/-- The step goes to child elements of one name. -/
def NamesChild (step : Expr) : Prop := ∃ qualifier name, step = .axis .child .element qualifier (some name)

/-- The step goes to the root of the document. -/
def GoesToRoot (step : Expr) : Prop := ∃ kind qualifier name, step = .axis .root kind qualifier name

/-- The steps are that to the root alone, or go to child elements by name.  The first one may also go to the root if there
are others. -/
def Supported (path : List Expr) : Prop :=
  (path.length = 1 ∧ ∀ step ∈ path, GoesToRoot step) ∨
    ∀ i step, path[i]? = some step → NamesChild step ∨ (i = 0 ∧ 1 < path.length ∧ GoesToRoot step)

/-- The step goes to child elements of this name, which is qualified if the step has a qualifier. -/
inductive GoesToChild : Expr → String → Prop
  | plain (base : String) : GoesToChild (.axis .child .element none (some base)) base
  | qualified (qualifier base : String) :
      GoesToChild (.axis .child .element (some qualifier) (some base)) (qualifier ++ ":" ++ base)

/-- The elements for some steps have these names: the root alone has an element of the given name, and otherwise there is
one for each step to a child, whether or not they start at the root. -/
inductive Elements (rootName : String) : List Expr → List String → Prop
  | alone {root : Expr} : GoesToRoot root → Elements rootName [root] [rootName]
  | down {path : List Expr} {names : List String} : List.Forall₂ GoesToChild path names → Elements rootName path names
  | fromRoot {root step : Expr} {path : List Expr} {names : List String} : GoesToRoot root →
      List.Forall₂ GoesToChild (step :: path) names → Elements rootName (root :: step :: path) names

section Names

variable {step t : Expr} {name rootName : String} {path : List Expr} {found : List String}

theorem steps_of_ne_join (h : ∀ left right, t ≠ .join left right) : steps t = [t] := by
  cases t with
  | join left right => exact absurd rfl (h left right)
  | _ => rfl

theorem joins_steps : ∀ t : Expr, Joins (steps t) t
  | .join left right => .join (joins_steps left) (joins_steps right)
  | .string .. | .number .. | .operator .. | .axis .. | .predicate .. | .variable .. | .function .. => .step nofun

/-- **The steps of a path** are those that it joins. -/
theorem joins_iff : Joins path t ↔ path = steps t := by
  constructor
  · intro h
    induction h with
    | step hone => exact (steps_of_ne_join hone).symm
    | join _ _ ihl ihr => rw [steps, ihl, ihr]
  · rintro rfl
    exact joins_steps t

theorem steps_ne_nil : ∀ t : Expr, steps t ≠ []
  | .join left right => by
    rw [steps]
    exact List.append_ne_nil_of_left_ne_nil (steps_ne_nil left) _
  | .string .. | .number .. | .operator .. | .axis .. | .predicate .. | .variable .. | .function .. => List.cons_ne_nil _ _

theorem childName?_eq_some_iff : childName? step = some name ↔ GoesToChild step name := by
  constructor
  · intro h
    unfold childName? at h
    split at h
    · next qualifier _ =>
      cases qualifier with
      | none =>
        cases h
        exact .plain _
      | some qualifier =>
        cases h
        exact .qualified qualifier _
    · cases h
  · intro h
    cases h <;> rfl

theorem namesChild_iff : NamesChild step ↔ ∃ name, GoesToChild step name := by
  constructor
  · rintro ⟨_ | qualifier, base, rfl⟩
    · exact ⟨base, .plain base⟩
    · exact ⟨qualifier ++ ":" ++ base, .qualified qualifier base⟩
  · rintro ⟨name, h⟩
    cases h with
    | plain => exact ⟨none, name, rfl⟩
    | qualified qualifier base => exact ⟨some qualifier, base, rfl⟩

theorem isRoot_iff : isRoot step = true ↔ GoesToRoot step := by
  constructor
  · intro h
    unfold isRoot at h
    split at h
    · exact ⟨_, _, _, rfl⟩
    · cases h
  · rintro ⟨kind, qualifier, name, rfl⟩
    rfl

theorem not_goesToRoot (h : GoesToChild step name) : ¬ GoesToRoot step := by
  rintro ⟨kind, qualifier, base, rfl⟩
  cases h

/-- Steps have names if each of them goes to child elements. -/
theorem forall_namesChild_iff : (∀ step ∈ path, NamesChild step) ↔ ∃ found, List.Forall₂ GoesToChild path found := by
  induction path with
  | nil => exact iff_of_true (List.forall_mem_nil _) ⟨[], .nil⟩
  | cons step rest ih =>
    rw [List.forall_mem_cons, namesChild_iff, ih]
    constructor
    · rintro ⟨⟨name, hname⟩, found, hfound⟩
      exact ⟨name :: found, .cons hname hfound⟩
    · rintro ⟨found, h⟩
      cases h with
      | cons hname hfound => exact ⟨⟨_, hname⟩, _, hfound⟩

theorem childNames_eq_ok_iff : childNames path = .ok found ↔ List.Forall₂ GoesToChild path found := by
  induction path generalizing found with
  | nil => simp [childNames, eq_comm]
  | cons step rest ih =>
    rw [childNames]
    constructor
    · intro h
      split at h
      · cases h
      · next name hname =>
        cases hrest : childNames rest with
        | error _ => rw [hrest] at h; cases h
        | ok more =>
          rw [hrest] at h
          cases h
          exact .cons (childName?_eq_some_iff.1 hname) (ih.1 hrest)
    · intro h
      cases h with
      | cons hname hmore =>
        rw [childName?_eq_some_iff.2 hname, ih.2 hmore]
        rfl

theorem elements_alone_iff (h : GoesToRoot step) : Elements rootName [step] found ↔ found = [rootName] := by
  constructor
  · intro helements
    cases helements with
    | alone _ => rfl
    | down hdown =>
      cases hdown with
      | cons hname _ => exact absurd h (not_goesToRoot hname)
  · rintro rfl
    exact .alone h

theorem elements_fromRoot_iff {root : Expr} (h : GoesToRoot root) :
    Elements rootName (root :: step :: path) found ↔ List.Forall₂ GoesToChild (step :: path) found := by
  refine ⟨fun helements => ?_, .fromRoot h⟩
  cases helements with
  | down hdown =>
    cases hdown with
    | cons hname _ => exact absurd h (not_goesToRoot hname)
  | fromRoot _ hdown => exact hdown

theorem elements_down_iff (h : ¬ GoesToRoot step) :
    Elements rootName (step :: path) found ↔ List.Forall₂ GoesToChild (step :: path) found := by
  refine ⟨fun helements => ?_, .down⟩
  cases helements with
  | alone hroot => exact absurd hroot h
  | down hdown => exact hdown
  | fromRoot hroot _ => exact absurd hroot h

/-- **The names of a chain are those of the elements** for the steps. -/
theorem names_eq_ok_iff : names rootName t = .ok found ↔ Elements rootName (steps t) found := by
  unfold names
  split
  · next step heq =>
    rw [heq]
    split
    · next hroot => rw [elements_alone_iff (isRoot_iff.1 hroot), Except.ok.injEq, eq_comm]
    · next hroot => rw [childNames_eq_ok_iff, elements_down_iff (mt isRoot_iff.2 hroot)]
  · next step rest hne heq =>
    obtain ⟨second, rest, rfl⟩ := List.exists_cons_of_ne_nil fun hnil => hne (hnil ▸ rfl)
    rw [heq]
    split
    · next hroot => rw [childNames_eq_ok_iff, elements_fromRoot_iff (isRoot_iff.1 hroot)]
    · next hroot => rw [childNames_eq_ok_iff, elements_down_iff (mt isRoot_iff.2 hroot)]
  · next heq => exact absurd heq (steps_ne_nil t)

/-- There are elements for just the steps that are supported. -/
theorem supported_iff (rootName : String) : Supported path ↔ ∃ found, Elements rootName path found := by
  constructor
  · rintro (⟨hone, hroot⟩ | hall)
    · obtain ⟨root, rfl⟩ := List.length_eq_one_iff.1 hone
      exact ⟨[rootName], .alone (hroot root List.mem_cons_self)⟩
    · match path with
      | [] => exact ⟨[], .down .nil⟩
      | first :: rest =>
        have others : ∀ step ∈ rest, NamesChild step := by
          intro step hstep
          obtain ⟨i, hi⟩ := List.mem_iff_getElem?.1 hstep
          exact (hall (i + 1) step hi).resolve_right fun h => absurd h.1 (Nat.succ_ne_zero i)
        rcases hall 0 first rfl with hfirst | ⟨-, hmore, hroot⟩
        · obtain ⟨found, hfound⟩ := forall_namesChild_iff.1 (List.forall_mem_cons.2 ⟨hfirst, others⟩)
          exact ⟨found, .down hfound⟩
        · obtain ⟨found, hfound⟩ := forall_namesChild_iff.1 others
          obtain ⟨second, rest, rfl⟩ := List.exists_cons_of_length_pos (Nat.lt_of_succ_lt_succ hmore)
          exact ⟨found, .fromRoot hroot hfound⟩
  · rintro ⟨found, h⟩
    cases h with
    | alone hroot => exact .inl ⟨rfl, List.forall_mem_singleton.2 hroot⟩
    | down hdown =>
      exact .inr fun i step hstep => .inl (forall_namesChild_iff.2 ⟨_, hdown⟩ step (List.mem_of_getElem? hstep))
    | fromRoot hroot hdown =>
      refine .inr fun i step hstep => ?_
      cases i with
      | zero =>
        cases hstep
        exact .inr ⟨rfl, Nat.succ_lt_succ (Nat.succ_pos _), hroot⟩
      | succ i => exact .inl (forall_namesChild_iff.2 ⟨_, hdown⟩ step (List.mem_of_getElem? hstep))

theorem Elements.ne_nil (h : Elements rootName path found) (hne : path ≠ []) : found ≠ [] := by
  cases h with
  | alone _ => exact List.cons_ne_nil _ _
  | down hdown =>
    cases hdown with
    | nil => exact absurd rfl hne
    | cons _ _ => exact List.cons_ne_nil _ _
  | fromRoot _ hdown =>
    cases hdown
    exact List.cons_ne_nil _ _

end Names

/-! ## The calls for a chain -/

/-- The calls for elements below another one: each is created, and then linked below the one before. -/
def linking {ε : Type} (above : ε) : List (String × ε) → List (Factory.Call ε)
  | [] => []
  | (name, made) :: rest => .create name made :: .append above made :: linking made rest

section Calls

variable {σ ε : Type}

theorem mem_linking {name : String} {made : ε} : ∀ {above : ε} {rest : List (String × ε)},
    .create name made ∈ linking above rest → (name, made) ∈ rest
  | _, [], h => by cases h
  | above, (name', made') :: rest, h => by
    rw [linking, List.mem_cons, List.mem_cons] at h
    rcases h with h | h | h
    · cases h
      exact List.mem_cons_self
    · cases h
    · exact List.mem_cons_of_mem _ (mem_linking h)

theorem chain_traced (f : Factory σ ε) : ∀ (names : List String) (leaf : ε) (s : σ), ∃ rest : List (String × ε),
    rest.map Prod.fst = names ∧ (chain f leaf names s).1 = (rest.map Prod.snd).getLastD leaf ∧
      ∀ log, chain f.traced leaf names (s, log) =
        ((chain f leaf names s).1, (chain f leaf names s).2, log ++ linking leaf rest)
  | [], leaf, s => ⟨[], rfl, rfl, fun log => by rw [linking, List.append_nil]; rfl⟩
  | name :: names, leaf, s => by
    obtain ⟨rest, hnames, hlast, htraced⟩ := chain_traced f names (f.create name s).1
      (f.append leaf (f.create name s).1 (f.create name s).2)
    refine ⟨(name, (f.create name s).1) :: rest, congrArg (name :: ·) hnames, ?_, fun log => ?_⟩
    · rw [List.map_cons, List.getLastD_cons]
      exact hlast
    · have run := htraced (log ++ [.create name (f.create name s).1] ++ [.append leaf (f.create name s).1])
      have record : log ++ [.create name (f.create name s).1] ++ [.append leaf (f.create name s).1] ++
          linking (f.create name s).1 rest = log ++ linking leaf ((name, (f.create name s).1) :: rest) := by
        rw [List.append_assoc, List.append_assoc]
        rfl
      rw [record] at run
      exact run

/-- What is made of a path whose steps have the given names. -/
theorem make_of_names {rootName first : String} {more : List String} {path : Expr}
    (h : names rootName path = .ok (first :: more)) (f : Factory σ ε) (s : σ) :
    make f rootName path s =
      (some ⟨(f.create first s).1, [(chain f (f.create first s).1 more (f.create first s).2).1]⟩,
        (chain f (f.create first s).1 more (f.create first s).2).2) := by
  unfold make
  rw [h]

/-- Nothing is made of other paths. -/
theorem make_of_not_supported {rootName : String} {path : Expr} (h : ¬ Supported (steps path)) (f : Factory σ ε) (s : σ) :
    make f rootName path s = (none, s) := by
  unfold make
  split
  · next hnames => exact absurd ((supported_iff rootName).2 ⟨_, names_eq_ok_iff.1 hnames⟩) h
  · rfl

/-- The parts of a name that can be written. -/
theorem isName_of_isWritten {name : String} (h : Xml.IsWritten name) : Text.isName name.toList = true ∨
    ∃ qualifier base, Text.isName qualifier = true ∧ Text.isName base = true ∧ name.toList = qualifier ++ ':' :: base := by
  obtain ⟨n, hfit, hname⟩ := h
  rw [hname]
  rcases Xml.TagName.chars_cases hfit with ⟨-, hchars⟩ | ⟨hqualifier, hchars⟩
  · rw [hchars]
    exact .inl hfit.base
  · exact .inr ⟨n.qualifier, n.base, hqualifier, hfit.base, hchars⟩

/-- **A factory is asked for one element after the other, each linked below the one before**, if the steps of the path go
to child elements by name, the first one perhaps to the root; for any other path it is asked for nothing.  How the steps
are joined makes no difference.  The names of a path that was read are names with one colon at most. -/
theorem make_receives (f : Factory σ ε) (rootName : String) (path : Expr) (s : σ) :
    ∃ (flat : List Expr) (received : List (Factory.Call ε)),
      Joins flat path ∧ (∀ other, Joins other path → other = flat) ∧
      (∀ log, make f.traced rootName path (s, log) =
        ((make f rootName path s).1, (make f rootName path s).2, log ++ received)) ∧
      ((make f rootName path s).1.isSome = true ↔ Supported flat) ∧
      (Supported flat → ∃ (first : String × ε) (rest : List (String × ε)),
        (∀ names, Elements rootName flat names ↔ names = (first :: rest).map Prod.fst) ∧
        received = .create first.1 first.2 :: linking first.2 rest ∧
        (make f rootName path s).1 = some ⟨first.2, [(rest.map Prod.snd).getLastD first.2]⟩) ∧
      (¬ Supported flat → make f rootName path s = (none, s) ∧ received = []) ∧
      (∀ other, Joins flat other → make f rootName other s = make f rootName path s) ∧
      (∀ text, Expr.parse text = .ok path → ∀ name made, .create name made ∈ received → name = rootName ∨
        Text.isName name.toList = true ∨ ∃ qualifier base, Text.isName qualifier = true ∧ Text.isName base = true ∧
          name.toList = qualifier ++ ':' :: base) := by
  have joined (other : Expr) (hother : Joins (steps path) other) : make f rootName other s = make f rootName path s := by
    unfold make names
    rw [joins_iff.1 hother]
  by_cases hpath : Supported (steps path)
  · obtain ⟨found, helements⟩ := (supported_iff rootName).1 hpath
    obtain ⟨first, more, rfl⟩ := List.exists_cons_of_ne_nil (helements.ne_nil (steps_ne_nil path))
    have hnames : names rootName path = .ok (first :: more) := names_eq_ok_iff.2 helements
    obtain ⟨rest, hmore, hlast, htraced⟩ := chain_traced f more (f.create first s).1 (f.create first s).2
    have made : ((first, (f.create first s).1) :: rest).map Prod.fst = first :: more := congrArg (first :: ·) hmore
    have run := make_of_names hnames f s
    refine ⟨steps path, .create first (f.create first s).1 :: linking (f.create first s).1 rest, joins_iff.2 rfl,
      fun _ => joins_iff.1, fun log => ?_, ?_, fun _ => ⟨(first, (f.create first s).1), rest, fun names => ?_, rfl, ?_⟩,
      fun hnot => absurd hpath hnot, joined, fun text htext name element hcreate => ?_⟩
    · have begun : f.traced.create first (s, log) =
          ((f.create first s).1, (f.create first s).2, log ++ [.create first (f.create first s).1]) := rfl
      rw [run, make_of_names hnames f.traced, begun, htraced, List.append_assoc]
      rfl
    · rw [run]
      exact ⟨fun _ => hpath, fun _ => rfl⟩
    · rw [made, ← names_eq_ok_iff, hnames, Except.ok.injEq, eq_comm]
    · rw [run, hlast]
    · have named : name ∈ first :: more := by
        rw [← made]
        rcases List.mem_cons.1 hcreate with hcreate | hcreate
        · cases hcreate
          exact List.mem_cons_self
        · exact List.mem_cons_of_mem _ (List.mem_map_of_mem (mem_linking hcreate))
      rcases names_ok hnames name named with hroot | ⟨step, hstep, hasks⟩
      · exact .inl hroot
      · exact .inr (isName_of_isWritten (isWritten_of_step htext step hstep name hasks))
  · have nothing : make f rootName path s = (none, s) := make_of_not_supported hpath f s
    refine ⟨steps path, [], joins_iff.2 rfl, fun _ => joins_iff.1, fun log => ?_, ?_, fun h => absurd h hpath,
      fun _ => ⟨nothing, rfl⟩, joined, fun _ _ _ _ h => nomatch h⟩
    · rw [nothing, make_of_not_supported hpath, List.append_nil]
    · rw [nothing]
      exact ⟨(nomatch ·), fun h => absurd h hpath⟩

end Calls

end Skeleton

end StylesheetReversal
