import StylesheetReversal.Proofs.Path.Parsing
import StylesheetReversal.Proofs.Path.Spelling
import StylesheetReversal.Proofs.Xml.Names
import StylesheetReversal.Skeleton
/-!
# The names in skeletons

Apart from the name for the root alone, the names of a skeleton are written in the path
(`Skeleton.namesIn_of_derives`), so that
they can be written in a document (`Skeleton.isWritten_of_parse`).
-/
namespace StylesheetReversal

open StylesheetReversal.Path

/-- A name that can be written in a tag. -/
def Xml.IsWritten (name : String) : Prop := ∃ n : Xml.TagName, n.Fit ∧ name.toList = n.chars

theorem Xml.isWritten_of_isName {name : String} (h : Text.isName name.toList = true) : IsWritten name :=
  ⟨⟨[], name.toList⟩, ⟨h, .inl rfl⟩, rfl⟩

namespace Skeleton

/-- The step that asks for a child element by the name that a lexeme spells. -/
def askingFor (x : Token) : Expr := .axis .child .element x.name.qualifier? x.name.base?

/-! ## Names in paths -/

/-- The names that a path asks for are spelled by some of the lexemes. -/
def NamesIn (w : List Token) (t : Expr) : Prop :=
  ∀ step ∈ steps t, ∀ name, childName? step = some name → ∃ x ∈ w, x.kind = .name ∧ childName? (askingFor x) = some name

namespace NamesIn

variable {v w : List Token} {x y : Token} {l r t : Expr}

theorem nothing (hone : steps t = [t]) (hnone : childName? t = none) : NamesIn w t := by
  intro step hstep name hname
  rw [hone, List.mem_singleton] at hstep
  rw [hstep, hnone] at hname
  cases hname

theorem unnamed (a : Axis) (k : NodeKind) : NamesIn w (.axis a k none none) := by
  refine nothing rfl ?_
  cases a <;> cases k <;> rfl

theorem whole (a : Axis) : NamesIn w (.whole a) := unnamed a .all

theorem instruction (a : Axis) (target : String) : NamesIn w (.axis a .processingInstruction none (some target)) := by
  refine nothing rfl ?_
  cases a <;> rfl

theorem subset (h : NamesIn v t) (hvw : v ⊆ w) : NamesIn w t := by
  intro step hstep name hname
  obtain ⟨x, hx, found⟩ := h step hstep name hname
  exact ⟨x, hvw hx, found⟩

theorem join (hl : NamesIn w l) (hr : NamesIn w r) : NamesIn w (.join l r) := by
  intro step hstep name hname
  rw [steps] at hstep
  rcases List.mem_append.1 hstep with hstep | hstep
  · exact hl step hstep name hname
  · exact hr step hstep name hname

theorem slash (hl : NamesIn v l) (hr : NamesIn w r) : NamesIn (v ++ x :: w) (.slash l r) := by
  have left : v ⊆ v ++ x :: w := List.subset_append_left v _
  have right : w ⊆ v ++ x :: w := fun y hy => List.mem_append_right v (List.mem_cons_of_mem x hy)
  exact (hl.subset left).join (hr.subset right)

theorem slashSlash (hl : NamesIn v l) (hr : NamesIn w r) : NamesIn (v ++ x :: w) (.slashSlash l r) := by
  have left : v ⊆ v ++ x :: w := List.subset_append_left v _
  have right : w ⊆ v ++ x :: w := fun y hy => List.mem_append_right v (List.mem_cons_of_mem x hy)
  exact (hl.subset left).join ((whole .descendantOrSelf).join (hr.subset right))

theorem name (a : Axis) (hx : x.kind = .name) :
    NamesIn [x] (.axis a a.principalKind x.name.qualifier? x.name.base?) := by
  cases a with
  | child =>
    intro step hstep name hname
    rw [steps, List.mem_singleton] at hstep
    · subst hstep
      exact ⟨x, List.mem_singleton_self x, hx, hname⟩
    · exact nofun
  | _ => exact nothing rfl rfl

end NamesIn

open NamesIn in
/-- **The names of a path are in the text.** -/
theorem namesIn_of_derives {s : Symbol} {w : List Token} {t : Expr} : Derives s w t → NamesIn w t
  -- these have no steps in a skeleton
  | .binary .. => nothing rfl rfl
  | .negation .. => nothing rfl rfl
  | .union .. => nothing rfl rfl
  | .testPredicate .. => nothing rfl rfl
  | .filterPredicate .. => nothing rfl rfl
  | .string _ => nothing rfl rfl
  | .number _ => nothing rfl rfl
  | .variable .. => nothing rfl rfl
  | .call .. => nothing rfl rfl
  | .callWith .. => nothing rfl rfl
  -- one step
  | .root _ => whole .root
  | .dot _ => whole .self
  | .dotDot _ => whole .parent
  | .star _ => unnamed _ _
  | .name hx => name _ hx
  | .nodeType .. => unnamed _ _
  | .instruction .. => instruction _ _
  -- the steps of one phrase inside
  | .tighter _ h => namesIn_of_derives h
  | .unary h => namesIn_of_derives h
  | .member h => namesIn_of_derives h
  | .location h => namesIn_of_derives h
  | .filter h => namesIn_of_derives h
  | .relative h => namesIn_of_derives h
  | .step h => namesIn_of_derives h
  | .child h => namesIn_of_derives h
  | .attribute _ h => (namesIn_of_derives h).subset (List.subset_cons_self _ _)
  | .axis _ _ _ h => (namesIn_of_derives h).subset fun _ hx => List.mem_cons_of_mem _ (List.mem_cons_of_mem _ hx)
  | .test h => namesIn_of_derives h
  | .primary h => namesIn_of_derives h
  | .parens _ _ h =>
    (namesIn_of_derives h).subset fun _ hx => List.mem_cons_of_mem _ (List.mem_append_left _ hx)
  -- the steps of two
  | .filterSlash _ hl hr => (namesIn_of_derives hl).slash (namesIn_of_derives hr)
  | .filterSlashSlash _ hl hr => (namesIn_of_derives hl).slashSlash (namesIn_of_derives hr)
  | .rootSlash _ h => slash (v := []) (whole .root) (namesIn_of_derives h)
  | .rootSlashSlash _ h => slashSlash (v := []) (whole .root) (namesIn_of_derives h)
  | .stepSlash _ hl hr => (namesIn_of_derives hl).slash (namesIn_of_derives hr)
  | .stepSlashSlash _ hl hr => (namesIn_of_derives hl).slashSlash (namesIn_of_derives hr)

/-! ## Names that can be written -/

/-- A lexeme that is spelled like a name asks for an element that can be written. -/
theorem isWritten_of_spells {x : Token} (hx : Spells x.text) {name : String} (h : childName? (askingFor x) = some name) :
    Xml.IsWritten name := by
  obtain ⟨kind, text⟩ := x
  rw [askingFor, Token.name] at h
  dsimp only at hx h
  cases hx with
  | plain hbase =>
    rw [WrittenName.ofChars_of_isName hbase, WrittenName.base?_of_isName hbase] at h
    cases h
    refine Xml.isWritten_of_isName ?_
    rw [String.toList_ofList]
    exact hbase
  | @qualified q b hqualifier hbase =>
    rw [WrittenName.ofChars_append hqualifier, WrittenName.base?_of_isName hbase,
      WrittenName.qualifier?_of_isName hqualifier] at h
    cases h
    have chars : (⟨q, b⟩ : Xml.TagName).chars = q ++ ':' :: b := if_neg (Text.ne_nil_of_isName hqualifier)
    refine ⟨⟨q, b⟩, ⟨hbase, .inr hqualifier⟩, ?_⟩
    rw [chars]
    simp
  | wildcard hqualifier =>
    rw [WrittenName.ofChars_append hqualifier] at h
    cases h

theorem childNames_ok : ∀ {path : List Expr} {names : List String}, childNames path = .ok names →
    ∀ name ∈ names, ∃ step ∈ path, childName? step = some name
  | [], _, h => by
    cases h
    exact nofun
  | step :: rest, names, h => by
    rw [childNames] at h
    split at h
    · cases h
    · next first hfirst =>
      cases hrest : childNames rest with
      | error _ => rw [hrest] at h; cases h
      | ok more =>
        rw [hrest] at h
        cases h
        intro name hname
        rcases List.mem_cons.1 hname with rfl | hname
        · exact ⟨step, List.mem_cons_self, hfirst⟩
        · obtain ⟨found, hfound, hasks⟩ := childNames_ok hrest name hname
          exact ⟨found, List.mem_cons_of_mem step hfound, hasks⟩

/-- The names of a chain are the one chosen for the root, and those that steps ask for. -/
theorem names_ok {rootName : String} {path : Expr} {found : List String} (h : names rootName path = .ok found) :
    ∀ name ∈ found, name = rootName ∨ ∃ step ∈ steps path, childName? step = some name := by
  unfold names at h
  split at h
  · next step heq =>
    rw [heq]
    split at h
    · cases h
      intro name hname
      exact .inl (List.mem_singleton.1 hname)
    · exact fun name hname => .inr (childNames_ok h name hname)
  · next step rest _ heq =>
    rw [heq]
    split at h
    · intro name hname
      obtain ⟨found, hfound, hasks⟩ := childNames_ok h name hname
      exact .inr ⟨found, List.mem_cons_of_mem step hfound, hasks⟩
    · exact fun name hname => .inr (childNames_ok h name hname)
  · cases h
    exact nofun

/-- **The names that steps of a path ask for can be written**, if the path was read. -/
theorem isWritten_of_step {pattern : String} {path : Expr} (hpath : Expr.parse pattern = .ok path) :
    ∀ step ∈ steps path, ∀ name, childName? step = some name → Xml.IsWritten name := by
  have derives := (Expr.derives_of_parse hpath).2
  intro step hstep name hasks
  obtain ⟨x, hx, hkind, hfound⟩ := namesIn_of_derives derives step hstep name hasks
  obtain ⟨l, hl, rfl⟩ := List.mem_map.1 hx
  exact isWritten_of_spells (scan_spells hl hkind) hfound

/-- **The names in the skeleton of a path that was read can be written.** -/
theorem isWritten_of_parse {rootName pattern : String} {path : Expr} {found : List String}
    (hpath : Expr.parse pattern = .ok path) (hroot : Text.isName rootName.toList = true)
    (h : names rootName path = .ok found) : ∀ name ∈ found, Xml.IsWritten name := by
  intro name hname
  rcases names_ok h name hname with rfl | ⟨step, hstep, hasks⟩
  · exact Xml.isWritten_of_isName hroot
  · exact isWritten_of_step hpath step hstep name hasks

end Skeleton

end StylesheetReversal
