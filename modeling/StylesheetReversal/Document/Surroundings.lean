import StylesheetReversal.Document.Basic
import StylesheetReversal.Text.Blank
/-!
# Where an element stands

`surroundings` describes the place of an element by a predicate of the path language, to be
used on text nodes: it asks the parent of the text for its name, its attributes and its
siblings, and so on for the elements further up, for instance
`parent::node()[name()='b' and preceding-sibling::a]`.

Only some nodes say anything about a place.  Wrappers are passed over on the way up; of the
siblings, elements and texts that are not blank are mentioned.

Values are put between apostrophes as they are.
-/
namespace StylesheetReversal.Document

variable {ν : Type} [DecidableEq ν]

/-- Asks for an attribute and its value. -/
def attributeTest (d : Document ν) (n : ν) : String :=
  "@" ++ d.baseName n ++ "='" ++ d.value n ++ "'"

/-- Asks for a sibling, if it is one that is mentioned. -/
def mention (d : Document ν) (sibling : ν) : Option String :=
  match d.kind sibling with
  | .text =>
    let said := Text.trim (d.value sibling).toList
    if said.isEmpty then none else some ("text()[contains(.,'" ++ String.ofList said ++ "')]")
  | .element =>
    let tests := (d.attributes sibling).map d.attributeTest
    let name := d.baseName sibling
    some (if tests.isEmpty then name else name ++ "[" ++ " and ".intercalate tests ++ "]")
  | _ => none

/-- Everything that is asked of an element: its name, its attributes, the siblings before it
and those after it. -/
def conditions (d : Document ν) (n : ν) : List String :=
  let (before, after) := d.siblings n
  ("name()='" ++ d.baseName n ++ "'") ::
    (d.attributes n).map d.attributeTest ++
    (before.filterMap d.mention).map ("preceding-sibling::" ++ ·) ++
    (after.filterMap d.mention).map ("following-sibling::" ++ ·)

/-- The predicate for elements one above the other, the innermost first. -/
def nested (d : Document ν) : List ν → String
  | [] => ""
  | n :: above =>
    let further := if above.isEmpty then [] else [nested d above]
    "parent::node()[" ++ " and ".intercalate (d.conditions n ++ further) ++ "]"

theorem nested_cons (d : Document ν) (n : ν) (above : List ν) : d.nested (n :: above) =
    "parent::node()[" ++
      " and ".intercalate (d.conditions n ++ if above.isEmpty then [] else [d.nested above]) ++ "]" := rfl

/-- Whether a node on the way up is described: an element that is no wrapper. -/
def isDescribed (d : Document ν) (wrapper : Option String → Bool) (n : ν) : Bool :=
  d.kind n = .element && !wrapper (d.uri n)

/-- The nearest node that is described, `n` itself or one above it, before `boundary` or the root
of the document is reached. -/
def nearest? (d : Document ν) (wrapper : Option String → Bool) (boundary n : ν) : Option ν :=
  if n = boundary ∨ d.kind n = .root then none
  else if d.isDescribed wrapper n then some n
  else
    match _ : d.parent n with
    | some p => d.nearest? wrapper boundary p
    | none => none
termination_by d.rank n
decreasing_by exact d.rank_parent ‹_›

theorem rank_nearest? {d : Document ν} {wrapper : Option String → Bool} {boundary n m : ν}
    (h : d.nearest? wrapper boundary n = some m) : d.rank m ≤ d.rank n := by
  fun_induction d.nearest? wrapper boundary n with
  | case1 => cases h
  | case2 => cases h; exact Nat.le_refl _
  | case3 n _ _ p hp ih => exact Nat.le_trans (ih h) (Nat.le_of_lt (d.rank_parent hp))
  | case4 => cases h

/-- The predicate for the place of `source` below `boundary`; empty if there is no element to
describe.  `wrapper` says which namespaces hold wrappers. -/
def surroundings (d : Document ν) (wrapper : Option String → Bool) (source boundary : ν) :
    String :=
  match _ : d.nearest? wrapper boundary source with
  | none => ""
  | some n =>
    let further :=
      match _ : d.parent n with
      | some p => d.surroundings wrapper p boundary
      | none => ""
    "parent::node()[" ++
      " and ".intercalate (d.conditions n ++ if further = "" then [] else [further]) ++ "]"
termination_by d.rank source
decreasing_by exact Nat.lt_of_lt_of_le (d.rank_parent ‹_›) (rank_nearest? ‹_›)

end StylesheetReversal.Document
