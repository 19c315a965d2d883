import StylesheetReversal.Proofs.Path.Writing
import StylesheetReversal.Proofs.Xml.Kinship
import StylesheetReversal.Proofs.Xml.NamedNodes
import StylesheetReversal.Reversal
/-!
# What is said about a place

The description of a place is put together as text.  Here it is put together once more, as a tree: `XmlDocument.place`
asks the parent of the text for its name, its attributes and its siblings, and for the elements further up.  As long as
no value with an apostrophe in it is written down, the pattern of a rule parses to this tree, whatever the elements and
attributes are called (`Reversal.parse_textPattern`).
-/
namespace StylesheetReversal

open StylesheetReversal.Path StylesheetReversal.Xml

/-- One test and those that follow it, joined from the left. -/
def Path.Expr.conjunction (first : Expr) (others : List Expr) : Expr := others.foldl (.binary .and) first

namespace Document

variable {ν : Type}

/-- Asks for an attribute and its value. -/
def equality (d : Document ν) (a : ν) : Expr :=
  .binary .eq (.axis .attribute .attribute none (some (d.baseName a))) (.string (d.value a))

/-- The text of a sibling without the blanks around it. -/
def said (d : Document ν) (sibling : ν) : List Char := Text.trim (d.value sibling).toList

/-- Asks for a text or an element among the siblings on one side. -/
def siblingTest (d : Document ν) (along : Axis) (sibling : ν) : Option Expr :=
  match d.kind sibling with
  | .text =>
    if d.said sibling = [] then none
    else
      let contains := .function none "contains" [.axis .self .all none none, .string (String.ofList (d.said sibling))]
      some (.predicate (.axis along .text none none) contains along.isReverse)
  | .element =>
    let test := .axis along .element none (some (d.baseName sibling))
    match (d.attributes sibling).map d.equality with
    | [] => some test
    | first :: others => some (.predicate test (.conjunction first others) along.isReverse)
  | _ => none

/-- The values that are written down when a sibling is mentioned. -/
def wording (d : Document ν) (sibling : ν) : List String :=
  match d.kind sibling with
  | .text => [String.ofList (d.said sibling)]
  | .element => (d.attributes sibling).map d.value
  | _ => []

end Document

namespace Xml.XmlDocument

/-- Asks the parent of a text whether it is the first of the given elements, and whether that stands below the others.
The nearest siblings come first on both sides. -/
def place (x : XmlDocument) : List Ref → Option Expr
  | [] => none
  | n :: above =>
    let name := .binary .eq (.function none "name" []) (.string (x.document.baseName n))
    let tests := (x.attributes n).map x.document.equality ++
      (preceding n).filterMap (x.document.siblingTest .precedingSibling) ++
      (x.following n).filterMap (x.document.siblingTest .followingSibling)
    some (.predicate (.axis .parent .all none none) (.conjunction name (tests ++ (place x above).toList)) false)

/-- Any text, or text in the place of the first of the given elements. -/
def placedText (x : XmlDocument) (elements : List Ref) : Expr :=
  let text := .axis .child .text none none
  let step :=
    match x.place elements with
    | none => text
    | some p => .predicate text p false
  .join (.axis .root .all none none) (.join (.axis .descendantOrSelf .all none none) step)

/-- The values that are written down about an element: those of its attributes, and what is said of its siblings. -/
def written (x : XmlDocument) (n : Ref) : List String :=
  (x.attributes n).map x.value ++ (preceding n ++ x.following n).flatMap x.document.wording

end Xml.XmlDocument

namespace Path.Reads

/-- Tests joined by `and` are read from the left. -/
theorem conjunction {parts : List String} {ts : List Expr}
    (h : List.Forall₂ (fun part t => Reads (.level 3) part.toList t) parts ts) :
    ∀ {part : String} {t : Expr}, Reads (.level 2) part.toList t →
      Reads (.level 2) (" and ".intercalate (part :: parts)).toList (.conjunction t ts) := by
  induction h with
  | nil =>
    intro part t ht
    rw [String.intercalate_singleton]
    exact ht
  | @cons second u parts ts hsecond _ ih =>
    intro part t ht
    have joined : Reads (.level 2) (part ++ " and " ++ second).toList (.binary .and t u) := by
      rw [String.toList_append, String.toList_append, List.append_assoc]
      exact ht.and hsecond
    exact ih joined

end Path.Reads

namespace Document

variable {ν : Type} {d : Document ν}

theorem reads_equality {a : ν} (hn : Text.isName (d.baseName a).toList = true) (hv : '\'' ∉ (d.value a).toList) :
    Reads (.level 3) (d.attributeTest a).toList (d.equality a) := by
  have chars : (d.attributeTest a).toList =
      ('@' :: (d.baseName a).toList) ++ '=' :: ('\'' :: ((d.value a).toList ++ ['\''])) := by
    simp [attributeTest, String.toList_append]
  have name := (Reads.name .attribute hn).mono fun _ hd => .test hd
  have equals := (Reads.step (n := 3) (by omega) name.attributeStep).equals (.primary (by omega) (.quoted hv))
  rw [String.ofList_toList, String.ofList_toList] at equals
  rw [chars]
  exact equals

/-- The elements and attributes of the document have names. -/
structure Named (d : Document ν) : Prop where
  element : ∀ {n : ν}, d.kind n = .element → Text.isName (d.baseName n).toList = true
  isName : ∀ {n a : ν}, a ∈ d.attributes n → Text.isName (d.baseName a).toList = true

theorem Named.equalities (h : d.Named) {n : ν} (hv : ∀ v ∈ (d.attributes n).map d.value, '\'' ∉ v.toList) :
    List.Forall₂ (fun part t => Reads (.level 3) part.toList t) ((d.attributes n).map d.attributeTest)
      ((d.attributes n).map d.equality) := by
  rw [List.forall₂_map_left_iff, List.forall₂_map_right_iff, List.forall₂_same]
  intro a ha
  exact reads_equality (h.isName ha) (hv _ (List.mem_map_of_mem ha))

/-- An axis along which siblings are asked for, and its name. -/
structure Side (along : Axis) (side : String) : Prop where
  name : Text.isName side.toList = true
  axis : Axis.ofName? side = some along
  keyword : Munch.keyword? side.toList = none
  kind : along.principalKind = .element

theorem Side.preceding : Side .precedingSibling "preceding-sibling" := by constructor <;> decide

theorem Side.following : Side .followingSibling "following-sibling" := by constructor <;> decide

variable {along : Axis} {side : String}

theorem Side.reads (hs : Side along side) {test : String} {t : Expr} (h : Reads (.tested along) test.toList t) :
    Reads (.level 3) (side ++ "::" ++ test).toList t := by
  have chars : (side ++ "::" ++ test).toList = side.toList ++ ':' :: ':' :: test.toList := by
    simp [String.toList_append]
  have axis : Axis.ofName? (String.ofList side.toList) = some along := by rw [String.ofList_toList, hs.axis]
  rw [chars]
  exact .step (by omega) (.along hs.name axis hs.keyword h)

/-- The test for a text with some words in it. -/
theorem reads_contains {words : List Char} (hw : '\'' ∉ words) :
    Reads (.tested along) ("text()[contains(.,'" ++ String.ofList words ++ "')]").toList
      (.predicate (.axis along .text none none)
        (.function none "contains" [.axis .self .all none none, .string (String.ofList words)]) along.isReverse) := by
  have chars : ("text()[contains(.,'" ++ String.ofList words ++ "')]").toList = ("text".toList ++ ['(', ')']) ++
      '[' :: (("contains".toList ++ '(' :: (['.'] ++ ',' :: (('\'' :: (words ++ ['\''])) ++ [')']))) ++ [']']) := by
    simp [String.toList_append]
  have text : Reads (.tested along) ("text".toList ++ ['(', ')']) (.axis along .text none none) :=
    (Reads.nodeType along (by decide) rfl).mono fun _ hd => .test hd
  have contains := Reads.callWith (w := "contains".toList) (by decide) (by decide) (Reads.step (by omega) .dot).fills
    (Reads.primary (by omega) (.quoted hw)).fills
  rw [chars]
  exact text.predicate (Reads.primary (by omega) contains).fills

/-- **A sibling that is mentioned** is asked for by the test that it stands for. -/
theorem Named.reads_mention (h : d.Named) (hs : Side along side) {n : ν} (hw : ∀ v ∈ d.wording n, '\'' ∉ v.toList) :
    (d.mention n = none ∧ d.siblingTest along n = none) ∨
      ∃ test t, d.mention n = some test ∧ d.siblingTest along n = some t ∧
        Reads (.level 3) (side ++ "::" ++ test).toList t := by
  unfold mention siblingTest
  cases hk : d.kind n with
  | text =>
    have words : '\'' ∉ d.said n := by
      simpa [wording, hk] using hw
    dsimp only
    by_cases hsaid : d.said n = []
    · left
      have blank : (Text.trim (d.value n).toList).isEmpty = true := by
        rw [← said, hsaid]
        rfl
      rw [if_pos blank, if_pos hsaid]
      exact ⟨rfl, rfl⟩
    · right
      have words' : ¬ (Text.trim (d.value n).toList).isEmpty = true := by
        rw [← said, List.isEmpty_iff]
        exact hsaid
      rw [if_neg words', if_neg hsaid]
      exact ⟨_, _, rfl, rfl, hs.reads (reads_contains words)⟩
  | element =>
    right
    have values : ∀ v ∈ (d.attributes n).map d.value, '\'' ∉ v.toList := by
      simpa only [wording, hk] using hw
    have name : Reads (.tested along) (d.baseName n).toList (.axis along .element none (some (d.baseName n))) := by
      have := Reads.name along (h.element hk)
      rw [hs.kind, String.ofList_toList] at this
      exact this.mono fun _ hd => .test hd
    have equalities := h.equalities values
    dsimp only
    cases htests : (d.attributes n).map d.attributeTest with
    | nil =>
      rw [htests] at equalities
      rw [List.forall₂_nil_left_iff.1 equalities]
      exact ⟨_, _, rfl, rfl, hs.reads name⟩
    | cons part parts =>
      rw [htests] at equalities
      obtain ⟨t, ts, hfirst, hothers, hts⟩ := List.forall₂_cons_left_iff.1 equalities
      rw [hts]
      have inside := Reads.conjunction hothers (hfirst.loosen (by omega) (by omega))
      have chars : (d.baseName n ++ "[" ++ " and ".intercalate (part :: parts) ++ "]").toList =
          (d.baseName n).toList ++ '[' :: ((" and ".intercalate (part :: parts)).toList ++ [']']) := by
        simp [String.toList_append]
      have test := name.predicate (inside.loosen (by omega) (by omega)).fills
      rw [← chars] at test
      exact ⟨_, _, rfl, rfl, hs.reads test⟩
  | _ => exact .inl ⟨rfl, rfl⟩

theorem Named.reads_mentions (h : d.Named) (hs : Side along side) : ∀ {ns : List ν},
    (∀ v ∈ ns.flatMap d.wording, '\'' ∉ v.toList) →
      List.Forall₂ (fun part t => Reads (.level 3) part.toList t) ((ns.filterMap d.mention).map (side ++ "::" ++ ·))
        (ns.filterMap (d.siblingTest along))
  | [], _ => .nil
  | n :: ns, hw => by
    rw [List.flatMap_cons] at hw
    have others := h.reads_mentions hs fun v (hv : v ∈ ns.flatMap d.wording) => hw v (List.mem_append_right _ hv)
    rcases h.reads_mention hs fun v hv => hw v (List.mem_append_left _ hv) with ⟨hm, ht⟩ | ⟨test, t, hm, ht, hreads⟩
    · rw [List.filterMap_cons_none hm, List.filterMap_cons_none ht]
      exact others
    · rw [List.filterMap_cons_some hm, List.filterMap_cons_some ht, List.map_cons]
      exact .cons hreads others

end Document

namespace Xml.XmlDocument

variable {x : XmlDocument}

theorem Named.document (h : x.Named) : x.document.Named := ⟨h.isName_element, h.isName_attribute⟩

/-- What is asked of an element besides its name. -/
def tests (x : XmlDocument) (n : Ref) : List String :=
  (x.attributes n).map x.document.attributeTest ++
    ((preceding n).filterMap x.document.mention).map ("preceding-sibling" ++ "::" ++ ·) ++
    ((x.following n).filterMap x.document.mention).map ("following-sibling" ++ "::" ++ ·)

theorem conditions_eq {n : Ref} (hn : x.kind n = .element) :
    x.document.conditions n = ("name()='" ++ x.document.baseName n ++ "'") :: x.tests n := by
  rw [Document.conditions, siblings_eq hn]
  rfl

theorem Named.reads_tests (h : x.Named) {n : Ref} (hw : ∀ v ∈ x.written n, '\'' ∉ v.toList) :
    List.Forall₂ (fun part t => Reads (.level 3) part.toList t) (x.tests n)
      ((x.attributes n).map x.document.equality ++ (preceding n).filterMap (x.document.siblingTest .precedingSibling) ++
        (x.following n).filterMap (x.document.siblingTest .followingSibling)) := by
  unfold written at hw
  rw [List.flatMap_append] at hw
  have equalities := h.document.equalities (n := n) fun v hv => hw v (List.mem_append_left _ hv)
  have before := h.document.reads_mentions .preceding fun v (hv : v ∈ (preceding n).flatMap _) =>
    hw v (List.mem_append_right _ (List.mem_append_left _ hv))
  have after := h.document.reads_mentions .following fun v (hv : v ∈ (x.following n).flatMap _) =>
    hw v (List.mem_append_right _ (List.mem_append_right _ hv))
  exact List.rel_append (List.rel_append equalities before) after

theorem Named.reads_name (h : x.Named) {n : Ref} (hn : x.kind n = .element) :
    Reads (.level 2) ("name()='" ++ x.document.baseName n ++ "'").toList
      (.binary .eq (.function none "name" []) (.string (x.document.baseName n))) := by
  have chars : ("name()='" ++ x.document.baseName n ++ "'").toList =
      ("name".toList ++ ['(', ')']) ++ '=' :: ('\'' :: ((x.document.baseName n).toList ++ ['\''])) := by
    simp [String.toList_append]
  have noQuote : '\'' ∉ (x.document.baseName n).toList := by
    intro hq
    have := Text.isNameChar_of_isName (h.isName_element hn) _ hq
    revert this
    decide
  have call : Reads .primary ("name".toList ++ ['(', ')']) (.function none "name" []) :=
    .call (by decide) (by decide)
  have equals := (Reads.primary (n := 3) (by omega) call).equals (.primary (by omega) (.quoted noQuote))
  rw [String.ofList_toList] at equals
  rw [chars]
  exact equals.loosen (by omega) (by omega)

/-- A test of the parent of a text. -/
theorem reads_parent {inside : String} {c : Expr} (h : Reads .expr inside.toList c) :
    Reads (.level 3) ("parent::node()[" ++ inside ++ "]").toList
      (.predicate (.axis .parent .all none none) c false) := by
  have chars : ("parent::node()[" ++ inside ++ "]").toList =
      "parent".toList ++ ':' :: ':' :: (("node".toList ++ ['(', ')']) ++ '[' :: (inside.toList ++ [']'])) := by
    simp [String.toList_append]
  have node : Reads (.tested .parent) ("node".toList ++ ['(', ')']) (.axis .parent .all none none) :=
    (Reads.nodeType .parent (by decide) rfl).mono fun _ hd => .test hd
  rw [chars]
  exact .step (by omega) (.along (by decide) rfl (by decide) (node.predicate h.fills))

/-- **What is said about elements one above the other** asks for their place. -/
theorem Named.reads_place (h : x.Named) : ∀ {ns : List Ref}, (∀ n ∈ ns, x.kind n = .element) →
    (∀ n ∈ ns, ∀ v ∈ x.written n, '\'' ∉ v.toList) → ∀ {p : Expr}, x.place ns = some p →
      Reads (.level 3) (x.document.nested ns).toList p
  | [], _, _, _, hp => by cases hp
  | n :: above, helements, hw, p, hp => by
    cases hp
    have element := helements n List.mem_cons_self
    have further : List.Forall₂ (fun part t => Reads (.level 3) part.toList t)
        (if above.isEmpty then [] else [x.document.nested above]) (x.place above).toList := by
      have others {p : Expr} (hp : x.place above = some p) : Reads (.level 3) (x.document.nested above).toList p :=
        h.reads_place (fun m hm => helements m (List.mem_cons_of_mem n hm))
          (fun m hm => hw m (List.mem_cons_of_mem n hm)) hp
      cases above with
      | nil => exact .nil
      | cons m ms => exact .cons (others rfl) .nil
    have all := List.rel_append (h.reads_tests (hw n List.mem_cons_self)) further
    have inside := Reads.conjunction all (h.reads_name element)
    rw [Document.nested_cons, conditions_eq element]
    exact reads_parent (inside.loosen (by omega) (by omega))

end Xml.XmlDocument

namespace Reversal

variable {x : XmlDocument}

theorem reads_text : Reads (.tested .child) ("text".toList ++ ['(', ')']) (.axis .child .text none none) :=
  (Reads.nodeType .child (by decide) rfl).mono fun _ hd => .test hd

/-- A step from anywhere in the document. -/
theorem parse_anywhere {s : String} {t : Expr} (h : Reads (.tested .child) s.toList t) :
    Expr.parse ("//" ++ s) = .ok (.slashSlash (.whole .root) t) := by
  have relative : Reads .relative s.toList t := h.mono fun _ hd => .step (.child hd)
  have chars : ("//" ++ s).toList = '/' :: '/' :: s.toList := by
    simp [String.toList_append]
  have path : Reads .path ("//" ++ s).toList (.slashSlash (.whole .root) t) := by
    rw [chars]
    exact relative.anywhere.mono fun _ hd => .location hd
  exact (path.path (by omega)).parse

/-- **The pattern of a rule parses** to the place that it was made for, if no value with an apostrophe is written
down. -/
theorem parse_textPattern {text : String} (hx : XmlDocument.parse? text = some x) (wrapper : Option String → Bool)
    (source boundary : Ref)
    (hw : ∀ n ∈ x.described wrapper source boundary, ∀ v ∈ x.written n, '\'' ∉ v.toList) :
    Expr.parse (textPattern (x.document.surroundings wrapper source boundary)) =
      .ok (x.placedText (x.described wrapper source boundary)) := by
  have named := XmlDocument.named_parse? hx
  have elements : ∀ n ∈ x.described wrapper source boundary, x.kind n = .element := by
    intro n hn
    have := (List.mem_filter.1 hn).2
    exact (of_decide_eq_true this).1
  rw [XmlDocument.surroundings_eq]
  cases hd : x.described wrapper source boundary with
  | nil => exact parse_anywhere (s := "text()") reads_text
  | cons n above =>
    rw [hd] at elements hw
    have place := named.reads_place elements hw rfl
    have chars : ("text()[" ++ x.document.nested (n :: above) ++ "]").toList =
        ("text".toList ++ ['(', ')']) ++ '[' :: ((x.document.nested (n :: above)).toList ++ [']']) := by
      simp [String.toList_append]
    have placed := reads_text.predicate (place.loosen (m := 1) (by omega) (by omega)).fills
    rw [← chars] at placed
    have something : x.document.nested (n :: above) ≠ "" := by
      intro h
      have := congrArg String.toList h
      rw [Document.nested_cons, String.toList_append, String.toList_append] at this
      cases this
    have pattern : textPattern (x.document.nested (n :: above)) =
        "//" ++ ("text()[" ++ x.document.nested (n :: above) ++ "]") := by
      rw [textPattern, if_neg something]
      simp only [← String.append_assoc]
      rfl
    rw [pattern]
    exact parse_anywhere placed

/-- A document whose names mean something in expressions as well. -/
def keywords : String :=
  "<or and='1'><text mod='2'/> div <self><b/></self><child/></or>"

set_option maxRecDepth 2000 in
theorem parse_textPattern_keywords : ∃ x, XmlDocument.parse? keywords = some x ∧
    x.document.surroundings (· == some Instruction.uri) (.node [0, 2, 0]) (.node [0]) =
      "parent::node()[name()='b' and parent::node()[name()='self' and preceding-sibling::text()[contains(.,'div')] and " ++
        "preceding-sibling::text[@mod='2'] and following-sibling::child]]" ∧
    (∀ n ∈ x.described (· == some Instruction.uri) (.node [0, 2, 0]) (.node [0]), ∀ v ∈ x.written n, '\'' ∉ v.toList) ∧
    Expr.parse (textPattern (x.document.surroundings (· == some Instruction.uri) (.node [0, 2, 0]) (.node [0]))) =
      .ok (x.placedText (x.described (· == some Instruction.uri) (.node [0, 2, 0]) (.node [0]))) := by
  have run : ((XmlDocument.parse? keywords).map fun x =>
      (x.document.surroundings (· == some Instruction.uri) (.node [0, 2, 0]) (.node [0]),
        decide (∀ n ∈ x.described (· == some Instruction.uri) (.node [0, 2, 0]) (.node [0]),
          ∀ v ∈ x.written n, '\'' ∉ v.toList))) =
      some ("parent::node()[name()='b' and parent::node()[name()='self' and " ++
        "preceding-sibling::text()[contains(.,'div')] and " ++
        "preceding-sibling::text[@mod='2'] and following-sibling::child]]", true) := by
    have chars : keywords.toList = _ := String.toList_ofList
    rw [XmlDocument.parse?, chars]
    decide +kernel
  obtain ⟨x, hx, hrun⟩ := Option.map_eq_some_iff.1 run
  obtain ⟨hsaid, hclean⟩ := Prod.mk.inj hrun
  have clean := of_decide_eq_true hclean
  exact ⟨x, hx, hsaid, clean, parse_textPattern hx _ _ _ clean⟩

end Reversal

end StylesheetReversal
