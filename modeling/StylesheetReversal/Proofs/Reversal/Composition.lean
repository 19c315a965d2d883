import StylesheetReversal.Proofs.Reversal.Blocks
import StylesheetReversal.Proofs.Xml.Content
/-!
# Templates are reversed one by one

What a template is reversed to depends on nothing else in the stylesheet: its rules are those of a stylesheet that has
no other template in it, nor anything else (`Reversal.ofDocument_composes`).
-/
namespace StylesheetReversal

open StylesheetReversal.Path StylesheetReversal.Xml

namespace Xml

/-- Takes away all children of an element except the one of number `i`. -/
def Node.only (i : Nat) : Node → Node
  | .element start tag cs => .element start tag cs[i]?.toList
  | n => n

/-- Takes away all siblings of a child of an outermost node. -/
def XmlDocument.only (x : XmlDocument) : Ref → XmlDocument
  | .node (i :: k :: _) => { x with nodes := x.nodes.modify k (Node.only i) }
  | _ => x

/-- What a document holds, wherever that stands in its text. -/
def XmlDocument.content (x : XmlDocument) : List Node := x.nodes.map Node.bare

end Xml

namespace Reversal

variable {s : Settings} {x y : XmlDocument}

/-! ## Templates that hold the same -/

section Shared

variable {a b : List Nat}

/-- The instructions of templates that hold the same stand in the same places. -/
theorem instructions_shared (h : Shared x a y b) : ∃ rs : List Ref,
    instructions s x (.node a) = rs.map (Ref.graft a) ∧ instructions s y (.node b) = rs.map (Ref.graft b) := by
  obtain ⟨rs, hx, hy⟩ := h.elementsIn
  have filters (base : String) : (isInstruction x base ∘ Ref.graft a) = (isInstruction y base ∘ Ref.graft b) :=
    funext fun r => h.isNamed Instruction.uri base r
  refine ⟨rs.filter (isInstruction x "value-of" ∘ Ref.graft a) ++
    if s.applyTemplates then rs.filter (isInstruction x "apply-templates" ∘ Ref.graft a) else [], ?_, ?_⟩
  · unfold instructions
    rw [hx]
    cases s.applyTemplates <;> simp [List.filter_map]
  · unfold instructions
    rw [hy, filters, filters]
    cases s.applyTemplates <;> simp [List.filter_map]

theorem path?_shared (h : Shared x a y b) : path? x (.node a) = path? y (.node b) := by
  rw [path?, path?, h.attributeValue?]

/-- **Templates that hold the same** have the same rules. -/
theorem rulesOf_shared (h : Shared x a y b) : rulesOf s x (.node a) = rulesOf s y (.node b) := by
  obtain ⟨rs, hx, hy⟩ := instructions_shared (s := s) h
  unfold rulesOf
  rw [path?_shared h, hx, hy]
  cases path? y (.node b) with
  | none => rfl
  | some path =>
    have same (r : Ref) : ruleOf s x (.node a) path (r.graft a) = ruleOf s y (.node b) path (r.graft b) := by
      rw [ruleOf, ruleOf, rulePattern, rulePattern, h.surroundings]
    simp [same]

theorem skippedOf_shared (h : Shared x a y b) : skippedOf s x (.node a) = skippedOf s y (.node b) := by
  obtain ⟨rs, hx, hy⟩ := instructions_shared (s := s) h
  unfold skippedOf
  rw [path?_shared h, hx, hy, List.length_map, List.length_map]

end Shared

/-! ## Stylesheets with one template -/

/-- The outermost node of a stylesheet is an element. -/
theorem outermost_of_isStylesheet (hx : isStylesheet x = true) : ∃ k start tag cs,
    x.nodes.findIdx? Node.isElement = some k ∧ x.nodes[k]? = some (.element start tag cs) := by
  have named : ∀ {uri base : String} {k : Nat}, x.isNamed uri base (.node [k]) = true →
      ∃ start tag cs, x.nodes[k]? = some (.element start tag cs) := by
    intro uri base k h
    rw [Shared.isNamed_node, XmlDocument.node?, XmlDocument.nodesAt] at h
    cases hn : x.nodes[k]? with
    | none => simp [hn] at h
    | some n =>
      cases n with
      | element start tag cs => exact ⟨start, tag, cs, rfl⟩
      | _ => simp [hn, Node.isNamed] at h
  have outermost : ∃ start tag cs,
      x.nodes[(x.nodes.findIdx? Node.isElement).getD 0]? = some (.element start tag cs) := by
    rw [isStylesheet, Bool.or_eq_true] at hx
    exact hx.elim named named
  obtain ⟨start, tag, cs, hn⟩ := outermost
  cases hk : x.nodes.findIdx? Node.isElement with
  | none =>
    have noElement := List.findIdx?_eq_none_iff.1 hk _ (List.mem_of_getElem? hn)
    cases noElement
  | some k =>
    rw [hk] at hn
    exact ⟨k, start, tag, cs, rfl, hn⟩

/-- Where the first element stands can be told from what a document holds. -/
theorem findIdx?_content (x : XmlDocument) : x.content.findIdx? Node.isElement = x.nodes.findIdx? Node.isElement := by
  rw [XmlDocument.content, List.findIdx?_map]
  exact congrArg (List.findIdx? · x.nodes) (funext Node.isElement_bare)

theorem findIdx?_only (x : XmlDocument) (i k : Nat) (up : List Nat) :
    (x.only (.node (i :: k :: up))).nodes.findIdx? Node.isElement = x.nodes.findIdx? Node.isElement := by
  have asked : ∀ ns : List Node, ns.findIdx? Node.isElement = (ns.map Node.isElement).findIdx? id := by
    intro ns
    rw [List.findIdx?_map]
    rfl
  have same : (x.only (.node (i :: k :: up))).nodes.map Node.isElement = x.nodes.map Node.isElement := by
    refine List.ext_getElem? fun j => ?_
    unfold XmlDocument.only
    rw [List.getElem?_map, List.getElem?_map, List.getElem?_modify]
    split
    · cases x.nodes[j]? with
      | none => rfl
      | some n => cases n <;> rfl
    · simp
  rw [asked, same, ← asked]

/-- **The stylesheet that one template is left in** has that template. -/
theorem templates_only {t : Ref} (hx : isStylesheet x = true) (ht : t ∈ templates x) (hy : y.content = (x.only t).content) :
    isStylesheet y = true ∧ ∃ a b, t = .node a ∧ templates y = [.node b] ∧ Shared x a y b := by
  obtain ⟨k, start, tag, cs, hk, hn⟩ := outermost_of_isStylesheet hx
  have outermost : x.outermost = .node [k] := by
    rw [XmlDocument.outermost, hk]
    rfl
  have children : x.nodesAt [k] = cs := by
    simp [XmlDocument.nodesAt, hn, Node.children]
  obtain ⟨hchild, hnamed⟩ := List.mem_filter.1 ht
  rw [outermost] at hchild
  obtain ⟨i, hi, rfl⟩ : ∃ i, i < cs.length ∧ t = .node [i, k] := by
    have := List.mem_map.1 (show t ∈ (List.range (x.nodesAt [k]).length).map fun i => .node [i, k] from hchild)
    rw [children] at this
    obtain ⟨i, hi, rfl⟩ := this
    exact ⟨i, List.mem_range.1 hi, rfl⟩
  have outermost' : y.outermost = .node [k] := by
    rw [XmlDocument.outermost, ← findIdx?_content, hy, findIdx?_content, findIdx?_only, hk]
    rfl
  have bare : y.nodes[k]?.map Node.bare = some (Node.element start tag [cs[i]]).bare := by
    have := congrArg (·[k]?) hy
    simp only [XmlDocument.content, XmlDocument.only, List.getElem?_map, List.getElem?_modify, hn] at this
    rw [this]
    simp [Node.only, List.getElem?_eq_getElem hi]
  obtain ⟨n, hn', hbare⟩ := Option.map_eq_some_iff.1 bare
  have children' : (y.nodesAt [k]).map Node.bare = [cs[i].bare] := by
    have := congrArg Node.children hbare
    rw [Node.children_bare, Node.children_bare] at this
    rw [XmlDocument.nodesAt, XmlDocument.nodesAt, hn']
    exact this
  have shared : Shared x [i, k] y [0, k] := by
    refine ⟨List.cons_ne_nil _ _, List.cons_ne_nil _ _, ?_⟩
    have first := congrArg (·[0]?) children'
    rw [List.getElem?_map] at first
    rw [XmlDocument.node?, XmlDocument.node?, children, List.getElem?_eq_getElem hi, first]
    rfl
  have stylesheet : ∀ base, isInstruction y base (.node [k]) = isInstruction x base (.node [k]) := by
    intro base
    unfold isInstruction
    rw [Shared.isNamed_node, Shared.isNamed_node, XmlDocument.node?, XmlDocument.node?, XmlDocument.nodesAt,
      XmlDocument.nodesAt, hn, hn', Option.map_some, Option.map_some, ← Node.isNamed_bare _ _ n, hbare]
    rfl
  refine ⟨?_, [i, k], [0, k], rfl, ?_, shared⟩
  · rw [isStylesheet, outermost] at hx
    rw [isStylesheet, outermost', stylesheet, stylesheet]
    exact hx
  · have one : (y.nodesAt [k]).length = 1 := by
      have := congrArg List.length children'
      simpa using this
    have template : isInstruction y "template" (.node [0, k]) = true :=
      (shared.isNamed Instruction.uri "template" (.node [])).symm.trans hnamed
    have only : y.document.children y.outermost = [.node [0, k]] := by
      rw [outermost']
      change (List.range (y.nodesAt [k]).length).map _ = _
      rw [one]
      rfl
    rw [templates, only, List.filter_cons, if_pos template]
    rfl

/-! ## All templates -/

theorem isStylesheet_of_ok {p : Progress} (h : ofDocument s x = .ok p) : isStylesheet x = true := by
  unfold ofDocument at h
  split at h
  · assumption
  · cases h

/-- The reversal of a stylesheet with a single template. -/
theorem ofDocument_single {t : Ref} (hx : isStylesheet x = true) (ht : templates x = [t]) : ∃ q, ofDocument s x = .ok q ∧
    q.draft = sheet (rulesOf s x t) ∧ q.tally = tallyOf (rulesOf s x t) (skippedOf s x t) := by
  have rules : allRules s x = rulesOf s x t := by simp [allRules, ht]
  have skipped : allSkipped s x = skippedOf s x t := by simp [allSkipped, ht]
  exact ⟨_, ofDocument_eq hx, congrArg sheet rules, congrArg₂ tallyOf rules skipped⟩

/-- The rules of all templates are counted template by template. -/
theorem countP_allRules (q : Rule → Bool) :
    (allRules s x).countP q = ((templates x).map fun t => (rulesOf s x t).countP q).sum := by
  rw [allRules, List.countP_flatMap, List.map_reverse, List.sum_reverse]
  rfl

/-- The stylesheet that is written for some rules. -/
def stylesheetOf (rules : List Element) : Element :=
  .mk "xsl:stylesheet" [("xmlns:xsl", Instruction.uri), ("version", "1.0")] rules

/-- The reversal of a stylesheet is put together from rules and counts for each of its templates. -/
structure Composes (s : Settings) (x : XmlDocument) (p : Progress) (rules : Ref → List Element) (tally : Ref → Tally) :
    Prop where
  /-- A template has these rules and this count in every stylesheet that holds nothing else. -/
  alone : ∀ t ∈ templates x, ∀ y : XmlDocument, y.content = (x.only t).content → ∃ q, ofDocument s y = .ok q ∧
    q.draft.document = some (stylesheetOf (rules t)) ∧ q.tally = tally t
  /-- The rules of later templates come first. -/
  document : p.draft.document = some (stylesheetOf ((templates x).reverse.flatMap rules))
  reversed : p.tally.reversed = ((templates x).map fun t => (tally t).reversed).sum
  declined : p.tally.declined = ((templates x).map fun t => (tally t).declined).sum
  skipped : p.tally.skipped = ((templates x).map fun t => (tally t).skipped).sum
  /-- A template without a proper pattern has no rules. -/
  leftOut : ∀ t ∈ templates x, path? x t = none → rules t = []

/-- **A stylesheet is reversed template by template**: each has the rules and the count that it has in a stylesheet
from which everything else was taken away. -/
theorem ofDocument_composes {p : Progress} (h : ofDocument s x = .ok p) :
    ∃ (rules : Ref → List Element) (tally : Ref → Tally), Composes s x p rules tally := by
  have hx := isStylesheet_of_ok h
  rw [ofDocument_eq hx] at h
  cases h
  refine ⟨fun t => (rulesOf s x t).map Rule.element, fun t => tallyOf (rulesOf s x t) (skippedOf s x t), ?_⟩
  constructor
  · intro t ht y hy
    obtain ⟨hstylesheet, a, b, rfl, htemplates, shared⟩ := templates_only hx ht hy
    obtain ⟨q, hq, hdraft, htally⟩ := ofDocument_single hstylesheet htemplates
    refine ⟨q, hq, ?_, ?_⟩
    · rw [hdraft, ← rulesOf_shared shared]
      exact document_sheet _
    · rw [htally, ← rulesOf_shared shared, ← skippedOf_shared shared]
  · have document := document_sheet (allRules s x)
    rw [allRules, List.map_flatMap] at document
    exact document
  · exact countP_allRules _
  · exact countP_allRules _
  · rfl
  · intro t _ hpath
    simp [rulesOf, hpath]

/-- Two templates, one of them without a pattern, and something between them. -/
def twoTemplates : String :=
  "<xsl:stylesheet xmlns:xsl='http://www.w3.org/1999/XSL/Transform'><xsl:template><p><xsl:value-of/></p></xsl:template>" ++
    "<a/><xsl:template match='b'><q><xsl:value-of/></q></xsl:template></xsl:stylesheet>"

set_option maxRecDepth 2000 in
theorem ofDocument_composes_two : ∃ x p, XmlDocument.parse? twoTemplates = some x ∧ ofDocument .default x = .ok p ∧
    templates x = [.node [0, 0], .node [2, 0]] ∧ p.tally = ⟨1, 0, 1⟩ ∧
    ∃ (rules : Ref → List Element) (tally : Ref → Tally), Composes .default x p rules tally := by
  have run : ((XmlDocument.parse? twoTemplates).bind fun x => (ofDocument .default x).toOption.map fun p =>
      (templates x, p.tally)) = some ([.node [0, 0], .node [2, 0]], ⟨1, 0, 1⟩) := by
    -- only a text that is given by its characters is quick to take apart
    have chars : twoTemplates.toList = _ :=
      String.toList_append.trans (congr (congrArg HAppend.hAppend String.toList_ofList) String.toList_ofList)
    rw [XmlDocument.parse?, chars]
    decide +kernel
  obtain ⟨x, hx, hrun⟩ := Option.bind_eq_some_iff.1 run
  obtain ⟨p, hp, hpair⟩ := Option.map_eq_some_iff.1 hrun
  obtain ⟨htemplates, htally⟩ := Prod.mk.inj hpair
  have reversed := eq_ok_of_toOption hp
  exact ⟨x, p, hx, reversed, htemplates, htally, ofDocument_composes reversed⟩

end Reversal

end StylesheetReversal
