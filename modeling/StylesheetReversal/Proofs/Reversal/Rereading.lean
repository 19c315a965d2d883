import StylesheetReversal.Proofs.Reversal.Readable
import StylesheetReversal.Proofs.Xml.Content
import StylesheetReversal.Proofs.Xml.NamedNodes
/-!
# The patterns of a reversal that is read

The pattern of a rule quotes texts and attributes of the stylesheet.  It is written as the value of an attribute, so the
tabs and line ends in it are read back as spaces (`reread`), and all the rest is read back as it is.  So the patterns
survive exactly if there is no tab and no line end in them (`Reversal.patterns_survive_iff`).
-/
namespace StylesheetReversal

namespace Xml

/-! ## Values that survive -/

/-- A character that is read back as a space from the value of an attribute. -/
def isLost (c : Char) : Bool := c = '\t' || c = '\n' || c = '\r'

theorem isLost_iff {c : Char} : isLost c = true ↔ c = '\t' ∨ c = '\n' ∨ c = '\r' := by
  simp [isLost, or_assoc]

theorem kept_of_mem_spaced : ∀ {value : List Char}, ∀ c ∈ spaced (value.map .plain), isLost c = false
  | [] => nofun
  | d :: value => by
    have space : isLost ' ' = false := by decide
    by_cases hpair : d = '\r' ∧ (value.map Written.plain).head? = some (.plain '\n')
    · obtain ⟨rfl, hn⟩ := hpair
      cases value with
      | nil => cases hn
      | cons e value =>
        cases hn
        exact List.forall_mem_cons.2 ⟨space, kept_of_mem_spaced⟩
    · rw [List.map_cons, spaced_plain hpair]
      refine List.forall_mem_cons.2 ⟨?_, kept_of_mem_spaced⟩
      split
      · exact space
      · next hd => exact Bool.eq_false_iff.2 (hd ∘ isLost_iff.1)

/-- **A value survives** exactly if there is no tab and no line end in it. -/
theorem normalized_eq_self_iff {value : List Char} : normalized value = value ↔ ∀ c ∈ value, isLost c = false := by
  constructor
  · intro same c hc
    rw [← same] at hc
    exact kept_of_mem_spaced c hc
  · intro kept
    induction value with
    | nil => rfl
    | cons c value ih =>
      obtain ⟨hc, hvalue⟩ := List.forall_mem_cons.1 kept
      have stays : ¬ (c = '\t' ∨ c = '\n' ∨ c = '\r') := fun h => Bool.eq_false_iff.1 hc (isLost_iff.2 h)
      have rest : spaced (value.map .plain) = value := ih hvalue
      rw [normalized, List.map_cons, spaced_plain fun h => stays (.inr (.inr h.1)), if_neg stays, rest]

/-- What a value is read back as. -/
def reread (value : String) : String := String.ofList (normalized value.toList)

theorem reread_eq_self_iff {value : String} : reread value = value ↔ ∀ c ∈ value.toList, isLost c = false := by
  rw [← normalized_eq_self_iff, reread, ← String.toList_inj, String.toList_ofList]

/-! ## Children of a name -/

/-- What is asked of members of a list by their number can be asked of themselves. -/
theorem map_filter_range {α β : Type} {p : α → Bool} {f : α → β} : ∀ {as : List α} {q : Nat → Bool} {g : Nat → β},
    (∀ i a, as[i]? = some a → q i = p a ∧ g i = f a) →
      ((List.range as.length).filter q).map g = (as.filter p).map f
  | [], _, _, _ => rfl
  | a :: as, q, g, h => by
    obtain ⟨hq, hg⟩ := h 0 a rfl
    have rest : ((List.range as.length).filter (q ∘ Nat.succ)).map (g ∘ Nat.succ) = (as.filter p).map f :=
      map_filter_range fun i b hb => h (i + 1) b hb
    rw [List.length_cons, List.range_succ_eq_map, List.filter_cons, List.filter_cons, hq, List.filter_map]
    split
    · rw [List.map_cons, List.map_cons, List.map_map, rest, hg]
    · rw [List.map_map, rest]

/-- The value of the first attribute of this name. -/
def Node.attributeValue? (base : String) (n : Node) : Option String :=
  (n.attributes.find? (·.base = base)).map Attribute.value

/-- The values of an attribute of all children of a name. -/
theorem XmlDocument.map_filter_children (d : XmlDocument) (address : List Nat) (uri base key : String) :
    ((d.children (.node address)).filter (d.isNamed uri base)).map (d.attributeValue? key) =
      ((d.nodesAt address).filter (Node.isNamed uri base)).map (Node.attributeValue? key) := by
  rw [children, List.filter_map, List.map_map]
  refine map_filter_range fun i n hn => ?_
  have here : d.node? (i :: address) = some n := hn
  constructor
  · rw [Function.comp_apply, Shared.isNamed_node, here]
    rfl
  · rw [Function.comp_apply, XmlDocument.attributeValue?, here]
    rfl

end Xml

namespace Reversal

open StylesheetReversal.Path StylesheetReversal.Xml

/-! ## Rules that are read -/

variable {indent : Option Nat}

/-- A rule is read as a template with its pattern. -/
theorem Rule.shown {r : Rule} {n : Node} (h : Shows indent r.element n) (hn : n.Named) :
    n.isNamed Instruction.uri "template" = true ∧ n.attributeValue? "match" = some (reread r.pattern) := by
  unfold Rule.element at h
  cases h with
  | @element _ _ _ start tag nodes q hq hdisplay huri hattributes _ =>
    cases hn with
    | element htag _ =>
      have base : q.base = tag.base := by
        rw [Node.name, Option.some.injEq] at hq
        rw [← hq]
      have value : Node.attributeValue? "match" (.element start tag nodes) = some (reread r.pattern) := by
        rw [Node.attributeValue?, Node.attributes, hattributes]
        rfl
      rw [QName.display] at hdisplay
      rcases huri with ⟨hnone, -⟩ | ⟨hsome, huri⟩
      · -- there is no colon in the name of an element
        rw [hnone] at hdisplay
        dsimp only at hdisplay
        have name := htag.base
        rw [← base, hdisplay] at name
        exact absurd name (by decide)
      · rw [hsome, base] at hdisplay
        dsimp only at hdisplay
        have template : tag.base = "template" := by
          rw [← String.toList_inj] at hdisplay ⊢
          simpa using hdisplay
        refine ⟨?_, value⟩
        rw [Node.isNamed, template, huri]
        rfl

/-- All rules are read, one after another, and no other templates. -/
theorem shown_rules : ∀ {rules : List Rule} {nodes : List Node}, ShowsAll indent (rules.map Rule.element) nodes →
    (∀ n ∈ nodes, n.Named) → (nodes.filter (Node.isNamed Instruction.uri "template")).map (Node.attributeValue? "match") =
      rules.map fun r => some (reread r.pattern) := by
  intro rules nodes
  induction nodes generalizing rules with
  | nil =>
    intro h _
    cases rules with
    | nil => rfl
    | cons r rules => cases h
  | cons n nodes ih =>
    intro h hnamed
    obtain ⟨hn, hnodes⟩ := List.forall_mem_cons.1 hnamed
    generalize hes : rules.map Rule.element = es at h
    cases h with
    | cons hfirst hrest =>
      cases rules with
      | nil => cases hes
      | cons r rules =>
        cases hes
        obtain ⟨template, value⟩ := Rule.shown hfirst hn
        rw [List.filter_cons_of_pos template, List.map_cons, List.map_cons, value, ih hrest hnodes]
    | space _ _ hrest =>
      subst hes
      exact ih hrest hnodes

section Rules

variable {s : Settings} {x y : XmlDocument}

/-- What the rules of a template match: one pattern for every instruction, unless the template's own is missing or
wrong. -/
def patternsOf (s : Settings) (x : XmlDocument) (template : Ref) : List String :=
  if path? x template = none then []
  else
    (writers s x template).map fun i =>
      let place := x.document.surroundings (· == some s.wrapperUri) i template
      if place = "" then "//text()" else "//text()[" ++ place ++ "]"

/-- The patterns of the rules that a stylesheet is reversed to, in their order. -/
def patterns (s : Settings) (x : XmlDocument) : List String := (templates x).reverse.flatMap (patternsOf s x)

theorem patternsOf_eq (s : Settings) (x : XmlDocument) (t : Ref) : patternsOf s x t = (rulesOf s x t).map Rule.pattern := by
  unfold patternsOf rulesOf
  rw [instructions_eq]
  cases path? x t with
  | none => rfl
  | some path =>
    rw [if_neg (Option.some_ne_none path), List.map_map]
    rfl

theorem patterns_eq (s : Settings) (x : XmlDocument) : patterns s x = (allRules s x).map Rule.pattern := by
  rw [patterns, allRules, List.map_flatMap, funext (patternsOf_eq s x)]

/-- The patterns of a reversal that was read. -/
theorem patterns_read {stylesheet : String} {r : Reversal} (hroot : Text.isName s.rootName.toList = true)
    (hx : XmlDocument.parse? stylesheet = some x) (h : reverse s stylesheet = .ok r)
    (hy : XmlDocument.parse? r.xml = some y) :
    (templates y).map (y.attributeValue? "match") = (patterns s x).map fun p => some (reread p) := by
  have readable := (isSome_parse?_xml hroot hx h).1 (by rw [hy]; rfl)
  have writable := writable_allRules (s := s) (XmlDocument.proper_parse? hx) hroot
  have fit := writable.fit ((known_stylesheet_iff (allRules s x)).2 readable)
  obtain ⟨x', hx', -, hxml, -⟩ := reverse_ok h
  cases hx.symm.trans hx'
  obtain ⟨y', node, hy', hnodes, hshows⟩ := Element.parse?_writeDocument fit (s.indent.map UInt64.toNat)
  rw [hxml, write_sheet, hy', Option.some.injEq] at hy
  subst hy
  have named : node.Named := XmlDocument.named_parse? hy' node (hnodes ▸ List.mem_singleton_self node)
  cases hshows with
  | @element _ _ _ start tag nodes q _ _ _ _ hchildren =>
    have outermost : y'.outermost = .node [0] := by
      rw [XmlDocument.outermost, hnodes]
      rfl
    have inside : y'.nodesAt [0] = nodes := by
      rw [XmlDocument.nodesAt, XmlDocument.nodesAt, hnodes]
      rfl
    have read := y'.map_filter_children [0] Instruction.uri "template" "match"
    rw [inside, shown_rules hchildren named.children] at read
    rw [templates, outermost, patterns_eq, List.map_map]
    exact read

end Rules

/-! ## Reversals -/

/-- **The patterns of a reversal are read back** with spaces for the tabs and line ends in them; all of them survive
exactly if there are none. -/
theorem patterns_survive_iff {stylesheet : String} {r : Reversal} {y : XmlDocument} (h : reverse .default stylesheet = .ok r)
    (hy : XmlDocument.parse? r.xml = some y) : ∃ x, XmlDocument.parse? stylesheet = some x ∧
      (templates y).map (y.attributeValue? "match") = (patterns .default x).map (fun p => some (reread p)) ∧
      ((templates y).map (y.attributeValue? "match") = (patterns .default x).map some ↔
        ∀ p ∈ patterns .default x, ∀ c ∈ p.toList, isLost c = false) := by
  obtain ⟨x, hx, -⟩ := reverse_ok h
  have read := patterns_read (by decide) hx h hy
  refine ⟨x, hx, read, ?_⟩
  rw [read, List.map_inj_left]
  refine forall₂_congr fun p _ => ?_
  rw [Option.some.injEq, reread_eq_self_iff]

/-- A text of two lines stands in front of what is written. -/
def twoLines : String :=
  "<xsl:stylesheet xmlns:xsl='http://www.w3.org/1999/XSL/Transform'>" ++
    "<xsl:template match='a'>x\ny<p><xsl:value-of/></p></xsl:template></xsl:stylesheet>"

set_option maxRecDepth 2000 in
/-- It is reversed, and the reversal can be read. -/
theorem twoLines_readable : ∃ x r y, XmlDocument.parse? twoLines = some x ∧ reverse .default twoLines = .ok r ∧
    XmlDocument.parse? r.xml = some y ∧ patterns .default x =
      ["//text()[parent::node()[name()='p' and preceding-sibling::text()[contains(.,'x\ny')]]]"] := by
  -- only a text that is given by its characters is quick to take apart
  have chars : twoLines.toList = _ :=
    String.toList_append.trans (congr (congrArg HAppend.hAppend String.toList_ofList) String.toList_ofList)
  have run : (reverse .default twoLines).toOption.map Reversal.tally = some ⟨1, 0, 0⟩ := by
    rw [reverse, XmlDocument.parse?, chars]
    decide +kernel
  have rules : (XmlDocument.parse? twoLines).map (allRules .default) = some
      [⟨"//text()[parent::node()[name()='p' and preceding-sibling::text()[contains(.,'x\ny')]]]", ["a"]⟩] := by
    rw [XmlDocument.parse?, chars]
    decide +kernel
  obtain ⟨r, hr, -⟩ := Option.map_eq_some_iff.1 run
  obtain ⟨x, hx, hrules⟩ := Option.map_eq_some_iff.1 rules
  have reversed := eq_ok_of_toOption hr
  have known : ∀ rule ∈ allRules .default x, ∀ name ∈ rule.names, Known name := by
    rw [hrules]
    decide
  obtain ⟨y, hy⟩ := Option.isSome_iff_exists.1 ((isSome_parse?_xml (by decide) hx reversed).2 known)
  refine ⟨x, r, y, hx, reversed, hy, ?_⟩
  rw [patterns_eq, hrules]
  rfl

theorem patterns_survive_iff_twoLines : ∃ r y, reverse .default twoLines = .ok r ∧ XmlDocument.parse? r.xml = some y ∧
    ∃ x, XmlDocument.parse? twoLines = some x ∧
      (templates y).map (y.attributeValue? "match") = (patterns .default x).map (fun p => some (reread p)) ∧
      ((templates y).map (y.attributeValue? "match") = (patterns .default x).map some ↔
        ∀ p ∈ patterns .default x, ∀ c ∈ p.toList, isLost c = false) := by
  obtain ⟨_, r, y, -, reversed, hy, -⟩ := twoLines_readable
  exact ⟨r, y, reversed, hy, patterns_survive_iff reversed hy⟩

/-- The line end between the two lines does not survive. -/
theorem twoLines_lost : ∃ x r y, XmlDocument.parse? twoLines = some x ∧ reverse .default twoLines = .ok r ∧
    XmlDocument.parse? r.xml = some y ∧
      patterns .default x = ["//text()[parent::node()[name()='p' and preceding-sibling::text()[contains(.,'x\ny')]]]"] ∧
      (templates y).map (y.attributeValue? "match") =
        [some "//text()[parent::node()[name()='p' and preceding-sibling::text()[contains(.,'x y')]]]"] := by
  obtain ⟨x, r, y, hx, reversed, hy, hpatterns⟩ := twoLines_readable
  refine ⟨x, r, y, hx, reversed, hy, hpatterns, ?_⟩
  rw [patterns_read (by decide) hx reversed hy, hpatterns]
  decide +kernel

end Reversal

end StylesheetReversal
