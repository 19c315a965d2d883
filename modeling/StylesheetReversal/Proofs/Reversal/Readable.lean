import StylesheetReversal.Proofs.Reversal
import StylesheetReversal.Proofs.Reversal.Conservation
import StylesheetReversal.Proofs.Xml.Declared
/-!
# When a reversal can be read

The elements of a skeleton keep the qualifiers that the pattern has, but the only one that a reversal declares is that of
instructions.  So a reversal can be read exactly if no other qualifier is in the names of these elements
(`Reversal.reverse_readable_iff`).
-/
namespace StylesheetReversal.Reversal

open StylesheetReversal.Path StylesheetReversal.Xml

/-! ## Rules as elements -/

theorem names_nest : ∀ names : List String, (nest names).names = names ++ ["xsl:value-of"]
  | [] => rfl
  | name :: names => by
    rw [nest, Element.names, Element.namesOfAll, Element.namesOfAll, names_nest, List.append_nil, List.cons_append]

/-- Only the names of its skeleton can keep a rule from being read. -/
theorem Rule.known_iff (r : Rule) : (∀ name ∈ r.element.names, Known name) ↔ ∀ name ∈ r.names, Known name := by
  have template : Known "xsl:template" := by decide
  have value : Known "xsl:value-of" := by decide
  unfold Rule.element
  rw [Element.names, List.forall_mem_cons]
  split
  · next hnames => simp [hnames, Element.namesOfAll, template]
  · simp only [Element.namesOfAll, List.append_nil, names_nest, List.forall_mem_append, List.forall_mem_singleton]
    exact ⟨fun h => h.2.1, fun h => ⟨template, h, value⟩⟩

theorem writable_nest : ∀ {names : List String}, (∀ name ∈ names, IsWritten name) → (nest names).Writable
  | [], _ => .mk (isWritten_instruction "value-of" (by decide)) (.single fitAttribute_select)
    (List.forall_mem_nil _)
  | name :: names, h => by
    have inside := writable_nest fun n hn => h n (List.mem_cons_of_mem name hn)
    exact .mk (h name List.mem_cons_self) .nil (List.forall_mem_singleton.2 inside)

theorem Rule.writable_element {r : Rule} (hpattern : Proper r.pattern.toList) (hnames : ∀ name ∈ r.names, IsWritten name) :
    r.element.Writable := by
  refine .mk (isWritten_instruction "template" (by decide)) (.single (fitAttribute_match hpattern)) ?_
  split
  · exact List.forall_mem_nil _
  · exact List.forall_mem_singleton.2 (writable_nest hnames)

/-! ## The rules of a stylesheet -/

section Rules

variable {s : Settings} {x : XmlDocument}

/-- An element of this name is made for an instruction of a stylesheet: the skeleton of the template's pattern has it. -/
def Makes (s : Settings) (x : XmlDocument) (name : String) : Prop :=
  ∃ template ∈ templates x, writers s x template ≠ [] ∧ ∃ pattern path steps names,
    x.attributeValue? "match" template = some pattern ∧ Expr.parse pattern = .ok path ∧
      Skeleton.Joins steps path ∧ Skeleton.Elements s.rootName steps names ∧ name ∈ names

theorem mem_found {rootName name : String} {path : Expr} :
    name ∈ found rootName path ↔ ∃ names, Skeleton.names rootName path = .ok names ∧ name ∈ names := by
  unfold found
  cases Skeleton.names rootName path <;> simp

theorem mem_allRules {r : Rule} : r ∈ allRules s x ↔ ∃ template ∈ templates x, ∃ pattern path,
    x.attributeValue? "match" template = some pattern ∧ Expr.parse pattern = .ok path ∧
      ∃ instruction ∈ instructions s x template, ruleOf s x template path instruction = r := by
  rw [allRules, List.mem_flatMap]
  simp only [List.mem_reverse]
  refine exists_congr fun template => and_congr_right fun _ => ?_
  unfold rulesOf path?
  cases x.attributeValue? "match" template with
  | none => simp
  | some pattern => cases hpath : Expr.parse pattern <;> simp [Except.toOption, hpath]

theorem makes_iff {name : String} : Makes s x name ↔ ∃ r ∈ allRules s x, name ∈ r.names := by
  constructor
  · rintro ⟨template, ht, hsome, pattern, path, steps, names, hpattern, hpath, hsteps, hnames, hname⟩
    cases Skeleton.joins_iff.1 hsteps
    rw [← instructions_eq] at hsome
    obtain ⟨instruction, hi⟩ := List.exists_mem_of_ne_nil _ hsome
    exact ⟨_, mem_allRules.2 ⟨template, ht, pattern, path, hpattern, hpath, instruction, hi, rfl⟩,
      mem_found.2 ⟨names, Skeleton.names_eq_ok_iff.2 hnames, hname⟩⟩
  · rintro ⟨r, hr, hname⟩
    obtain ⟨template, ht, pattern, path, hpattern, hpath, instruction, hi, rfl⟩ := mem_allRules.1 hr
    obtain ⟨names, hnames, hname⟩ := mem_found.1 hname
    rw [instructions_eq] at hi
    exact ⟨template, ht, List.ne_nil_of_mem hi, pattern, path, Skeleton.steps path, names, hpattern, hpath,
      Skeleton.joins_steps path, Skeleton.names_eq_ok_iff.1 hnames, hname⟩

theorem writable_of_mem_allRules (hx : x.Proper) (hroot : Text.isName s.rootName.toList = true) {r : Rule}
    (h : r ∈ allRules s x) : r.element.Writable := by
  obtain ⟨template, -, pattern, path, -, hpath, instruction, -, rfl⟩ := mem_allRules.1 h
  refine Rule.writable_element (proper_rulePattern hx) fun name hname => ?_
  obtain ⟨names, hnames, hname⟩ := mem_found.1 hname
  exact Skeleton.isWritten_of_parse hpath hroot hnames name hname

/-- The stylesheet of the rules can be written. -/
theorem writable_allRules (hx : x.Proper) (hroot : Text.isName s.rootName.toList = true) :
    (Element.mk "xsl:stylesheet" [("version", "1.0")] ((allRules s x).map Rule.element)).Writable := by
  refine .mk (isWritten_instruction "stylesheet" (by decide)) (.single fitAttribute_version) fun c hc => ?_
  obtain ⟨r, hr, rfl⟩ := List.mem_map.1 hc
  exact writable_of_mem_allRules hx hroot hr

/-- Only the names of the rules can keep their stylesheet from being read. -/
theorem known_stylesheet_iff (rules : List Rule) :
    (∀ name ∈ (Element.mk "xsl:stylesheet" [("version", "1.0")] (rules.map Rule.element)).names, Known name) ↔
      ∀ r ∈ rules, ∀ name ∈ r.names, Known name := by
  have stylesheet : Known "xsl:stylesheet" := by decide
  rw [Element.names, List.forall_mem_cons]
  refine (and_iff_right stylesheet).trans ⟨fun h r hr => r.known_iff.1 fun name hname => ?_, fun h name hname => ?_⟩
  · exact h name (Element.mem_namesOfAll.2 ⟨r.element, List.mem_map_of_mem hr, hname⟩)
  · obtain ⟨c, hc, hname⟩ := Element.mem_namesOfAll.1 hname
    obtain ⟨r, hr, rfl⟩ := List.mem_map.1 hc
    exact r.known_iff.2 (h r hr) name hname

/-- What is written for some rules. -/
theorem write_sheet (rules : List Rule) (indent : Option Nat) : (sheet rules).write indent =
    Element.writeDocument indent (some (.mk "xsl:stylesheet" [("xmlns:xsl", Instruction.uri), ("version", "1.0")]
      (rules.map Rule.element))) := by
  rw [Draft.write, document_sheet]

/-- The stylesheet that was drafted for some rules can be read if these can. -/
theorem isSome_parse?_sheet (hx : x.Proper) (hroot : Text.isName s.rootName.toList = true) (indent : Option Nat) :
    (XmlDocument.parse? ((sheet (allRules s x)).write indent)).isSome ↔
      ∀ r ∈ allRules s x, ∀ name ∈ r.names, Known name := by
  rw [write_sheet, Element.isSome_parse?_iff (writable_allRules hx hroot) indent, known_stylesheet_iff]

/-- A reversal can be read if its rules can. -/
theorem isSome_parse?_xml {stylesheet : String} {r : Reversal} (hroot : Text.isName s.rootName.toList = true)
    (hx : XmlDocument.parse? stylesheet = some x) (h : reverse s stylesheet = .ok r) :
    (XmlDocument.parse? r.xml).isSome ↔ ∀ rule ∈ allRules s x, ∀ name ∈ rule.names, Known name := by
  obtain ⟨x', hx', -, hxml, -⟩ := reverse_ok h
  cases hx.symm.trans hx'
  rw [hxml]
  exact isSome_parse?_sheet (XmlDocument.proper_parse? hx) hroot _

end Rules

/-! ## Reversals -/

/-- **A reversal can be read** exactly if none of the elements made for patterns has a qualifier other than that of
instructions. -/
theorem reverse_readable_iff {stylesheet : String} {r : Reversal} (h : reverse .default stylesheet = .ok r) :
    ∃ x, XmlDocument.parse? stylesheet = some x ∧
      ((XmlDocument.parse? r.xml).isSome ↔ ∀ name, Makes .default x name → Known name) := by
  obtain ⟨x, hx, -⟩ := reverse_ok h
  refine ⟨x, hx, (isSome_parse?_xml (by decide) hx h).trans ⟨fun known name hname => ?_, fun known rule hrule name hname => ?_⟩⟩
  · obtain ⟨rule, hrule, hname⟩ := makes_iff.1 hname
    exact known rule hrule name hname
  · exact known name (makes_iff.2 ⟨rule, hrule, hname⟩)

/-- A template for elements that are instructions themselves. -/
def ownInstructions : String :=
  "<xsl:stylesheet xmlns:xsl='http://www.w3.org/1999/XSL/Transform'>" ++
    "<xsl:template match='xsl:template/p'><i><xsl:value-of/></i></xsl:template></xsl:stylesheet>"

set_option maxRecDepth 2000 in
theorem reverse_readable_iff_own :
    ∃ r, reverse .default ownInstructions = .ok r ∧ (XmlDocument.parse? r.xml).isSome = true := by
  -- only a text that is given by its characters is quick to take apart
  have chars : ownInstructions.toList = _ :=
    String.toList_append.trans (congr (congrArg HAppend.hAppend String.toList_ofList) String.toList_ofList)
  have run : (reverse .default ownInstructions).toOption.map Reversal.tally = some ⟨1, 0, 0⟩ := by
    rw [reverse, XmlDocument.parse?, chars]
    decide +kernel
  have rules : (XmlDocument.parse? ownInstructions).map (fun x => (allRules .default x).map Rule.names) =
      some [["xsl:template", "p"]] := by
    rw [XmlDocument.parse?, chars]
    decide +kernel
  obtain ⟨r, hr, -⟩ := Option.map_eq_some_iff.1 run
  have reversed := eq_ok_of_toOption hr
  obtain ⟨x, hx, readable⟩ := reverse_readable_iff reversed
  refine ⟨r, reversed, readable.2 fun name hname => ?_⟩
  rw [hx, Option.map_some, Option.some.injEq] at rules
  obtain ⟨rule, hrule, hname⟩ := makes_iff.1 hname
  have names : rule.names ∈ (allRules .default x).map Rule.names := List.mem_map_of_mem hrule
  rw [rules, List.mem_singleton] at names
  rw [names] at hname
  have known : ∀ name ∈ ["xsl:template", "p"], Known name := by decide
  exact known name hname

/-- A template for elements with another qualifier. -/
def foreignNames : String :=
  "<xsl:stylesheet xmlns:xsl='http://www.w3.org/1999/XSL/Transform'>" ++
    "<xsl:template match='fo:block'><p><xsl:value-of/></p></xsl:template></xsl:stylesheet>"

set_option maxRecDepth 2000 in
/-- This one is reversed, and the reversal cannot be read. -/
theorem foreignNames_unreadable : ∃ r, reverse .default foreignNames = .ok r ∧ XmlDocument.parse? r.xml = none := by
  have chars : foreignNames.toList = _ :=
    String.toList_append.trans (congr (congrArg HAppend.hAppend String.toList_ofList) String.toList_ofList)
  have run : (reverse .default foreignNames).toOption.map Reversal.tally = some ⟨1, 0, 0⟩ := by
    rw [reverse, XmlDocument.parse?, chars]
    decide +kernel
  have rules : (XmlDocument.parse? foreignNames).map (fun x => (allRules .default x).map Rule.names) =
      some [["fo:block"]] := by
    rw [XmlDocument.parse?, chars]
    decide +kernel
  obtain ⟨r, hr, -⟩ := Option.map_eq_some_iff.1 run
  obtain ⟨x, hx, hrules⟩ := Option.map_eq_some_iff.1 rules
  have reversed := eq_ok_of_toOption hr
  refine ⟨r, reversed, ?_⟩
  rw [← Option.not_isSome_iff_eq_none, isSome_parse?_xml (by decide) hx reversed]
  intro known
  have found : ["fo:block"] ∈ (allRules .default x).map Rule.names := by
    rw [hrules]
    exact List.mem_singleton_self _
  obtain ⟨rule, hrule, hnames⟩ := List.mem_map.1 found
  have foreign : ¬ Known "fo:block" := by decide
  exact foreign (known rule hrule "fo:block" (by rw [hnames]; exact List.mem_singleton_self _))

end StylesheetReversal.Reversal
