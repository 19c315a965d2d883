import StylesheetReversal.Proofs.Reversal.Composition
import StylesheetReversal.Proofs.Reversal.Conservation
/-!
# Qualifiers do not matter

Which qualifiers a stylesheet uses for its namespaces, and where it declares them, shows in the scopes of its elements and
nowhere else in what was read.  A reversal never looks at a scope, so stylesheets with the same content have the same
reversal (`Reversal.reverse_same_content`).
-/
namespace StylesheetReversal

open StylesheetReversal.Xml

namespace Xml.XmlDocument

variable {x y : XmlDocument}

theorem nodesAt_content (h : x.content = y.content) : ∀ a : List Nat,
    (x.nodesAt a).map Node.bare = (y.nodesAt a).map Node.bare
  | [] => h
  | i :: up => by
    have siblings := congrArg (·[i]?) (nodesAt_content h up)
    rw [List.getElem?_map, List.getElem?_map] at siblings
    have children := congrArg (Option.map Node.children) siblings
    rw [nodesAt, nodesAt]
    cases hx : (x.nodesAt up)[i]? with
    | none =>
      cases hy : (y.nodesAt up)[i]? with
      | none => rfl
      | some m => rw [hx, hy] at children; cases children
    | some n =>
      cases hy : (y.nodesAt up)[i]? with
      | none => rw [hx, hy] at children; cases children
      | some m =>
        rw [hx, hy, Option.map_some, Option.map_some, Option.map_some, Option.map_some, Node.children_bare,
          Node.children_bare, Option.some.injEq] at children
        exact children

/-- Documents with the same content hold the same below each node. -/
theorem shared_of_content (h : x.content = y.content) (i : Nat) (up : List Nat) : Shared x (i :: up) y (i :: up) := by
  have siblings := congrArg (·[i]?) (nodesAt_content h up)
  rw [List.getElem?_map, List.getElem?_map] at siblings
  exact ⟨nofun, nofun, siblings⟩

end Xml.XmlDocument

namespace Reversal

variable {s : Settings} {x y : XmlDocument}

theorem outermost_content (h : x.content = y.content) : x.outermost = y.outermost := by
  rw [XmlDocument.outermost, XmlDocument.outermost, ← findIdx?_content, h, findIdx?_content]

theorem isInstruction_content (h : x.content = y.content) (base : String) (i : Nat) (up : List Nat) :
    isInstruction x base (.node (i :: up)) = isInstruction y base (.node (i :: up)) :=
  (XmlDocument.shared_of_content h i up).isNamed Instruction.uri base (.node [])

theorem isStylesheet_content (h : x.content = y.content) : isStylesheet x = isStylesheet y := by
  unfold isStylesheet
  rw [← outermost_content h, XmlDocument.outermost, isInstruction_content h, isInstruction_content h]

/-- The templates stand in the same places. -/
theorem templates_content (h : x.content = y.content) : templates x = templates y := by
  have size (a : List Nat) : (x.nodesAt a).length = (y.nodesAt a).length := by
    have := congrArg List.length (XmlDocument.nodesAt_content h a)
    rwa [List.length_map, List.length_map] at this
  have children (a : List Nat) : x.document.children (.node a) = y.document.children (.node a) := by
    change (List.range (x.nodesAt a).length).map _ = (List.range (y.nodesAt a).length).map _
    rw [size]
  unfold templates
  rw [← outermost_content h, XmlDocument.outermost, children]
  refine List.filter_congr fun t ht => ?_
  obtain ⟨i, -, rfl⟩ := List.mem_map.1 ht
  exact isInstruction_content h "template" i _

/-- A template has an address other than that of the root. -/
theorem address_of_mem_templates {t : Ref} (h : t ∈ templates x) : ∃ i up, t = .node (i :: up) := by
  obtain ⟨i, -, rfl⟩ := List.mem_map.1 (List.mem_filter.1 h).1
  exact ⟨i, _, rfl⟩

theorem allRules_content (h : x.content = y.content) : allRules s x = allRules s y := by
  unfold allRules
  rw [← templates_content h]
  refine List.flatMap_congr fun t ht => ?_
  obtain ⟨i, up, rfl⟩ := address_of_mem_templates (List.mem_reverse.1 ht)
  exact rulesOf_shared (XmlDocument.shared_of_content h i up)

theorem allSkipped_content (h : x.content = y.content) : allSkipped s x = allSkipped s y := by
  unfold allSkipped
  rw [← templates_content h]
  refine congrArg List.sum (List.map_congr_left fun t ht => ?_)
  obtain ⟨i, up, rfl⟩ := address_of_mem_templates ht
  exact skippedOf_shared (XmlDocument.shared_of_content h i up)

/-- **Stylesheets with the same content**, whatever their qualifiers, have the same reversal and the same count. -/
theorem reverse_same_content {stylesheet other : String} {r : Reversal} (hx : XmlDocument.parse? stylesheet = some x)
    (hy : XmlDocument.parse? other = some y) (hcontent : x.content = y.content) (h : reverse s stylesheet = .ok r) :
    ∃ r', reverse s other = .ok r' ∧ r'.xml = r.xml ∧ r'.tally = r.tally := by
  obtain ⟨x', hx', hstylesheet, hxml, htally, -⟩ := reverse_ok h
  cases hx.symm.trans hx'
  rw [isStylesheet_content hcontent] at hstylesheet
  rw [allRules_content hcontent] at hxml
  rw [allRules_content hcontent, allSkipped_content hcontent] at htally
  unfold reverse
  rw [hy]
  dsimp only
  rw [ofDocument_eq hstylesheet]
  exact ⟨_, rfl, hxml.symm, htally.symm⟩

/-- A stylesheet with one qualifier for instructions, and another one that is declared where it is used. -/
def oneQualifier : String :=
  "<xsl:stylesheet xmlns:xsl='http://www.w3.org/1999/XSL/Transform'><xsl:template match='a'><p:b xmlns:p='u'>" ++
    "<xsl:value-of/></p:b></xsl:template></xsl:stylesheet>"

/-- The same with instructions in the default namespace and elsewhere, and all else declared outside. -/
def twoQualifiers : String :=
  "<stylesheet xmlns='http://www.w3.org/1999/XSL/Transform' xmlns:q='u'><t:template match='a' xmlns:t=" ++
    "'http://www.w3.org/1999/XSL/Transform'><q:b><value-of/></q:b></t:template></stylesheet>"

set_option maxRecDepth 2000 in
theorem reverse_same_content_two : ∃ x y r, XmlDocument.parse? oneQualifier = some x ∧
    XmlDocument.parse? twoQualifiers = some y ∧ x.content = y.content ∧ reverse .default oneQualifier = .ok r ∧
    r.tally = ⟨1, 0, 0⟩ ∧ ∃ r', reverse .default twoQualifiers = .ok r' ∧ r'.xml = r.xml ∧ r'.tally = r.tally := by
  -- only a text that is given by its characters is quick to take apart
  have chars : oneQualifier.toList = _ :=
    String.toList_append.trans (congr (congrArg HAppend.hAppend String.toList_ofList) String.toList_ofList)
  have otherChars : twoQualifiers.toList = _ :=
    String.toList_append.trans (congr (congrArg HAppend.hAppend String.toList_ofList) String.toList_ofList)
  have run : (reverse .default oneQualifier).toOption.map Reversal.tally = some ⟨1, 0, 0⟩ := by
    rw [reverse, XmlDocument.parse?, chars]
    decide +kernel
  have contents : (XmlDocument.parse? oneQualifier).map XmlDocument.content =
      (XmlDocument.parse? twoQualifiers).map XmlDocument.content := by
    rw [XmlDocument.parse?, chars, XmlDocument.parse?, otherChars]
    decide +kernel
  obtain ⟨r, hr, htally⟩ := Option.map_eq_some_iff.1 run
  have reversed := eq_ok_of_toOption hr
  obtain ⟨x, hx, -⟩ := reverse_ok reversed
  rw [hx, Option.map_some, eq_comm, Option.map_eq_some_iff] at contents
  obtain ⟨y, hy, hcontent⟩ := contents
  exact ⟨x, y, r, hx, hy, hcontent.symm, reversed, htally, reverse_same_content hx hy hcontent.symm reversed⟩

end Reversal

end StylesheetReversal
