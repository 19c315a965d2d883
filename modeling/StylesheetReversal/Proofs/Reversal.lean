import StylesheetReversal.Proofs.Document.Surroundings
import StylesheetReversal.Proofs.Draft
import StylesheetReversal.Proofs.Xml.ProperNodes
import StylesheetReversal.Reversal
/-!
# The reversal read back

A reversal only ever adds to the stylesheet it drafts: elements with names that can be written, each below an
earlier one.  What it writes in the end is read back as the same tree (`Reversal.write_reads_back`).
-/
namespace StylesheetReversal

open StylesheetReversal.Path StylesheetReversal.Xml

namespace Reversal

theorem isWritten_instruction (base : String) (h : Text.isName base.toList = true) : IsWritten ("xsl:" ++ base) := by
  have qualifier : Text.isName instructionQualifier = true := by decide
  refine ⟨⟨instructionQualifier, base.toList⟩, ⟨h, .inr qualifier⟩, ?_⟩
  rw [String.toList_append]
  rfl

theorem fitAttribute_version : Element.FitAttribute ("version", "1.0") := ⟨by decide, by decide, by decide⟩

theorem fitAttribute_select : Element.FitAttribute ("select", ".") := ⟨by decide, by decide, by decide⟩

theorem fitAttribute_match {pattern : String} (h : Proper pattern.toList) : Element.FitAttribute ("match", pattern) where
  name := (by decide : Text.isName "match".toList = true)
  noDeclaration := (by decide : "match" ≠ "xmlns")
  value := h

/-! ## Rules -/

variable {d : Draft} {stylesheet : Nat}

theorem grows_addValue {element : Nat} (h : d.Sound) (he : element < d.size) : d.Grows (addValue d element) := by
  exact h.child (isWritten_instruction "value-of" (by decide)) fitAttribute_select he

theorem proper_textPattern {surroundings : String} (h : Proper surroundings.toList) :
    Proper (textPattern surroundings).toList := by
  unfold textPattern
  split
  · decide
  · exact Proper.concat (.concat (by decide) h) (by decide)

/-- Opening a rule makes an element, and links it below the stylesheet. -/
theorem grows_openRule {pattern : String} (h : d.Sound) (hs : stylesheet < d.size) (hp : Proper pattern.toList) :
    d.Grows (openRule d stylesheet pattern).2 ∧ (openRule d stylesheet pattern).1 = d.size ∧
      (openRule d stylesheet pattern).2.size = d.size + 1 := by
  have grows := h.child (isWritten_instruction "template" (by decide)) (fitAttribute_match hp) hs
  refine ⟨grows, rfl, ?_⟩
  simp [openRule]

/-- A chain of elements hangs below its first one. -/
theorem grows_chain : ∀ {names : List String} {leaf : Nat} {d : Draft}, d.Sound → leaf < d.size →
    (∀ name ∈ names, IsWritten name) → d.Grows (Skeleton.chain factory leaf names d).2 ∧
      (Skeleton.chain factory leaf names d).1 < (Skeleton.chain factory leaf names d).2.size
  | [], _, _, h, hleaf, _ => ⟨h.grows, hleaf⟩
  | name :: rest, leaf, d, h, hleaf, hnames => by
    have created : d.Grows (d.create name).2 := h.create (hnames name List.mem_cons_self)
    have linked := created.sound.append (j := d.size) hleaf (by simp)
    have inside : d.size < ((d.create name).2.append leaf d.size).size := by simp
    obtain ⟨grows, hlast⟩ := grows_chain linked.sound inside fun n hn => hnames n (List.mem_cons_of_mem name hn)
    exact ⟨created.trans (linked.trans grows), hlast⟩

/-- A skeleton consists of new elements. -/
theorem grows_make {rootName : String} {path : Expr} (h : d.Sound)
    (hnames : ∀ names, Skeleton.names rootName path = .ok names → ∀ name ∈ names, IsWritten name) :
    d.Grows (Skeleton.make factory rootName path d).2 ∧
      ∀ skeleton, (Skeleton.make factory rootName path d).1 = some skeleton → d.size ≤ skeleton.root ∧
        ∀ element ∈ skeleton.root :: skeleton.leaves, element < (Skeleton.make factory rootName path d).2.size := by
  unfold Skeleton.make
  split
  · next first rest heq =>
    have written := hnames _ heq
    have created : d.Grows (d.create first).2 := h.create (written first List.mem_cons_self)
    have inside : d.size < (d.create first).2.size := by simp
    obtain ⟨grows, hlast⟩ := grows_chain created.sound inside fun n hn => written n (List.mem_cons_of_mem first hn)
    refine ⟨created.trans grows, fun skeleton hskeleton => ?_⟩
    cases hskeleton
    refine ⟨Nat.le_refl _, fun element helement => ?_⟩
    rcases List.mem_cons.1 helement with rfl | helement
    · exact Nat.lt_of_lt_of_le inside grows.size
    · rw [List.mem_singleton] at helement
      rw [helement]
      exact hlast
  · exact ⟨h.grows, nofun⟩

/-! ## Templates -/

variable {s : Settings} {x : XmlDocument} {p : Progress}

theorem proper_rulePattern {template instruction : Ref} (hx : x.Proper) :
    Proper (rulePattern s x template instruction).toList := by
  have document : x.document.Proper := ⟨hx.baseName, hx.value⟩
  exact proper_textPattern (document.surroundings _ instruction template)

/-- **Adding a rule** lets the draft grow. -/
theorem grows_addRule {template instruction : Ref} {pattern : String} {path : Expr} (hx : x.Proper) (h : p.draft.Sound)
    (hs : stylesheet < p.draft.size)
    (hnames : ∀ names, Skeleton.names s.rootName path = .ok names → ∀ name ∈ names, IsWritten name) :
    p.draft.Grows (addRule s x stylesheet template pattern path p instruction).draft := by
  obtain ⟨opened, hrule, size⟩ := grows_openRule h hs (proper_rulePattern hx)
  obtain ⟨made, hmade⟩ := grows_make opened.sound hnames
  have all := opened.trans made
  unfold addRule
  dsimp only
  split
  · next skeleton draft heq =>
    rw [heq] at hmade all
    obtain ⟨hroot, hinside⟩ := hmade skeleton rfl
    have below : (openRule p.draft stylesheet (rulePattern s x template instruction)).1 < skeleton.root := by
      rw [hrule]
      omega
    have linked := all.sound.append below (hinside skeleton.root List.mem_cons_self)
    have values := linked.sound.foldl id addValue draft.size
      (fun d leaf hleaf hd hsize => grows_addValue hd
        (Nat.lt_of_lt_of_le (hinside leaf (List.mem_cons_of_mem _ hleaf)) hsize)) linked.size
    exact all.trans (linked.trans values)
  · next draft heq =>
    rw [heq] at all
    exact all

/-- **Adding a template** lets the draft grow. -/
theorem grows_addTemplate (hx : x.Proper) (hroot : Text.isName s.rootName.toList = true) (template : Ref)
    (h : p.draft.Sound) (hs : stylesheet < p.draft.size) :
    p.draft.Grows (addTemplate s x stylesheet p template).draft := by
  unfold addTemplate
  dsimp only
  split
  · exact h.grows
  · split
    · exact h.grows
    · next pattern _ =>
      split
      · exact h.grows
      · next path hpath =>
        have written : ∀ names, Skeleton.names s.rootName path = .ok names → ∀ name ∈ names, IsWritten name :=
          fun names => Skeleton.isWritten_of_parse hpath hroot
        exact Draft.Sound.foldl (s := p.note (Expr.parseLog pattern)) Progress.draft
          (addRule s x stylesheet template pattern path) (stylesheet + 1)
          (fun _ _ _ hd hsize => grows_addRule hx hd hsize written) h hs

theorem sound_frame : frame.2.Sound := by
  have empty : Draft.empty.Sound := ⟨nofun, nofun, nofun⟩
  have created := empty.create (isWritten_instruction "stylesheet" (by decide))
  -- neither the root nor the namespaces matter to the elements
  have declared : ((Draft.empty.create "xsl:stylesheet").2.declare "xsl" Instruction.uri).Sound :=
    ⟨created.sound.ordered, created.sound.name, created.sound.attributes⟩
  have set := (declared.setAttribute (i := 0) fitAttribute_version).sound
  exact ⟨set.ordered, set.name, set.attributes⟩

/-- **A reversal drafts a stylesheet**: its root is the first element, and the namespace of instructions is declared. -/
theorem grows_ofDocument (hx : x.Proper) (hroot : Text.isName s.rootName.toList = true) (h : ofDocument s x = .ok p) :
    frame.2.Grows p.draft := by
  unfold ofDocument at h
  split at h
  · cases h
    exact Draft.Sound.foldl (s := ⟨frame.2, ⟨0, 0, 0⟩, []⟩) Progress.draft (addTemplate s x frame.1) 1
      (fun _ template _ hd hsize => grows_addTemplate hx hroot template hd hsize) sound_frame (Nat.le_refl 1)
  · cases h

/-! ## Reading back -/

/-- **What a reversal writes is read back as the same tree**, whatever the indentation, if no name of an element has
a qualifier other than that of instructions. -/
theorem write_reads_back {stylesheet : String} (hx : XmlDocument.parse? stylesheet = some x) (hp : ofDocument s x = .ok p)
    (hroot : Text.isName s.rootName.toList = true)
    (hqualifier : ∀ e ∈ p.draft.entries, ∀ q b, Text.splitColon? e.name.toList = some (q, b) → q = "xsl".toList) :
    ∃ root element, p.draft.root = some root ∧ p.draft.Unfolds root element ∧ ∀ indent : Option Nat,
      ∃ r node, XmlDocument.parse? (p.draft.write indent) = some r ∧ r.nodes = [node] ∧ Shows indent element node := by
  have grows := grows_ofDocument (XmlDocument.proper_parse? hx) hroot hp
  have sound := grows.sound
  have root : p.draft.root = some 0 := grows.root
  have declared : p.draft.declared = [("xsl", Instruction.uri)] := grows.declared
  have known : ∀ i e, p.draft.entry? i = some e → ∀ n : TagName, n.Fit → e.name.toList = n.chars → n.Known := by
    intro i e he n hn hname
    rcases TagName.chars_cases hn with ⟨hq, -⟩ | ⟨hq, hchars⟩
    · exact ⟨hn, .inl hq⟩
    · refine ⟨hn, .inr (hqualifier e (Array.mem_of_getElem? he) n.qualifier n.base ?_)⟩
      rw [hname, hchars]
      exact Text.splitColon?_append hq
  have size : 1 ≤ p.draft.size := grows.size
  have unfolds : p.draft.Unfolds 0 (p.draft.tree (p.draft.size + 1) 0) := sound.unfolds_tree size (by omega)
  have fit := unfolds.fit sound known
  refine ⟨0, _, root, unfolds, fun indent => ?_⟩
  have written : p.draft.write indent = Element.writeDocument indent p.draft.document := rfl
  rw [written, Draft.document, root, Option.map_some, Draft.declarations, declared]
  generalize p.draft.tree (p.draft.size + 1) 0 = element at fit
  obtain ⟨name, attributes, children⟩ := element
  exact Element.parse?_writeDocument fit indent

/-- A stylesheet with one template. -/
def sample : String :=
  "<xsl:stylesheet xmlns:xsl='http://www.w3.org/1999/XSL/Transform'>" ++
    "<xsl:template match='/page'><h1 id='a&amp;b'><xsl:value-of select='.'/></h1></xsl:template></xsl:stylesheet>"

set_option maxRecDepth 2000 in
theorem write_reads_back_sample : ∃ x p, XmlDocument.parse? sample = some x ∧ ofDocument .default x = .ok p ∧
    p.draft.entries.toList.map Draft.Entry.name = ["xsl:stylesheet", "xsl:template", "page", "xsl:value-of"] ∧
      ∃ root element, p.draft.root = some root ∧ p.draft.Unfolds root element ∧ ∀ indent : Option Nat,
        ∃ r node, XmlDocument.parse? (p.draft.write indent) = some r ∧ r.nodes = [node] ∧ Shows indent element node := by
  have run : ((XmlDocument.parse? sample).bind fun x => (ofDocument .default x).toOption.map fun p =>
      p.draft.entries.toList.map Draft.Entry.name) =
        some ["xsl:stylesheet", "xsl:template", "page", "xsl:value-of"] := by
    -- only a text that is given by its characters is quick to take apart
    have chars : sample.toList = _ :=
      String.toList_append.trans (congr (congrArg HAppend.hAppend String.toList_ofList) String.toList_ofList)
    rw [XmlDocument.parse?, chars]
    decide +kernel
  obtain ⟨x, hx, hrun⟩ := Option.bind_eq_some_iff.1 run
  obtain ⟨p, hp, hnames⟩ := Option.map_eq_some_iff.1 hrun
  have reversed : ofDocument .default x = .ok p := by
    cases h : ofDocument .default x with
    | error e => rw [h] at hp; cases hp
    | ok p' => rw [h] at hp; cases hp; rfl
  refine ⟨x, p, hx, reversed, hnames, write_reads_back hx reversed (by decide) ?_⟩
  intro e he q b hsplit
  have qualified : ∀ name ∈ ["xsl:stylesheet", "xsl:template", "page", "xsl:value-of"],
      Text.splitColon? name.toList = none ∨ (Text.splitColon? name.toList).map Prod.fst = some "xsl".toList := by decide
  have name : e.name ∈ p.draft.entries.toList.map Draft.Entry.name :=
    List.mem_map.2 ⟨e, Array.mem_toList_iff.2 he, rfl⟩
  rw [hnames] at name
  rcases qualified e.name name with h | h
  · rw [h] at hsplit
    cases hsplit
  · rw [hsplit] at h
    cases h
    rfl

end Reversal

end StylesheetReversal
