import StylesheetReversal.Instruction
import StylesheetReversal.Proofs.Xml.Tags
import StylesheetReversal.Xml.Document
/-!
# What start tags say

In a document that declares one qualifier on its outermost element and no namespace anywhere else, a start
tag says of itself what was written: its name is in the namespace that was declared or in none, and its
attributes come in order (`Tag.ofRaw?_inner`, `Tag.ofRaw?_outer`).
-/
namespace StylesheetReversal.Xml

/-- The qualifier of instructions. -/
def instructionQualifier : List Char := ['x', 's', 'l']

/-- A name of an instruction, or one without a qualifier. -/
structure TagName.Known (n : TagName) : Prop extends n.Fit where
  known : n.qualifier = [] ∨ n.qualifier = instructionQualifier

/-- An attribute that declares nothing, and its value. -/
structure PlainAttribute (a : TagName × List Char) : Prop where
  name : Text.isName a.1.base = true
  qualifier : a.1.qualifier = []
  noDeclaration : a.1.base ≠ "xmlns".toList

theorem PlainAttribute.fit {a : TagName × List Char} (h : PlainAttribute a) : a.1.Fit :=
  ⟨h.name, .inl h.qualifier⟩

/-- The declaration of instructions. -/
def declaring : TagName × List Char := (⟨"xmlns".toList, instructionQualifier⟩, Instruction.uri.toList)

theorem declaring_fit : declaring.1.Fit := ⟨by decide, .inr (by decide)⟩

namespace Tag

/-- The scope of every element in a document with this declaration. -/
def instructionScope : List Binding := [⟨some "xsl", Instruction.uri⟩]

/-- What an attribute is read as. -/
def readAttribute (a : TagName × List Char) : Attribute :=
  ⟨String.ofList a.1.base, none, String.ofList (normalized a.2)⟩

/-- What a start tag is read as. -/
def readAs (n : TagName) (as : List (TagName × List Char)) : Tag where
  base := String.ofList n.base
  uri := if n.qualifier = [] then none else some Instruction.uri
  scope := instructionScope
  attributes := as.map readAttribute

variable {n : TagName} {as : List (TagName × List Char)} {scope : List Binding}

theorem values?_written : ∀ as : List (TagName × List Char),
    values? (as.map rawAttribute) = some (as.map fun a => (a.1, String.ofList (normalized a.2)))
  | [] => rfl
  | a :: as => by
    rw [List.map_cons, values?, rawAttribute, attributeValue_escape, Option.bind_some, values?_written as]
    rfl

theorem isDeclaration_plain {a : TagName × List Char} (h : PlainAttribute a) : isDeclaration a.1 = false := by
  have differs : ([] : List Char) ≠ "xmlns".toList := by decide
  rw [isDeclaration, h.qualifier, Bool.or_eq_false_iff, beq_eq_false_iff_ne, beq_eq_false_iff_ne]
  exact ⟨differs, h.noDeclaration⟩

theorem declared?_plain {before : List Binding} : ∀ {as : List (TagName × List Char)}, (∀ a ∈ as, PlainAttribute a) →
    declared? (as.map fun a => (a.1, String.ofList (normalized a.2))) before = some []
  | [], _ => rfl
  | a :: as, h => by
    rw [List.map_cons, declared?, isDeclaration_plain (h a List.mem_cons_self)]
    exact declared?_plain fun b hb => h b (List.mem_cons_of_mem a hb)

/-- Attributes with different names are all kept. -/
theorem attributes?_plain : ∀ {as : List (TagName × List Char)} {before : List Attribute},
    (∀ a ∈ as, PlainAttribute a) → (as.map fun a => a.1.base).Nodup →
    (∀ a ∈ as, ∀ b ∈ before, b.base ≠ String.ofList a.1.base) →
      attributes? scope (as.map fun a => (a.1, String.ofList (normalized a.2))) before = some (as.map readAttribute)
  | [], _, _, _, _ => rfl
  | a :: as, before, h, hdistinct, hbefore => by
    have ha := h a List.mem_cons_self
    rw [List.map_cons, List.nodup_cons] at hdistinct
    have uri : attributeUri? scope a.1 = some none := by
      rw [attributeUri?, ha.qualifier]
      rfl
    have new : (before.any fun b => b.base = (readAttribute a).base ∧ b.uri = (readAttribute a).uri) = false := by
      rw [List.any_eq_false]
      intro b hb
      rw [decide_eq_true_eq]
      exact fun hsame => hbefore a List.mem_cons_self b hb hsame.1
    have apart : ∀ b ∈ as, ∀ c ∈ readAttribute a :: before, c.base ≠ String.ofList b.1.base := by
      intro b hb c hc
      rcases List.mem_cons.1 hc with rfl | hc
      · intro hsame
        refine hdistinct.1 (List.mem_map.2 ⟨b, hb, ?_⟩)
        exact (String.ofList_injective hsame).symm
      · exact hbefore b (List.mem_cons_of_mem a hb) c hc
    have rest := attributes?_plain (fun b hb => h b (List.mem_cons_of_mem a hb)) hdistinct.2 apart
    rw [List.map_cons, attributes?, isDeclaration_plain ha, uri]
    simp only [Bool.false_eq_true, if_false, Option.bind_some]
    rw [readAttribute] at new rest
    rw [new, rest]
    rfl

theorem elementUri?_known (hn : n.Known) :
    elementUri? instructionScope n = some (if n.qualifier = [] then none else some Instruction.uri) := by
  unfold elementUri?
  rcases hn.known with hq | hq <;> rw [hq] <;> rfl

/-- **A tag inside**, which declares nothing, keeps the scope. -/
theorem ofRaw?_inner (hn : n.Known) (has : ∀ a ∈ as, PlainAttribute a) (hdistinct : (as.map fun a => a.1.base).Nodup) :
    ofRaw? instructionScope n (as.map rawAttribute) = some (readAs n as) := by
  have kept : scopeOf [] instructionScope = instructionScope := rfl
  have attributes : attributes? instructionScope (as.map fun a => (a.1, String.ofList (normalized a.2))) [] =
      some (as.map readAttribute) := attributes?_plain has hdistinct nofun
  rw [ofRaw?, values?_written, Option.bind_some, declared?_plain has, Option.bind_some]
  simp only [kept, elementUri?_known hn, Option.bind_some, attributes]
  rfl

theorem declared?_declaring (has : ∀ a ∈ as, PlainAttribute a) :
    declared? ((declaring :: as).map fun a => (a.1, String.ofList (normalized a.2))) [] = some instructionScope := by
  have value : String.ofList (normalized declaring.2) = Instruction.uri := by decide
  have declares : isDeclaration declaring.1 = true := by decide
  have binding : binding? declaring.1 Instruction.uri = some ⟨some "xsl", Instruction.uri⟩ := by decide
  have other : Instruction.uri ≠ xmlUri := by decide
  rw [List.map_cons, declared?, value, declares, if_pos rfl, binding, Option.bind_some, if_neg (by simp),
    if_neg other, declared?_plain has]
  rfl

/-- **The outermost tag**, which declares the namespace of instructions. -/
theorem ofRaw?_outer (hn : n.Known) (has : ∀ a ∈ as, PlainAttribute a) (hdistinct : (as.map fun a => a.1.base).Nodup) :
    ofRaw? [] n ((declaring :: as).map rawAttribute) = some (readAs n as) := by
  have declares : isDeclaration declaring.1 = true := by decide
  have attributes : attributes? instructionScope ((declaring :: as).map fun a => (a.1, String.ofList (normalized a.2)))
      [] = some (as.map readAttribute) := by
    rw [List.map_cons, attributes?, declares, if_pos rfl]
    exact attributes?_plain has hdistinct nofun
  have opened : scopeOf instructionScope [] = instructionScope := rfl
  rw [ofRaw?, values?_written, Option.bind_some, declared?_declaring has, Option.bind_some]
  simp only [opened, elementUri?_known hn, Option.bind_some, attributes]
  rfl

end Tag

end StylesheetReversal.Xml
