import StylesheetReversal.Document.Surroundings
import StylesheetReversal.Draft
import StylesheetReversal.Instruction
import StylesheetReversal.Settings
import StylesheetReversal.Skeleton
import StylesheetReversal.Xml.Document
/-!
# Reversing a stylesheet

A stylesheet says, template by template, what is written for what is found.  Reversing it
gives a stylesheet for the way back: for every value that a template writes, a rule that
matches text in the place where the value was written, and that writes it into the elements
where the template would find it.

Every instruction that writes a value becomes one rule.  The rule's pattern is made of the
surroundings of the instruction within its template, its body of the skeleton of the
template's own pattern.  If that has no skeleton, the rule has no body; if the template has no
pattern, or a wrong one, its instructions are left out.

Later templates go before earlier ones, so that their rules keep the priority they had.
-/
namespace StylesheetReversal

open StylesheetReversal.Path StylesheetReversal.Xml

/-- The two ways in which a reversal fails as a whole. -/
inductive ReversalError
  | notXml
  | notStylesheet (found : String) (location : Location)
  deriving DecidableEq, Repr

namespace ReversalError

/-- What is wrong with a document that is no stylesheet. -/
def complaint (found : String) : String :=
  "expected an xsl:stylesheet document element, found '" ++ found ++ "'"

def message : ReversalError → String
  | .notXml => "XML parsing error"
  | .notStylesheet found location =>
    "Template structure error at " ++ location.display ++ ": " ++ complaint found

end ReversalError

/-- How many instructions became rules with a body, became rules without one, and were left
out. -/
structure Tally where
  reversed : Nat
  declined : Nat
  skipped : Nat
  deriving DecidableEq, Repr

namespace Reversal

/-- A reversal in progress: the stylesheet drafted so far, the count and the log. -/
structure Progress where
  draft : Draft
  tally : Tally
  log : List Log.Record
  deriving Repr

namespace Progress

def note (p : Progress) (records : List Log.Record) : Progress :=
  { p with log := p.log ++ records }

/-- Leaves out some instructions. -/
def skip (p : Progress) (instructions : Nat) : Progress :=
  { p with tally := { p.tally with skipped := p.tally.skipped + instructions } }

end Progress

/-- Makes elements in a draft. -/
def factory : Factory Draft Nat where
  create := Draft.create
  append := Draft.append

/-- Whether a node is the instruction of this name. -/
def isInstruction (d : XmlDocument) (name : String) (n : Ref) : Bool :=
  d.isNamed Instruction.uri name n

/-- The instructions of a template that are reversed. -/
def instructions (s : Settings) (d : XmlDocument) (template : Ref) : List Ref :=
  let inside := d.elementsIn template
  inside.filter (isInstruction d "value-of") ++
    if s.applyTemplates then inside.filter (isInstruction d "apply-templates") else []

/-- The pattern of a rule: any text, or text in the given surroundings. -/
def textPattern (surroundings : String) : String :=
  if surroundings = "" then "//text()" else "//text()[" ++ surroundings ++ "]"

/-- The pattern of the rule for an instruction. -/
def rulePattern (s : Settings) (d : XmlDocument) (template instruction : Ref) : String :=
  textPattern (d.document.surroundings (· == some s.wrapperUri) instruction template)

/-- Puts an instruction that writes the text below an element. -/
def addValue (d : Draft) (element : Nat) : Draft :=
  let (value, d) := d.create "xsl:value-of"
  (d.setAttribute value "select" ".").append element value

/-- The first part of a rule, in the stylesheet drafted. -/
def openRule (d : Draft) (stylesheet : Nat) (pattern : String) : Nat × Draft :=
  let (rule, d) := d.create "xsl:template"
  (rule, (d.setAttribute rule "match" pattern).append stylesheet rule)

/-- What is logged about a rule without a body. -/
def declineNote (location : Location) (pattern textPattern : String) : Log.Record :=
  Log.info ("Template at " ++ location.display ++ " matches '" ++ pattern ++
    "', which has no element skeleton; emitting rule '" ++ textPattern ++ "' without one")

/-- Adds the rule for an instruction of a template with the given pattern and path. -/
def addRule (s : Settings) (d : XmlDocument) (stylesheet : Nat) (template : Ref)
    (pattern : String) (path : Expr) (p : Progress) (instruction : Ref) : Progress :=
  let text := rulePattern s d template instruction
  let (rule, draft) := openRule p.draft stylesheet text
  let p := p.note (Skeleton.log s.rootName path)
  match Skeleton.make factory s.rootName path draft with
  | (some skeleton, draft) =>
    { p with
      draft := skeleton.leaves.foldl addValue (draft.append rule skeleton.root)
      tally := { p.tally with reversed := p.tally.reversed + 1 } }
  | (none, draft) =>
    { p with
      draft := draft
      tally := { p.tally with declined := p.tally.declined + 1 }
      log := p.log ++ [declineNote (d.location template) pattern text] }

/-- What is logged about a template that is left out. -/
def skipNote (location : Location) (reason : String) : Log.Record :=
  Log.warn ("Skipping template at " ++ location.display ++ ": " ++ reason)

/-- Reverses a template. -/
def addTemplate (s : Settings) (d : XmlDocument) (stylesheet : Nat) (p : Progress)
    (template : Ref) : Progress :=
  let found := instructions s d template
  let location := d.location template
  if found.isEmpty then p
  else
    match d.attributeValue? "match" template with
    | none => (p.note [skipNote location "it has no match pattern"]).skip found.length
    | some pattern =>
      let p := p.note (Expr.parseLog pattern)
      match Expr.parse pattern with
      | .error e => (p.note [skipNote location e.detailed]).skip found.length
      | .ok path => found.foldl (addRule s d stylesheet template pattern path) p

/-- The stylesheet that rules are added to, and the number of its root. -/
def frame : Nat × Draft :=
  let (root, d) := Draft.empty.create "xsl:stylesheet"
  (root, ((d.declare "xsl" Instruction.uri).setAttribute root "version" "1.0").setRoot root)

/-- The templates of a stylesheet. -/
def templates (d : XmlDocument) : List Ref :=
  (d.document.children d.outermost).filter (isInstruction d "template")

/-- Whether a document is a stylesheet. -/
def isStylesheet (d : XmlDocument) : Bool :=
  isInstruction d "stylesheet" d.outermost || isInstruction d "transform" d.outermost

/-- What is logged at the end of a reversal. -/
def summary (t : Tally) : Log.Record :=
  Log.debug (s!"Reversed stylesheet: {t.reversed} rules with skeletons, {t.declined} without, " ++
    s!"{t.skipped} skipped")

/-- Reverses a stylesheet: the draft of its reversal, the count and the log. -/
def ofDocument (s : Settings) (d : XmlDocument) : Except ReversalError Progress :=
  if isStylesheet d then
    let (stylesheet, draft) := frame
    let p := (templates d).reverse.foldl (addTemplate s d stylesheet) ⟨draft, ⟨0, 0, 0⟩, []⟩
    .ok (p.note [summary p.tally])
  else
    let found := ((d.document.name d.outermost).map QName.display).getD ""
    .error (.notStylesheet found (d.location d.outermost))

end Reversal

/-- A stylesheet that was reversed: the text of the reversal, the count and the log. -/
structure Reversal where
  xml : String
  tally : Tally
  log : List Log.Record
  deriving Repr

/-- Reverses the stylesheet that a text contains. -/
def reverse (s : Settings) (stylesheet : String) : Except ReversalError Reversal :=
  match XmlDocument.parse? stylesheet with
  | none => .error .notXml
  | some d =>
    (Reversal.ofDocument s d).map fun p =>
      ⟨p.draft.write (s.indent.map UInt64.toNat), p.tally, p.log⟩

/-- What is logged while a stylesheet is reversed; nothing if the reversal fails. -/
def reverseLog (result : Except ReversalError Reversal) : List Log.Record :=
  match result with
  | .ok r => r.log
  | .error _ => []

/-- Reverses a stylesheet with default settings, announcing it in the log. -/
def reverseStylesheet (stylesheet : String) : Except ReversalError String × List Log.Record :=
  let result := reverse .default stylesheet
  let opening := Log.debug s!"Reversing stylesheet ({stylesheet.utf8ByteSize} bytes)"
  (result.map Reversal.xml, opening :: reverseLog result)

end StylesheetReversal
