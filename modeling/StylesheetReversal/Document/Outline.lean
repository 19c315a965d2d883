import StylesheetReversal.Document.Basic
import StylesheetReversal.Instruction
import StylesheetReversal.Text.Name
/-!
# Documents put together by hand

An `Outline` is a list of nodes, each naming its parent by number.  Nodes are added one after
another; the first one is the root.  A parent always has a smaller number than the nodes below
it, and the order of numbers is the order of nodes.
-/
namespace StylesheetReversal

namespace Outline

/-- One node as it was added. -/
structure Entry where
  kind : NodeType
  name : Option QName
  uri : Option String
  value : String
  parent : Option Nat
  deriving DecidableEq, Repr

end Outline

/-- The nodes in the order in which they were added. -/
structure Outline where
  entries : Array Outline.Entry
  deriving Repr

namespace Outline

/-- The outline of the root alone. -/
def empty : Outline := ⟨#[⟨.root, none, none, "", none⟩]⟩

def size (o : Outline) : Nat := o.entries.size

def add (o : Outline) (entry : Entry) : Outline := ⟨o.entries.push entry⟩

/-- Splits a written name at its first colon. -/
def splitName (name : String) : QName :=
  match Text.splitColon? name.toList with
  | some (qualifier, base) => ⟨some (String.ofList qualifier), String.ofList base⟩
  | none => ⟨none, name⟩

/-- Adds an element; its name may be written `qualifier:base`. -/
def addElement (o : Outline) (parent : Nat) (name : String) (uri : Option String) : Outline :=
  o.add ⟨.element, some (splitName name), uri, "", some parent⟩

/-- Adds an attribute to an element. -/
def addAttribute (o : Outline) (parent : Nat) (name value : String) : Outline :=
  o.add ⟨.attribute, some ⟨none, name⟩, none, value, some parent⟩

def addText (o : Outline) (parent : Nat) (value : String) : Outline :=
  o.add ⟨.text, none, none, value, some parent⟩

def addComment (o : Outline) (parent : Nat) (value : String) : Outline :=
  o.add ⟨.comment, none, none, value, some parent⟩

def kind (o : Outline) (n : Nat) : NodeType :=
  match o.entries[n]? with
  | some e => e.kind
  | none => .root

/-- The parent of a node, which was added before it. -/
def parent (o : Outline) (n : Nat) : Option Nat :=
  match o.entries[n]? with
  | some e => e.parent.filter (· < n)
  | none => none

/-- The nodes below `n`, attributes or others. -/
def below (o : Outline) (attributes : Bool) (n : Nat) : List Nat :=
  (List.range o.size).filter fun m =>
    o.parent m = some n && (o.kind m = .attribute) = attributes

def children (o : Outline) (n : Nat) : List Nat := o.below false n

/-- The text inside a node, at most `depth` levels down. -/
def text (o : Outline) : Nat → Nat → String
  | 0, _ => ""
  | depth + 1, n =>
    match o.kind n with
    | .text => (o.entries[n]?.map Entry.value).getD ""
    | .root | .element => String.join ((o.children n).map (o.text depth))
    | _ => ""

def value (o : Outline) (n : Nat) : String :=
  match o.kind n with
  | .root | .element => o.text (o.size + 1) n
  | _ => (o.entries[n]?.map Entry.value).getD ""

theorem parent_lt {o : Outline} {n p : Nat} (h : o.parent n = some p) : p < n := by
  unfold parent at h
  split at h
  · rw [Option.filter_eq_some_iff] at h
    simpa using h.2
  · simp at h

/-- The outline as a document. -/
def document (o : Outline) : Document Nat where
  kind := o.kind
  name n := o.entries[n]?.bind Entry.name
  uri n := o.entries[n]?.bind Entry.uri
  value := o.value
  parent := o.parent
  attributes := o.below true
  children := o.children
  rank := id
  rank_parent := parent_lt

/-- A small template with an instruction in it, twelve nodes with the root. -/
def sample : Outline :=
  empty
    |>.addElement 0 "xsl:template" (some Instruction.uri)
    |>.addAttribute 1 "match" "/page/body"
    |>.addElement 1 "div" none
    |>.addAttribute 3 "class" "box"
    |>.addElement 3 "h1" none
    |>.addText 5 "Title"
    |>.addComment 3 " note "
    |>.addElement 3 "span" none
    |>.addElement 8 "xsl:value-of" (some Instruction.uri)
    |>.addAttribute 9 "select" "."
    |>.addText 3 " tail text "

end Outline

end StylesheetReversal
