import StylesheetReversal.Document.Basic
import StylesheetReversal.Xml.Node
/-!
# XML documents

A document that was read is the list of its outermost nodes.  Its nodes are named by their
address, the way up from them: the empty address is the root of the document, and
`i :: a` is the child number `i` of the node at `a`.  Attributes have no address of their own
and are named by that of their element and a number.

`Ref.compare` is document order: a node comes before its attributes, these before its
children, and the children one after another.  `refs` lists all nodes in this order.
-/
namespace StylesheetReversal.Xml

/-- A node of a document. -/
inductive Ref
  | node (address : List Nat)
  | attribute (address : List Nat) (index : Nat)
  deriving DecidableEq, Repr, Hashable

namespace Ref

/-- Compares two ways down, the shorter one first if they agree as far as it goes. -/
def comparePaths : List Nat → List Nat → Ordering
  | [], [] => .eq
  | [], _ :: _ => .lt
  | _ :: _, [] => .gt
  | i :: p, j :: q => (Ord.compare i j).then (comparePaths p q)

def compareAddresses (a b : List Nat) : Ordering := comparePaths a.reverse b.reverse

/-- Document order. -/
def compare : Ref → Ref → Ordering
  | .node a, .node b => compareAddresses a b
  | .attribute a i, .attribute b j => (compareAddresses a b).then (Ord.compare i j)
  | .node a, .attribute b _ => if a = b then .lt else compareAddresses a b
  | .attribute a _, .node b => if a = b then .gt else compareAddresses a b

instance : Ord Ref := ⟨compare⟩

instance : LT Ref := ltOfOrd

instance : DecidableLT Ref := inferInstanceAs (DecidableRel fun a b => Ord.compare a b = .lt)

/-- The numbers that tell a node from all others. -/
def fingerprint : Ref → List Nat
  | .node a => 0 :: a
  | .attribute a i => 1 :: i :: a

def parent : Ref → Option Ref
  | .node [] => none
  | .node (_ :: up) => some (.node up)
  | .attribute a _ => some (.node a)

def depth : Ref → Nat
  | .node a => a.length
  | .attribute a _ => a.length + 1

theorem depth_parent {n p : Ref} (h : n.parent = some p) : p.depth < n.depth := by
  unfold parent at h
  split at h
  · cases h
  · cases h; simp [depth]
  · cases h; simp [depth]

end Ref

/-- A line and a column, both counted from one. -/
structure Location where
  line : Nat
  column : Nat
  deriving DecidableEq, Repr

namespace Location

/-- The location behind some characters. -/
def after (cs : List Char) : Location :=
  ⟨1 + cs.count '\n', 1 + (cs.reverse.takeWhile (· != '\n')).length⟩

def display (l : Location) : String := s!"line {l.line}, column {l.column}"

end Location

namespace Node

def start : Node → Nat
  | .element start .. => start
  | .text start _ => start
  | .comment start _ => start
  | .instruction start .. => start

def children : Node → List Node
  | .element _ _ cs => cs
  | _ => []

def attributes : Node → List Attribute
  | .element _ tag _ => tag.attributes
  | _ => []

def isElement : Node → Bool
  | .element .. => true
  | _ => false

def kind : Node → NodeType
  | .element .. => .element
  | .text .. => .text
  | .comment .. => .comment
  | .instruction .. => .instruction

def uri : Node → Option String
  | .element _ tag _ => tag.uri
  | _ => none

/-- The reported name: an element's with the qualifier of the first binding of its namespace,
and the target of a processing instruction. -/
def name : Node → Option QName
  | .element _ tag _ => some ⟨tag.uri.bind tag.qualifierOf, tag.base⟩
  | .instruction _ target _ => some ⟨none, target⟩
  | _ => none

mutual

/-- The text inside a node. -/
def innerText : Node → String
  | .element _ _ cs => textOf cs
  | .text _ value => value
  | .comment .. => ""
  | .instruction .. => ""

def textOf : List Node → String
  | [] => ""
  | n :: ns => innerText n ++ textOf ns

end

def value : Node → String
  | .element _ _ cs => textOf cs
  | .text _ value => value
  | .comment _ value => value
  | .instruction _ _ value => value

mutual

/-- A node at an address, then its attributes, then the nodes inside it. -/
def refs (address : List Nat) : Node → List Ref
  | .element _ tag cs =>
    .node address :: (List.range tag.attributes.length).map (.attribute address) ++
      refsFrom address 0 cs
  | .text .. => [.node address]
  | .comment .. => [.node address]
  | .instruction .. => [.node address]

/-- The children of the node at `up` from number `i` on, with all that is inside them. -/
def refsFrom (up : List Nat) (i : Nat) : List Node → List Ref
  | [] => []
  | n :: ns => refs (i :: up) n ++ refsFrom up (i + 1) ns

end

mutual

/-- The elements among a node and the nodes inside it. -/
def elements (address : List Nat) : Node → List Ref
  | .element _ _ cs => .node address :: elementsFrom address 0 cs
  | .text .. => []
  | .comment .. => []
  | .instruction .. => []

/-- The elements among the children of the node at `up` from number `i` on, and inside
them. -/
def elementsFrom (up : List Nat) (i : Nat) : List Node → List Ref
  | [] => []
  | n :: ns => elements (i :: up) n ++ elementsFrom up (i + 1) ns

end

end Node

/-- A document that was read, and its text. -/
structure XmlDocument where
  source : List Char
  nodes : List Node
  deriving Repr

namespace XmlDocument

/-- Reads a document. -/
def parse? (text : String) : Option XmlDocument :=
  ((pieces? text.toList).bind Node.ofPieces?).map fun nodes => ⟨text.toList, nodes⟩

/-- The nodes right below an address. -/
def nodesAt (d : XmlDocument) : List Nat → List Node
  | [] => d.nodes
  | i :: up =>
    match (d.nodesAt up)[i]? with
    | some n => n.children
    | none => []

/-- The node at an address other than that of the root. -/
def node? (d : XmlDocument) : List Nat → Option Node
  | [] => none
  | i :: up => (d.nodesAt up)[i]?

def kind (d : XmlDocument) : Ref → NodeType
  | .node a =>
    match d.node? a with
    | some n => n.kind
    | none => .root
  | .attribute .. => .attribute

def attribute? (d : XmlDocument) (a : List Nat) (i : Nat) : Option Attribute :=
  (d.node? a).bind (·.attributes[i]?)

/-- The reported name.  An attribute has a qualifier only if it is in a namespace. -/
def name (d : XmlDocument) : Ref → Option QName
  | .node a => (d.node? a).bind Node.name
  | .attribute a i =>
    match d.node? a with
    | some (.element _ tag _) =>
      (tag.attributes[i]?).map fun a => ⟨a.uri.bind tag.qualifierOf, a.base⟩
    | _ => none

def uri (d : XmlDocument) : Ref → Option String
  | .node a => (d.node? a).bind Node.uri
  | .attribute a i => (d.attribute? a i).bind Attribute.uri

def value (d : XmlDocument) : Ref → String
  | .node [] => Node.textOf d.nodes
  | .node (i :: up) => ((d.node? (i :: up)).map Node.value).getD ""
  | .attribute a i => ((d.attribute? a i).map Attribute.value).getD ""

def attributes (d : XmlDocument) : Ref → List Ref
  | .node a =>
    match d.node? a with
    | some n => (List.range n.attributes.length).map (.attribute a)
    | none => []
  | .attribute .. => []

def children (d : XmlDocument) : Ref → List Ref
  | .node a => (List.range (d.nodesAt a).length).map fun i => .node (i :: a)
  | .attribute .. => []

/-- The document seen through its nodes. -/
def document (d : XmlDocument) : Document Ref where
  kind := d.kind
  name := d.name
  uri := d.uri
  value := d.value
  parent := Ref.parent
  attributes := d.attributes
  children := d.children
  rank := Ref.depth
  rank_parent := Ref.depth_parent

/-- All nodes in document order. -/
def refs (d : XmlDocument) : List Ref := .node [] :: Node.refsFrom [] 0 d.nodes

/-- The outermost element. -/
def outermost (d : XmlDocument) : Ref := .node [(d.nodes.findIdx? Node.isElement).getD 0]

/-- Whether a node is an element with this name in this namespace. -/
def isNamed (d : XmlDocument) (uri base : String) : Ref → Bool
  | .node a =>
    match d.node? a with
    | some (.element _ tag _) => tag.base = base && tag.uri = some uri
    | _ => false
  | .attribute .. => false

/-- The value of an element's first attribute of this name, in whichever namespace. -/
def attributeValue? (d : XmlDocument) (base : String) : Ref → Option String
  | .node a =>
    ((d.node? a).bind fun n => n.attributes.find? (·.base = base)).map Attribute.value
  | .attribute .. => none

/-- The elements inside a node, in document order. -/
def elementsIn (d : XmlDocument) : Ref → List Ref
  | .node a => Node.elementsFrom a 0 (d.nodesAt a)
  | .attribute .. => []

/-- Where a node starts; attributes start with their element. -/
def location (d : XmlDocument) : Ref → Location
  | .node a => .after (d.source.take (((d.node? a).map Node.start).getD 0))
  | .attribute a _ => .after (d.source.take (((d.node? a).map Node.start).getD 0))

end XmlDocument

end StylesheetReversal.Xml
