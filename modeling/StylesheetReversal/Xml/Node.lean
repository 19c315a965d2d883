import StylesheetReversal.Xml.Piece
/-!
# The tree of an XML document

`Node.ofPieces?` puts the pieces of a document together: tags have to match, names are given
their namespaces, and everything between two tags that is written as text becomes one text
node.

The namespace of a name is found in the scope of its element: the declarations of the element
itself, in the order in which they are written, and then those it takes over from its parent.
-/
namespace StylesheetReversal.Xml

/-- The namespace of names qualified by `xml`. -/
def xmlUri : String := "http://www.w3.org/XML/1998/namespace"

/-- The namespace of declarations, which cannot be declared. -/
def xmlnsUri : String := "http://www.w3.org/2000/xmlns/"

/-- A declared namespace; the one without a qualifier is the default. -/
structure Binding where
  qualifier : Option String
  uri : String
  deriving DecidableEq, Repr

structure Attribute where
  base : String
  uri : Option String
  value : String
  deriving DecidableEq, Repr

/-- What a start tag says once its names have been given their namespaces. -/
structure Tag where
  base : String
  uri : Option String
  scope : List Binding
  attributes : List Attribute
  deriving DecidableEq, Repr

/-- A node and the number of characters in front of it. -/
inductive Node
  | element (start : Nat) (tag : Tag) (children : List Node)
  | text (start : Nat) (value : String)
  | comment (start : Nat) (value : String)
  | instruction (start : Nat) (target value : String)
  deriving Repr

namespace Tag

/-- Whether an attribute declares a namespace. -/
def isDeclaration (name : TagName) : Bool :=
  name.qualifier == "xmlns".toList || name.base == "xmlns".toList

/-- The namespace an attribute declares.  Neither the namespace of declarations nor that of
`xml` can be declared, except that `xml` may be bound to its own. -/
def binding? (name : TagName) (uri : String) : Option Binding :=
  let qualifier :=
    if name.qualifier = "xmlns".toList then some (String.ofList name.base) else none
  if uri = xmlnsUri then none
  else if (qualifier = some "xml") ↔ (uri = xmlUri) then some ⟨qualifier, uri⟩
  else none

/-- The namespaces a tag declares.  No qualifier can be declared twice; the binding of `xml`
needs no declaration and is left out. -/
def declared? : List (TagName × String) → List Binding → Option (List Binding)
  | [], _ => some []
  | (name, uri) :: rest, before =>
    if isDeclaration name then
      (binding? name uri).bind fun binding =>
        if binding.qualifier.isSome ∧ before.any (·.qualifier = binding.qualifier) then none
        else if uri = xmlUri then declared? rest before
        else (declared? rest (binding :: before)).map (binding :: ·)
    else declared? rest before

/-- Takes a declaration over into a scope that has none for its qualifier. -/
def takeOver (scope : List Binding) (b : Binding) : List Binding :=
  if scope.any (·.qualifier = b.qualifier) then scope else scope ++ [b]

/-- The declarations of an element followed by those it takes over.  An element without
declarations has the scope of its parent. -/
def scopeOf (own inherited : List Binding) : List Binding :=
  if own.isEmpty then inherited else inherited.foldl takeOver own

/-- The namespace bound to a qualifier. -/
def bound? (scope : List Binding) (qualifier : Option String) : Option String :=
  (scope.find? (·.qualifier = qualifier)).map Binding.uri

/-- The namespace of an element's name, if any; fails for a qualifier that is not bound. -/
def elementUri? (scope : List Binding) (name : TagName) : Option (Option String) :=
  if name.qualifier.isEmpty then some (bound? scope none)
  else if name.qualifier = "xmlns".toList then none
  else (bound? scope (some (String.ofList name.qualifier))).map some

/-- The namespace of an attribute's name, if any.  The default namespace is not for
attributes, and `xml` is always bound. -/
def attributeUri? (scope : List Binding) (name : TagName) : Option (Option String) :=
  if name.qualifier.isEmpty then some none
  else if name.qualifier = "xml".toList then some (some xmlUri)
  else (bound? scope (some (String.ofList name.qualifier))).map some

/-- The attributes that are no declarations.  No two of them have the same name in the same
namespace. -/
def attributes? (scope : List Binding) :
    List (TagName × String) → List Attribute → Option (List Attribute)
  | [], _ => some []
  | (name, value) :: rest, before =>
    if isDeclaration name then attributes? scope rest before
    else
      (attributeUri? scope name).bind fun uri =>
        let a : Attribute := ⟨String.ofList name.base, uri, value⟩
        if before.any fun b => b.base = a.base ∧ b.uri = a.uri then none
        else (attributes? scope rest (a :: before)).map (a :: ·)

/-- The values of the attributes of a tag. -/
def values? : List RawAttribute → Option (List (TagName × String))
  | [] => some []
  | a :: rest =>
    (attributeValue a.raw).bind fun value =>
      (values? rest).map ((a.name, String.ofList value) :: ·)

/-- What a start tag says inside an element with the given scope. -/
def ofRaw? (inherited : List Binding) (name : TagName) (raw : List RawAttribute) : Option Tag :=
  (values? raw).bind fun written =>
  (declared? written []).bind fun own =>
  let scope := scopeOf own inherited
  (elementUri? scope name).bind fun uri =>
  (attributes? scope written []).map fun attributes =>
    ⟨String.ofList name.base, uri, scope, attributes⟩

/-- The qualifier that names in a namespace are reported with: that of the first binding in
scope. -/
def qualifierOf (t : Tag) (uri : String) : Option String :=
  if uri = xmlUri then some "xml" else (t.scope.find? (·.uri = uri)).bind Binding.qualifier

end Tag

/-- An element whose end tag has not been met: its start tag and the siblings before it, the
last one first. -/
structure OpenElement where
  start : Nat
  name : TagName
  tag : Tag
  before : List Node
  deriving Repr

/-- A document put together so far: the nodes of the innermost open element, the last one
first, and the open elements from the inside out. -/
structure Assembly where
  nodes : List Node
  opened : List OpenElement
  deriving Repr

namespace Assembly

def empty : Assembly := ⟨[], []⟩

def add (a : Assembly) (n : Node) : Assembly := { a with nodes := n :: a.nodes }

/-- Adds text inside an element; it goes on with a text node that stands right before it. -/
def addText (a : Assembly) (start : Nat) (value : String) : Assembly :=
  match a.nodes with
  | .text s v :: before => { a with nodes := .text s (v ++ value) :: before }
  | _ => a.add (.text start value)

def scope (a : Assembly) : List Binding :=
  match a.opened with
  | [] => []
  | o :: _ => o.tag.scope

def hasElement (a : Assembly) : Bool :=
  a.nodes.any fun
    | .element .. => true
    | _ => false

/-- Adds one piece.  Outside the one outermost element there can only be comments, processing
instructions and white space. -/
def place? (a : Assembly) (p : Placed) : Option Assembly :=
  match p.piece with
  | .comment body => some (a.add (.comment p.start (String.ofList body)))
  | .instruction target value =>
    some (a.add (.instruction p.start (String.ofList target) (String.ofList value)))
  | .text raw =>
    if a.opened.isEmpty then
      if raw.all Text.isSpace then some a else none
    else (textValue raw).map fun value => a.addText p.start (String.ofList value)
  | .cdata raw =>
    if a.opened.isEmpty then none else some (a.addText p.start (String.ofList (cdataValue raw)))
  | .opening name raw closed =>
    if a.opened.isEmpty ∧ a.hasElement then none
    else
      (Tag.ofRaw? a.scope name raw).map fun tag =>
        if closed then a.add (.element p.start tag [])
        else ⟨[], ⟨p.start, name, tag, a.nodes⟩ :: a.opened⟩
  | .closing name =>
    match a.opened with
    | [] => none
    | o :: outer =>
      if o.name = name then
        some ⟨.element o.start o.tag a.nodes.reverse :: o.before, outer⟩
      else none

/-- The nodes of a complete document: no element is open, and there is one. -/
def complete? (a : Assembly) : Option (List Node) :=
  if a.opened.isEmpty ∧ a.hasElement then some a.nodes.reverse else none

end Assembly

/-- The nodes of a document that consists of the given pieces. -/
def Node.ofPieces? (pieces : List Placed) : Option (List Node) :=
  (pieces.foldlM Assembly.place? Assembly.empty).bind Assembly.complete?

end StylesheetReversal.Xml
