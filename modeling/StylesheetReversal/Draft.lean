import StylesheetReversal.Xml.Element
/-!
# Drafting a document

A `Draft` holds elements that were created one after another and linked afterwards.  An
element is known by its number.  Only what can be reached from the root is part of the
document that is written; the same element may be linked in more than one place.
-/
namespace StylesheetReversal

namespace Draft

/-- An element with the numbers of its children. -/
structure Entry where
  name : String
  attributes : List (String × String)
  children : List Nat
  deriving DecidableEq, Repr

end Draft

/-- Elements in the order of their creation, the root of the document and the namespaces that
are declared on it. -/
structure Draft where
  entries : Array Draft.Entry
  root : Option Nat
  declared : List (String × String)
  deriving Repr

/-- What goes wrong when a document is written. -/
inductive WriteError
  | closed
  deriving DecidableEq, Repr

def WriteError.message : WriteError → String
  | .closed => "Output write error: sink closed"

namespace Draft

def empty : Draft := ⟨#[], none, []⟩

/-- The number of elements. -/
def size (d : Draft) : Nat := d.entries.size

/-- Creates an element that is linked nowhere yet. -/
def create (name : String) (d : Draft) : Nat × Draft :=
  (d.size, { d with entries := d.entries.push ⟨name, [], []⟩ })

/-- Changes one element. -/
def update (element : Nat) (change : Entry → Entry) (d : Draft) : Draft :=
  { d with entries := d.entries.modify element change }

/-- Links an element below another, behind those already there. -/
def append (parent child : Nat) (d : Draft) : Draft :=
  d.update parent fun e => { e with children := e.children ++ [child] }

/-- Sets a value for a key: in place of the old one, or behind all others. -/
def put (key value : String) : List (String × String) → List (String × String)
  | [] => [(key, value)]
  | (k, v) :: rest => if k = key then (k, value) :: rest else (k, v) :: put key value rest

/-- Sets an attribute of an element. -/
def setAttribute (element : Nat) (name value : String) (d : Draft) : Draft :=
  d.update element fun e => { e with attributes := put name value e.attributes }

def setRoot (element : Nat) (d : Draft) : Draft := { d with root := some element }

/-- Declares a namespace on the root. -/
def declare (qualifier uri : String) (d : Draft) : Draft :=
  { d with declared := d.declared ++ [(qualifier, uri)] }

def entry? (d : Draft) (element : Nat) : Option Entry := d.entries[element]?

def attribute? (d : Draft) (element : Nat) (name : String) : Option String :=
  (d.entry? element).bind fun e => e.attributes.lookup name

/-- An element with everything linked below it, at most `depth` levels.  No chain of links
is longer than the number of elements. -/
def tree (d : Draft) : Nat → Nat → Xml.Element
  | 0, _ => .mk "" [] []
  | depth + 1, element =>
    match d.entry? element with
    | some e => .mk e.name e.attributes (e.children.map (d.tree depth))
    | none => .mk "" [] []

/-- The attributes that declare namespaces. -/
def declarations (d : Draft) : List (String × String) :=
  d.declared.map fun (qualifier, uri) => ("xmlns:" ++ qualifier, uri)

/-- The document, with the namespaces declared in front of the attributes of the root. -/
def document (d : Draft) : Option Xml.Element :=
  d.root.map fun root =>
    match d.tree (d.size + 1) root with
    | .mk name attributes children => .mk name (d.declarations ++ attributes) children

/-- The document as text, indented if a width is given. -/
def write (d : Draft) (indent : Option Nat) : String :=
  Xml.Element.writeDocument indent d.document

/-- Writes to a sink that takes at most `limit` bytes. -/
def writeTo (d : Draft) (limit : Nat) (indent : Option Nat) : Except WriteError Unit :=
  if (d.write indent).utf8ByteSize ≤ limit then .ok () else .error .closed

end Draft

end StylesheetReversal
