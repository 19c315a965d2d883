/-!
# Writing XML

An `Element` is a tree of elements without text.  It is written after the XML declaration, in
one line or, with an indentation, every tag in a line of its own.
-/
namespace StylesheetReversal.Xml

/-- An element to be written: its name, its attributes in order and its children. -/
inductive Element
  | mk (name : String) (attributes : List (String × String)) (children : List Element)
  deriving Repr

namespace Element

/-- How a character is written in the value of an attribute. -/
def escapeChar : Char → List Char
  | '<' => ['&', 'l', 't', ';']
  | '>' => ['&', 'g', 't', ';']
  | '&' => ['&', 'a', 'm', 'p', ';']
  | '\'' => ['&', 'a', 'p', 'o', 's', ';']
  | '"' => ['&', 'q', 'u', 'o', 't', ';']
  | c => [c]

def escape (value : String) : String := String.ofList (value.toList.flatMap escapeChar)

def writeAttribute : String × String → String
  | (name, value) => " " ++ name ++ "=\"" ++ escape value ++ "\""

/-- What stands in front of a tag at a depth: nothing, or a new line and the indentation. -/
def lineStart (indent : Option Nat) (depth : Nat) : String :=
  match indent with
  | none => ""
  | some width => "\n" ++ String.ofList (List.replicate (width * depth) ' ')

mutual

/-- The tags of an element at a depth.  One without children is written as a single tag. -/
def write (indent : Option Nat) (depth : Nat) : Element → String
  | .mk name attributes children =>
    let tag := "<" ++ name ++ String.join (attributes.map writeAttribute)
    if children.isEmpty then lineStart indent depth ++ tag ++ "/>"
    else
      lineStart indent depth ++ tag ++ ">" ++ writeAll indent (depth + 1) children ++
        lineStart indent depth ++ "</" ++ name ++ ">"

def writeAll (indent : Option Nat) (depth : Nat) : List Element → String
  | [] => ""
  | c :: cs => write indent depth c ++ writeAll indent depth cs

end

/-- The declaration a document starts with. -/
def declaration : String := "<?xml version=\"1.0\" encoding=\"UTF-8\"?>"

/-- A document with the given outermost element, if there is one. -/
def writeDocument (indent : Option Nat) (root : Option Element) : String :=
  match root with
  | some root => declaration ++ write indent 0 root
  | none => declaration

end Element

end StylesheetReversal.Xml
