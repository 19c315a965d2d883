/-!
# Documents seen through their nodes

A `Document ν` says of every node what it is, what it is called, what it holds and where it
hangs.  Nothing else about a document matters to those who only look around in it, so they
work alike on a document that was read and on one that was put together by hand.

A node stands deeper than its parent (`rank_parent`), so every way up ends.
-/
namespace StylesheetReversal

/-- The types of nodes. -/
inductive NodeType
  | root
  | element
  | attribute
  | text
  | comment
  | instruction
  deriving DecidableEq, Repr

/-- A name that may be qualified. -/
structure QName where
  qualifier : Option String
  base : String
  deriving DecidableEq, Repr

def QName.display (n : QName) : String :=
  match n.qualifier with
  | some q => q ++ ":" ++ n.base
  | none => n.base

/-- A tree of nodes that is only looked at.  `uri` is the namespace of a node.  The value of
an element is all the text inside it.  Attributes are not among the children of their
element, but it is their parent. -/
structure Document (ν : Type) where
  kind : ν → NodeType
  name : ν → Option QName
  uri : ν → Option String
  value : ν → String
  parent : ν → Option ν
  attributes : ν → List ν
  children : ν → List ν
  rank : ν → Nat
  rank_parent : ∀ {n p : ν}, parent n = some p → rank p < rank n

namespace Document

variable {ν : Type} [DecidableEq ν]

/-- The name of a node without its qualifier, empty for a node without a name. -/
def baseName (d : Document ν) (n : ν) : String :=
  match d.name n with
  | some name => name.base
  | none => ""

/-- The siblings before a node and those after it, each side from the nearest on. -/
def siblings (d : Document ν) (n : ν) : List ν × List ν :=
  match d.parent n with
  | none => ([], [])
  | some p =>
    match (d.children p).dropWhile (· ≠ n) with
    | [] => ([], [])
    | _ :: after => (((d.children p).takeWhile (· ≠ n)).reverse, after)

/-- The next nodes on the way up, at most `steps` of them. -/
def climb (d : Document ν) (boundary : ν) : Nat → ν → List ν
  | 0, _ => []
  | steps + 1, n =>
    if n = boundary ∨ d.kind n = .root then []
    else
      match d.parent n with
      | some p => n :: climb d boundary steps p
      | none => [n]

/-- The nodes met on the way up from `source`, itself included, before `boundary` or the
root of the document is reached. -/
def trail (d : Document ν) (source boundary : ν) : List ν :=
  d.climb boundary (d.rank source + 1) source

end Document

end StylesheetReversal
