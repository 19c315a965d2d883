/-!
# Axes and node kinds

A step of a path moves along an `Axis` and keeps the nodes of one `NodeKind`.  Thirteen axes
have a written name; `root` stands for a leading `/` and has none.
-/
namespace StylesheetReversal.Path

/-- The direction of movement from the context node. -/
inductive Axis
  | ancestor
  | ancestorOrSelf
  | attribute
  | child
  | descendant
  | descendantOrSelf
  | following
  | followingSibling
  | nspace
  | parent
  | preceding
  | precedingSibling
  | self
  | root
  deriving DecidableEq, Repr

/-- The kind of node a step keeps; `all` is any kind. -/
inductive NodeKind
  | all
  | element
  | attribute
  | nspace
  | text
  | comment
  | processingInstruction
  deriving DecidableEq, Repr

namespace Axis

/-- The axis a name stands for when it is written before `::`. -/
def ofName? : String → Option Axis
  | "ancestor" => some .ancestor
  | "ancestor-or-self" => some .ancestorOrSelf
  | "attribute" => some .attribute
  | "child" => some .child
  | "descendant" => some .descendant
  | "descendant-or-self" => some .descendantOrSelf
  | "following" => some .following
  | "following-sibling" => some .followingSibling
  | "namespace" => some .nspace
  | "parent" => some .parent
  | "preceding" => some .preceding
  | "preceding-sibling" => some .precedingSibling
  | "self" => some .self
  | _ => none

/-- On a reverse axis positions count from the far end. -/
def isReverse : Axis → Bool
  | .ancestor | .ancestorOrSelf | .preceding | .precedingSibling => true
  | _ => false

/-- The kind of node a name test keeps on this axis. -/
def principalKind : Axis → NodeKind
  | .attribute => .attribute
  | .nspace => .nspace
  | _ => .element

/-- The word for the axis in a printed tree. -/
def label : Axis → String
  | .ancestor => "Ancestor"
  | .ancestorOrSelf => "AncestorOrSelf"
  | .attribute => "Attribute"
  | .child => "Child"
  | .descendant => "Descendant"
  | .descendantOrSelf => "DescendantOrSelf"
  | .following => "Following"
  | .followingSibling => "FollowingSibling"
  | .nspace => "Namespace"
  | .parent => "Parent"
  | .preceding => "Preceding"
  | .precedingSibling => "PrecedingSibling"
  | .self => "Self"
  | .root => "Root"

end Axis

namespace NodeKind

/-- The kind a node-type test such as `text()` keeps. -/
def ofTypeName? : String → Option NodeKind
  | "node" => some .all
  | "text" => some .text
  | "comment" => some .comment
  | "processing-instruction" => some .processingInstruction
  | _ => none

/-- A name test keeps nodes of one of these kinds. -/
def isNamed : NodeKind → Bool
  | .element | .attribute | .nspace => true
  | _ => false

/-- The word for the kind in a printed tree. -/
def label : NodeKind → String
  | .all => "All"
  | .element => "Element"
  | .attribute => "Attribute"
  | .nspace => "Namespace"
  | .text => "Text"
  | .comment => "Comment"
  | .processingInstruction => "ProcessingInstruction"

end NodeKind

end StylesheetReversal.Path
