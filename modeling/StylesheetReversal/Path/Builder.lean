import StylesheetReversal.Path.Session
/-!
# Builders

A `Builder` turns an expression into nodes of its own making.  It is asked for one
construction at a time: a piece of the expression after its parts, from left to right.  It may
refuse any of them, which ends the parse.  It is told of the start and, whatever happens, of
the end.
-/
namespace StylesheetReversal.Path

/-- One construction, with the nodes built for the parts. -/
inductive Call (ν : Type)
  | string (value : String)
  | number (text : String)
  | operator (op : Operator) (left right : Option ν)
  | axis (axis : Axis) (kind : NodeKind) (qualifier name : Option String)
  | join (left right : ν)
  | predicate (node condition : ν) (reverse : Bool)
  | variable (qualifier : Option String) (name : String)
  | function (qualifier : Option String) (name : String) (args : List ν)
  deriving DecidableEq, Repr

/-- Makes nodes of type `ν`, keeping a state of type `σ`.  `construct` gives a node or the
reason for refusing; `finish` is given the node of the whole expression, or nothing when the
parse failed, and may give up the result. -/
structure Builder (σ ν : Type) where
  start : σ → σ
  construct : Call ν → σ → Except String ν × σ
  finish : Option ν → σ → Option ν × σ

end StylesheetReversal.Path
