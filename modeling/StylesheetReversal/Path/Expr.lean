import StylesheetReversal.Log
import StylesheetReversal.Path.Parser
/-!
# Expressions as trees

`Expr` is the plain tree of an expression, with one shape for each kind of construction.
`Expr.parse` reads it off a text, and `display` prints it as nested parentheses.
-/
namespace StylesheetReversal.Path

/-- The tree of an expression.  Numbers stay as they are written.  A binary operator has two
operands and `unaryMinus` only the left one. -/
inductive Expr
  | string (value : String)
  | number (text : String)
  | operator (op : Operator) (left right : Option Expr)
  | axis (axis : Axis) (kind : NodeKind) (qualifier name : Option String)
  | join (left right : Expr)
  | predicate (node condition : Expr) (reverse : Bool)
  | variable (qualifier : Option String) (name : String)
  | function (qualifier : Option String) (name : String) (args : List Expr)
  deriving Repr

namespace Expr

/-- The word for the shape of a tree. -/
def shape : Expr → String
  | .string .. => "string"
  | .number .. => "number"
  | .operator .. => "operator"
  | .axis .. => "axis"
  | .join .. => "step"
  | .predicate .. => "predicate"
  | .variable .. => "variable"
  | .function .. => "function"

/-- A name with its qualifier, if that says anything. -/
def displayName (qualifier : Option String) (name : String) : String :=
  match qualifier with
  | some q => if q = "" then name else q ++ ":" ++ name
  | none => name

/-- What a node test asks for.  A test without a name prints `*` where a name could stand. -/
def displayTest (kind : NodeKind) (qualifier name : Option String) : String :=
  match name with
  | some name => " " ++ displayName qualifier name
  | none => if kind.isNamed then " " ++ displayName qualifier "*" else ""

mutual

/-- The tree as nested parentheses. -/
def display : Expr → String
  | .string value => "(string '" ++ value ++ "')"
  | .number text => "(number " ++ text ++ ")"
  | .operator op left right =>
    "(" ++ op.label ++ displayOperand left ++ displayOperand right ++ ")"
  | .axis along kind qualifier name =>
    "(" ++ along.label ++ " " ++ kind.label ++ displayTest kind qualifier name ++ ")"
  | .join left right => "(step " ++ display left ++ " " ++ display right ++ ")"
  | .predicate node condition reverse =>
    (if reverse then "(predicate-reverse " else "(predicate ") ++
      display node ++ " " ++ display condition ++ ")"
  | .variable qualifier name => "(variable $" ++ displayName qualifier name ++ ")"
  | .function qualifier name args =>
    "(function " ++ displayName qualifier name ++ displayArguments args ++ ")"

def displayOperand : Option Expr → String
  | none => ""
  | some operand => " " ++ display operand

def displayArguments : List Expr → String
  | [] => ""
  | arg :: args => " " ++ display arg ++ displayArguments args

end

/-- The tree of one construction. -/
def ofCall : Call Expr → Expr
  | .string value => .string value
  | .number text => .number text
  | .operator op left right => .operator op left right
  | .axis along kind qualifier name => .axis along kind qualifier name
  | .join left right => .join left right
  | .predicate node condition reverse => .predicate node condition reverse
  | .variable qualifier name => .variable qualifier name
  | .function qualifier name args => .function qualifier name args

/-- Builds the tree of an expression; it refuses nothing. -/
def builder : Builder Unit Expr where
  start := id
  construct call s := (.ok (ofCall call), s)
  finish result s := (result, s)

/-- The tree of the expression that starts at byte `start` of the text. -/
def parseFrom (text : String) (start : Nat) : Except ParseError Expr :=
  (builder.parse text start ()).1

/-- The tree of the expression that a text is. -/
def parse (text : String) : Except ParseError Expr := parseFrom text 0

/-- What is logged while the expression is read. -/
def parseLog (text : String) : List Log.Record :=
  let opening := Log.trace ("Parsing XPath expression '" ++ text ++ "'")
  match parse text with
  | .ok _ => [opening]
  | .error e => [opening, Log.debug ("XPath parse failed: " ++ e.detailed)]

end Expr

end StylesheetReversal.Path
